import TransactionalMemory.Atomic.Effects

/-!
# The clock

What holds of the clock, the read and write versions and the versions in the locks in every run
that keeps the clock below `2 ^ 63`, with or without lock collisions: read versions, write
versions and lock versions never exceed the clock, and a write version is above the read version
of its transaction (`Clocked`).
-/

namespace TransactionalMemory

open VersionedWriteLock Tx

variable {V : Type} {S : Setup V} {t : Tid} {sh' : Shared V} {x' : Tx V} {s s' : State V}

/-- Versions are bounded by the clock. -/
structure Clocked (S : Setup V) (s : State V) : Prop where
  shape : ∀ t, (s.tx t).Shape S
  clock : s.shared.gvc.toNat < 2 ^ 63
  rv_le : ∀ t, (s.tx t).txn.rv.toNat ≤ s.shared.gvc.toNat
  stamped_le : ∀ t, (s.tx t).Stamped → (s.tx t).wv.toNat ≤ s.shared.gvc.toNat
  /-- A write version is above the read version. -/
  rv_lt : ∀ t, (s.tx t).Stamped → (s.tx t).txn.rv.toNat < (s.tx t).wv.toNat
  version_le : ∀ l, versionOf (s.shared.locks l) ≤ s.shared.gvc.toNat
  /-- The word loaded by `unlock` holds a version that was in the lock. -/
  current_le : ∀ t l todo current, (s.tx t).pc = .unlockStore l todo current →
    versionOf current ≤ s.shared.gvc.toNat

/-- The clock stays below a bound. -/
def clockBelow (bound : ℕ) : State V → Label V → State V → Prop :=
  fun _ _ s' => s'.shared.gvc.toNat < bound

instance (bound : ℕ) (s s' : State V) (lab : Label V) : Decidable (clockBelow bound s lab s') :=
  inferInstanceAs (Decidable (_ < _))

/-- The word `unlock` is about to store comes from a lock. -/
theorem current_le_of_move {bound : ℕ} {sh : Shared V} {x : Tx V} (hmove : Move S t sh x sh' x')
    (hle : ∀ l, versionOf (sh.locks l) ≤ bound) {l : LockId} {todo : List LockId} {current : Word}
    (hpc' : x'.pc = .unlockStore l todo current) : versionOf current ≤ bound := by
  cases hmove with
  | unlockLoad k rest hpc =>
    injection hpc' with _ _ hcurrent
    rw [← hcurrent]
    exact hle k
  | write _ _ hpc => rw [hpc] at hpc'; cases hpc'
  | _ => cases hpc'

namespace Clocked

variable (h : Clocked S s)

include h

section Moved

variable (heff : Effect S s.shared (s.tx t) sh' x')

include heff

/-- The clock does not go back. -/
theorem gvc_mono : s.shared.gvc.toNat ≤ sh'.gvc.toNat := by
  rcases heff.gvc with hg | hg
  · rw [hg]
  · rw [hg, gvc_succ h.clock]
    exact Nat.le_succ _

/-- The versions in the locks stay below the clock. -/
theorem version_le_moved (l : LockId) : versionOf (sh'.locks l) ≤ sh'.gvc.toNat := by
  refine le_trans ?_ (h.gvc_mono heff)
  cases heff with
  -- the lock words are not touched
  | quiet | clock | store => exact h.version_le l
  -- setting the lock bit of a free lock keeps its version
  | take _ k _ _ hfree =>
    by_cases hlk : l = k
    · subst hlk
      rw [Shared.setLock_locks_self, versionOf_lockDesired hfree]
      exact h.version_le l
    · rw [Shared.setLock_locks_of_ne hlk]
      exact h.version_le l
  -- the version stored is the one that was loaded before
  | unlock _ k todo current hpc =>
    by_cases hlk : l = k
    · subst hlk
      rw [Shared.setLock_locks_self]
      exact (versionOf_unlockValue_le _).trans (h.current_le t l todo current hpc)
    · rw [Shared.setLock_locks_of_ne hlk]
      exact h.version_le l
  -- the version stored is the write version
  | publish _ e todo hpc =>
    by_cases hlk : l = S.lockOf e.1
    · rw [hlk, Shared.setLock_locks_self]
      exact (versionOf_setVersion_le _).trans (h.stamped_le t (by simp [Stamped, hpc]))
    · rw [Shared.setLock_locks_of_ne hlk]
      exact h.version_le l

end Moved

/-- The bounds are kept by every move. -/
theorem move (hmove : Move S t s.shared (s.tx t) sh' x') (hclock : sh'.gvc.toNat < 2 ^ 63) :
    Clocked S (s.moved t sh' x') := by
  have heff := effect_of_move (h.shape t) hmove
  have hmono := h.gvc_mono heff
  exact {
    shape := State.forall_moved (shape_move (h.shape t) hmove) fun u _ => h.shape u
    clock := hclock
    rv_le := fun u => by
      refine State.forall_moved (P := fun _ y => y.txn.rv.toNat ≤ sh'.gvc.toNat) ?_
        (fun u _ => (h.rv_le u).trans hmono) u
      have hle := h.rv_le t
      rcases heff.rv with hrv | ⟨-, hrv⟩ <;> rw [hrv] <;> omega
    stamped_le := fun u hst => by
      refine State.forall_moved (P := fun _ y => y.Stamped → y.wv.toNat ≤ sh'.gvc.toNat)
        (fun hst => ?_) (fun u _ hst => (h.stamped_le u hst).trans hmono) u hst
      -- the write version is an old one or the value the clock has just got
      rcases heff.stamped hst with ⟨hst', hwv, -, -⟩ | ⟨hwv, hgvc⟩
      · rw [hwv]
        exact (h.stamped_le t hst').trans hmono
      · rw [hwv, hgvc]
    rv_lt := fun u hst => by
      refine State.forall_moved (P := fun _ y => y.Stamped → y.txn.rv.toNat < y.wv.toNat)
        (fun hst => ?_) (fun u _ hst => h.rv_lt u hst) u hst
      have hrv : x'.txn.rv = (s.tx t).txn.rv := by
        rcases heff.rv with hrv | ⟨hnot, -⟩
        · exact hrv
        · exact absurd hst hnot
      have hle := h.rv_le t
      rw [hrv]
      rcases heff.stamped hst with ⟨hst', hwv, -, -⟩ | ⟨hwv, -⟩
      · rw [hwv]
        exact h.rv_lt t hst'
      · rw [hwv, gvc_succ h.clock]
        omega
    version_le := h.version_le_moved heff
    current_le := fun u l todo current hpc => by
      refine State.forall_moved
        (P := fun _ y => y.pc = .unlockStore l todo current → versionOf current ≤ sh'.gvc.toNat)
        (fun hpc => ?_) (fun u _ hpc => (h.current_le u l todo current hpc).trans hmono) u hpc
      exact (current_le_of_move hmove h.version_le hpc).trans hmono }

/-- The bounds are kept by a tick. -/
theorem ticked (hclock : s.ticked.shared.gvc.toNat < 2 ^ 63) : Clocked S s.ticked := by
  have hgvc : s.ticked.shared.gvc.toNat = s.shared.gvc.toNat + 1 := gvc_succ h.clock
  exact {
    shape := h.shape
    clock := hclock
    rv_le := fun t => (h.rv_le t).trans (by omega)
    stamped_le := fun t hst => (h.stamped_le t hst).trans (by omega)
    rv_lt := h.rv_lt
    version_le := fun l => (h.version_le l).trans (by omega)
    current_le := fun t l todo current hpc =>
      (h.current_le t l todo current hpc).trans (by omega) }

end Clocked

/-- The bounds hold at first, as everything is zero. -/
theorem clocked_init [Zero V] : Clocked S (machine S).init := by
  have hst : ∀ t, ¬ ((machine S).init.tx t).Stamped := fun t h => by
    simp [machine, Stamped, Tx.unborn] at h
  exact {
    shape := fun _ => shape_unborn
    clock := by simp [machine]
    rv_le := by simp [machine, Tx.unborn, Transaction.create]
    stamped_le := fun t h => absurd h (hst t)
    rv_lt := fun t h => absurd h (hst t)
    version_le := by simp [machine]
    current_le := by simp [machine, Tx.unborn] }

/-- The bounds hold in every state of a run that keeps the clock below `2 ^ 63`. -/
theorem clocked_of_reachable [Zero V] (h : (machine S).Reachable (clockBelow (2 ^ 63)) s) :
    Clocked S s := by
  apply h.invariant clocked_init
  intro s lab s' _ ih hstep hok
  rcases step_cases hstep with ⟨t, c, sh', x', -, hmove, rfl⟩ | ⟨-, rfl⟩
  · exact ih.move hmove hok
  · exact ih.ticked hok

end TransactionalMemory
