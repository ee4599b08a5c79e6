import Mathlib.Order.Bounds.Basic
import TransactionalMemory.Atomic.Versions

/-!
# No lost or reordered update

`UpdatesOrdered` is the claim a commit protocol makes about its write-back: the stores to an
address happen in the order of the write versions, and whenever no transaction is inside
`tm_end`, every word is the one buffered by the committed transaction with the greatest write
version, and every lock is free and carries the greatest write version committed under it.

It holds of collision-free runs that keep the clock below `2 ^ 31` (`updatesOrdered`). Without
collision-freedom an update can be lost: a transaction that released a lock early stores below it
after a later transaction has committed there (`updatesOrdered_fails`).
-/

namespace TransactionalMemory

open VersionedWriteLock UnorderedMap

variable {V : Type} {S : Setup V} {t u : Tid} {s s' : State V} {a : Addr}

/-- The next atomic access of `t` stores the shared word `a`. -/
def Stores (s : State V) (t : Tid) (a : Addr) : Prop :=
  ∃ v todo, (s.tx t).pc = .writeBack ((a, v) :: todo)

/-- The words buffered by the committed update transactions, with their write versions. -/
def committedWrites (s : State V) : VersionedWrites Tid Addr V ℕ where
  wrote t a v := (s.tx t).pc = .committed ∧ (s.tx t).txn.isRo = false ∧
    (s.tx t).txn.writeSet.lookup a = some v
  version t := (s.tx t).wv.toNat

/-- The write versions of the committed transactions that wrote a word protected by `l`. -/
def lockVersions (S : Setup V) (s : State V) (l : LockId) : Set ℕ :=
  {n | ∃ t a v, (committedWrites s).wrote t a v ∧ S.lockOf a = l ∧
    (committedWrites s).version t = n}

/-- No lost or reordered update, in all runs whose steps satisfy `ok`. -/
structure UpdatesOrdered [Zero V] (S : Setup V) (ok : State V → Label V → State V → Prop) :
    Prop where
  /-- Stores to one address happen in increasing order of the write versions. -/
  order : ∀ s s₁ s₂ labs t u a, (machine S).Reachable ok s → Stores s t a →
    (machine S).step s (.tx t .step) = some s₁ → ok s (.tx t .step) s₁ →
    (machine S).Run ok s₁ labs s₂ → Stores s₂ u a →
    (s.tx t).wv.toNat < (s₂.tx u).wv.toNat
  /-- With nobody inside `tm_end`, a word is the one committed with the greatest version. -/
  memory : ∀ s, (machine S).Reachable ok s → Quiescent s → ∀ a,
    (committedWrites s).Latest 0 a (s.shared.mem a)
  /-- With nobody inside `tm_end`, every lock is free. -/
  unlocked : ∀ s, (machine S).Reachable ok s → Quiescent s → ∀ l,
    isLocked (s.shared.locks l) = false
  /-- With nobody inside `tm_end`, a lock carries the greatest version committed under it, and
  zero if there is none. -/
  version : ∀ s, (machine S).Reachable ok s → Quiescent s → ∀ l,
    (lockVersions S s l = ∅ ∧ versionOf (s.shared.locks l) = 0) ∨
      IsGreatest (lockVersions S s l) (versionOf (s.shared.locks l))

/-- The runs without lock collisions and with the clock below `2 ^ 31`. -/
def orderly (S : Setup V) : State V → Label V → State V → Prop :=
  fun s lab s' => clockBelow (2 ^ 31) s lab s' ∧ collisionFreeStep S s lab s'

/-- With the clock below `2 ^ 31` a run is steady. -/
theorem steady_of_orderly [Zero V] (h : (machine S).Reachable (orderly S) s) :
    (machine S).Reachable (steady S) s := by
  obtain ⟨labs, hrun⟩ := h
  refine ⟨labs, (hrun.strengthen (I := fun s => Clocked S s ∧ s.shared.gvc.toNat < 2 ^ 31)
    ⟨clocked_init, by simp [machine]⟩ (fun s lab s' hs hstep hok => ?_)
    fun s lab s' hs hok => ⟨versionsKept_of_clockBelow hs.1 hs.2 hok.1, hok.2⟩).1⟩
  have hclock : s'.shared.gvc.toNat < 2 ^ 63 := hok.1.trans (by decide)
  rcases step_cases hstep with ⟨t, c, sh', x', -, hmove, rfl⟩ | ⟨-, rfl⟩
  · exact ⟨hs.1.move hmove hclock, hok.1⟩
  · exact ⟨hs.1.ticked hclock, hok.1⟩

/-- The invariant of lock versions and write versions, in orderly runs. -/
theorem versions_of_orderly [Zero V] (h : (machine S).Reachable (orderly S) s) : Versions S s :=
  versions_of_reachable (steady_of_orderly h)

/-- A transaction outside `tm_end` has stored a word exactly if it has committed it. -/
theorem stored_iff_committed (h : ¬ (s.tx t).InEnd) :
    (s.tx t).Stored a ↔ (s.tx t).pc = .committed ∧ (s.tx t).txn.isRo = false ∧
      a ∈ (s.tx t).txn.writeSet := by
  unfold Tx.InEnd at h
  unfold Tx.Stored Tx.Passed Tx.unstored
  cases hpc : (s.tx t).pc <;> simp_all

/-- It has published exactly the words that it has committed. -/
theorem released_iff_committed (h : ¬ (s.tx t).InEnd) :
    (s.tx t).Released a ↔ (s.tx t).pc = .committed ∧ (s.tx t).txn.isRo = false ∧
      a ∈ (s.tx t).txn.writeSet := by
  unfold Tx.InEnd at h
  unfold Tx.Released Tx.Passed Tx.unpublished
  cases hpc : (s.tx t).pc <;> simp_all

/-- A stored word stays stored along a run, under the same write version. -/
theorem stored_of_run [Zero V] {labs : List (Label V)} (h : (machine S).Reachable (orderly S) s)
    (hrun : (machine S).Run (orderly S) s labs s') (hst : (s.tx t).Stored a) :
    (s'.tx t).Stored a ∧ (s'.tx t).wv = (s.tx t).wv := by
  induction hrun with
  | nil => exact ⟨hst, rfl⟩
  | snoc hrun hstep _ ih =>
    obtain ⟨hst', hwv⟩ := ih
    have hv := versions_of_orderly (h.run hrun)
    rcases step_cases hstep with ⟨u, c, sh', x', -, hmove, rfl⟩ | ⟨-, rfl⟩
    · by_cases htu : t = u
      · subst htu
        have hmono := (effect_of_move (hv.owners.shape t) hmove).stored_mono hst'
        simpa using ⟨hmono.1, hmono.2.1.trans hwv⟩
      · simpa [htu] using ⟨hst', hwv⟩
    · exact ⟨hst', hwv⟩

/-- The store of the write-back loop makes the word stored. -/
theorem stored_of_stores [Zero V] (h : Versions S s) (hstores : Stores s t a)
    (hstep : (machine S).step s (.tx t .step) = some s') :
    (s'.tx t).Stored a ∧ (s'.tx t).wv = (s.tx t).wv := by
  obtain ⟨v, todo, hpc⟩ := hstores
  have hshape := h.owners.shape t
  rw [Tx.Shape, hpc] at hshape
  simp only [machine, Tx.act, Tx.step, hpc, Option.map_some, Option.some.injEq] at hstep
  subst hstep
  simp only [Function.update_self]
  exact ⟨⟨trivial, mem_iff_lookup.2 ⟨v, hshape.entries _ List.mem_cons_self⟩,
    (List.nodup_cons.1 hshape.nodup).1⟩, trivial⟩

/-- In collision-free runs no update is lost or reordered. -/
theorem updatesOrdered [Zero V] (S : Setup V) : UpdatesOrdered S (orderly S) where
  order s s₁ s₂ labs t u a h hstores hstep hok hrun hstores' := by
    have hst := stored_of_stores (versions_of_orderly h) hstores hstep
    have hst₂ := stored_of_run (h.step hstep hok) hrun hst.1
    have hv := versions_of_orderly ((h.step hstep hok).run hrun)
    obtain ⟨v, todo, hpc⟩ := hstores'
    -- a transaction stores each word once
    have hut : t ≠ u := by
      rintro rfl
      exact hst₂.1.2.2 (by simp [Tx.unstored, hpc])
    -- the later one owns the lock of a word that the earlier one has stored
    rw [← hst.2, ← hst₂.2]
    apply hv.stored_lt hut hst₂.1 (by simp [Tx.Stamped, hpc])
    exact hv.owners.owned_of_unpublished (by simp [Tx.Passed, hpc]) (by simp [Tx.unpublished, hpc])
  memory s h hq a := by
    refine ((versions_of_orderly h).memory a).congr (fun t v => ?_) (fun t v _ => ?_)
    · simp only [committedWrites, storedWrites, stored_iff_committed (hq t), and_assoc]
      refine and_congr_right fun _ => and_congr_right fun _ => ?_
      exact ⟨fun hv => ⟨mem_iff_lookup.2 ⟨v, hv⟩, hv⟩, fun hv => hv.2⟩
    · rfl
  unlocked s h hq l := by
    have hv := versions_of_orderly h
    rw [← Bool.not_eq_true, hv.owners.locked]
    rintro ⟨t, ht⟩
    exact hq t (hv.owners.inEnd ht)
  version s h hq l := by
    have hv := versions_of_orderly h
    have hupper : versionOf (s.shared.locks l) ∈ upperBounds (lockVersions S s l) := by
      rintro n ⟨t, a, v, ⟨hpc, hro, hlook⟩, rfl, rfl⟩
      exact hv.released_le t a
        ((released_iff_committed (hq t)).2 ⟨hpc, hro, mem_iff_lookup.2 ⟨v, hlook⟩⟩)
    rcases hv.attained l with hzero | ⟨t, a, hr, hlock, hwv⟩
    · rcases Set.eq_empty_or_nonempty (lockVersions S s l) with hempty | ⟨n, hn⟩
      · exact .inl ⟨hempty, hzero⟩
      · have hle := hupper hn
        -- the version of the lock is an upper bound, so the versions under it are zero
        have hn0 : n = versionOf (s.shared.locks l) := by omega
        exact .inr ⟨hn0 ▸ hn, hupper⟩
    · obtain ⟨hpc, hro, hmem⟩ := (released_iff_committed (hq t)).1 hr
      obtain ⟨v, hlook⟩ := mem_iff_lookup.1 hmem
      exact .inr ⟨⟨t, a, v, ⟨hpc, hro, hlook⟩, hlock, hwv⟩, hupper⟩

/-- Transaction 1 buffers words for the addresses 8 and 10008, which share lock 8, and stores and
publishes the second one. Transaction 2 then takes the lock and is about to store its word for
the address 8, as is transaction 1. -/
def lostUpdateRun : List (Label ℕ) :=
  [.tx 1 (.begin false), .tx 1 (.write 8 1), .tx 1 (.write 10008 1), .tx 1 .endTx] ++
  accesses ℕ 1 7 ++
  [.tx 2 (.begin false), .tx 2 (.write 8 2), .tx 2 .endTx] ++ accesses ℕ 2 3

theorem lostUpdateRun_isSome : ((machine (Setup.plain ℕ)).exec
    (fun s lab s' => decide (clockBelow (2 ^ 31) s lab s'))
    (machine (Setup.plain ℕ)).init lostUpdateRun).isSome := by decide

/-- With two addresses on one lock, an older update is stored over a newer one. -/
theorem updatesOrdered_fails :
    ¬ UpdatesOrdered (Setup.plain ℕ) (clockBelow (2 ^ 31)) := by
  intro hordered
  have hlt := hordered.order _ _ _ [] 2 1 8
    (LabelledSystem.reachable_of_exec (fun _ _ _ hcheck => of_decide_eq_true hcheck)
      lostUpdateRun_isSome)
    ⟨2, [], by decide⟩ (Option.eq_some_of_isSome (by decide)) (by decide) (.nil _)
    ⟨1, [], by decide⟩
  revert hlt
  decide

end TransactionalMemory
