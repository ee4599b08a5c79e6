import TransactionalMemory.Atomic.Clock
import TransactionalMemory.Atomic.Ownership
import TransactionalMemory.Foundations.VersionedWrites

/-!
# Lock versions and write versions

The invariant that ties the lock words and the shared words to the write versions of the
transactions, in runs that are collision-free and in which `unlock` truncates no version (`steady`):

* write versions are distinct;
* the version in a lock is the greatest write version published under it, and below the write
  version of the transaction that owns the lock;
* a shared word is the one stored by the transaction with the greatest write version among those
  that have stored it.

`Versions.move` is the preservation lemma.
-/

namespace TransactionalMemory

open VersionedWriteLock UnorderedMap Tx

variable {V : Type} {S : Setup V} {t u : Tid} {sh sh' : Shared V} {x x' : Tx V} {s s' : State V}

/-- The lock word that `unlock` puts back in a step. -/
def putBack (s : State V) : Label V → Option Word
  | .tx t _ =>
    match (s.tx t).pc with
    | .unlockStore _ _ current => some current
    | _ => none
  | .otherRegion => none

/-- The clock stays below `2 ^ 63`, and no `unlock` is made on a version that its mask truncates. -/
def versionsKept : State V → Label V → State V → Prop :=
  fun s lab s' => clockBelow (2 ^ 63) s lab s' ∧
    ∀ current ∈ putBack s lab, versionOf current < 2 ^ 31

instance (s s' : State V) (lab : Label V) : Decidable (versionsKept s lab s') :=
  @instDecidableAnd _ _ (inferInstanceAs (Decidable (clockBelow ..)))
    (Option.decidableForallMem (putBack s lab))

/-- The runs without lock collisions in which lock versions survive `unlock`. -/
def steady (S : Setup V) : State V → Label V → State V → Prop :=
  fun s lab s' => versionsKept s lab s' ∧ collisionFreeStep S s lab s'

/-- The words stored by the write-back loops so far, with the write versions of the storing
transactions. -/
def storedWrites (s : State V) : VersionedWrites Tid Addr V ℕ where
  wrote t a v := (s.tx t).Stored a ∧ (s.tx t).txn.writeSet.lookup a = some v
  version t := (s.tx t).wv.toNat

/-- Lock versions, write versions and shared words. -/
structure Versions [Zero V] (S : Setup V) (s : State V) : Prop where
  owners : Owners S s
  clocked : Clocked S s
  stamped_inj : ∀ t u, (s.tx t).Stamped → (s.tx u).Stamped →
    (s.tx t).wv.toNat = (s.tx u).wv.toNat → t = u
  /-- The version in an owned lock is older than the write version of the owner. -/
  owned_lt : ∀ t l, (s.tx t).Stamped → l ∈ (s.tx t).owned →
    versionOf (s.shared.locks l) < (s.tx t).wv.toNat
  /-- The version in a lock is at least every write version published under it. -/
  released_le : ∀ t a, (s.tx t).Released a →
    (s.tx t).wv.toNat ≤ versionOf (s.shared.locks (S.lockOf a))
  /-- A nonzero version in a lock was published there. -/
  attained : ∀ l, versionOf (s.shared.locks l) = 0 ∨
    ∃ t a, (s.tx t).Released a ∧ S.lockOf a = l ∧
      (s.tx t).wv.toNat = versionOf (s.shared.locks l)
  /-- The word loaded by `unlock` is still there when it stores. -/
  unlocking : ∀ t l todo current, (s.tx t).pc = .unlockStore l todo current →
    s.shared.locks l = current
  /-- A shared word was stored by the transaction with the greatest write version. -/
  memory : ∀ a, (storedWrites s).Latest 0 a (s.shared.mem a)

namespace Versions

variable [Zero V] (h : Versions S s) (heff : Effect S s.shared (s.tx t) sh' x')

include h heff

/-- The lock words an owner holds stay older than its write version. -/
theorem owned_lt_moved {l : LockId} (hst : x'.Stamped) (hl : l ∈ x'.owned) :
    versionOf (sh'.locks l) < x'.wv.toNat := by
  cases heff with
  | quiet _ hstamped _ howned =>
    rw [(hstamped hst).2]
    exact h.owned_lt t l (hstamped hst).1 (howned ▸ hl)
  | take _ _ _ hafter => exact absurd hst hafter
  | unlock _ _ _ _ _ hafter => exact absurd hst hafter
  | clock _ _ hwv =>
    rw [hwv, gvc_succ h.clocked.clock]
    exact Nat.lt_succ_of_le (h.clocked.version_le l)
  | store _ _ _ hpc _ _ hwv howned =>
    rw [hwv]
    exact h.owned_lt t l (by simp [Stamped, hpc]) (howned ▸ hl)
  | publish _ e _ hpc _ _ hwv howned =>
    obtain ⟨hne, hl⟩ := Finset.mem_erase.1 (howned ▸ hl)
    rw [hwv, Shared.setLock_locks_of_ne hne]
    exact h.owned_lt t l (by simp [Stamped, hpc]) hl

/-- The write version of a stamped transaction differs from those of the others. -/
theorem wv_ne_moved (hst : x'.Stamped) (hut : u ≠ t) (hu : (s.tx u).Stamped) :
    (s.tx u).wv.toNat ≠ x'.wv.toNat := by
  intro heq
  rcases heff.stamped hst with ⟨hst', hwv, -, -⟩ | ⟨hwv, -⟩
  · exact hut (h.stamped_inj u t hu hst' (by rw [heq, hwv]))
  · -- a version just drawn is greater than all others
    have hle := h.clocked.stamped_le u hu
    rw [hwv, gvc_succ h.clocked.clock] at heq
    omega

/-- Write versions stay distinct. -/
theorem stamped_inj_moved {v : Tid} (hu : ((s.moved t sh' x').tx u).Stamped)
    (hv : ((s.moved t sh' x').tx v).Stamped)
    (heq : ((s.moved t sh' x').tx u).wv.toNat = ((s.moved t sh' x').tx v).wv.toNat) :
    u = v := by
  by_cases hut : u = t <;> by_cases hvt : v = t
  · rw [hut, hvt]
  · subst hut
    simp only [State.moved_tx_self, State.moved_tx_of_ne hvt] at hu hv heq
    exact absurd heq.symm (h.wv_ne_moved heff hu hvt hv)
  · subst hvt
    simp only [State.moved_tx_self, State.moved_tx_of_ne hut] at hu hv heq
    exact absurd heq (h.wv_ne_moved heff hv hut hu)
  · simp only [State.moved_tx_of_ne hut, State.moved_tx_of_ne hvt] at hu hv heq
    exact h.stamped_inj u v hu hv heq

variable (hput : ∀ l todo current,
  (s.tx t).pc = .unlockStore l todo current → versionOf current < 2 ^ 31)

include hput

/-- What a move does to the version in a lock. -/
theorem version_effect (l : LockId) :
    versionOf (sh'.locks l) = versionOf (s.shared.locks l) ∨
    ∃ e todo, (s.tx t).pc = .publish e todo ∧ l = S.lockOf e.1 ∧
      versionOf (sh'.locks l) = (s.tx t).wv.toNat ∧ x'.Released e.1 ∧ x'.wv = (s.tx t).wv := by
  cases heff with
  | quiet | clock | store => exact .inl rfl
  | take _ k _ _ hfree =>
    by_cases hlk : l = k
    · subst hlk
      exact .inl (by rw [Shared.setLock_locks_self, versionOf_lockDesired hfree])
    · exact .inl (by rw [Shared.setLock_locks_of_ne hlk])
  | unlock _ k todo current hpc =>
    by_cases hlk : l = k
    · subst hlk
      -- the word stored is the one in the lock, and its version fits in 31 bits
      refine .inl ?_
      rw [Shared.setLock_locks_self, h.unlocking t l todo current hpc, versionOf_unlockValue]
      exact Nat.mod_eq_of_lt (hput l todo current hpc)
    · exact .inl (by rw [Shared.setLock_locks_of_ne hlk])
  | publish _ e todo hpc _ _ hwv _ _ hreleased =>
    by_cases hlk : l = S.lockOf e.1
    · refine .inr ⟨e, todo, hpc, hlk, ?_, (hreleased e.1).2 (.inr rfl), hwv⟩
      have hle := h.clocked.stamped_le t (by simp [Stamped, hpc])
      have hclock := h.clocked.clock
      rw [hlk, Shared.setLock_locks_self, versionOf_setVersion (by omega)]
    · exact .inl (by rw [Shared.setLock_locks_of_ne hlk])

/-- A publishing transaction owns the lock it writes its version to. -/
theorem version_mono (l : LockId) :
    versionOf (s.shared.locks l) ≤ versionOf (sh'.locks l) := by
  rcases h.version_effect heff hput l with heq | ⟨e, todo, hpc, rfl, heq, -, -⟩
  · rw [heq]
  · rw [heq]
    refine le_of_lt (h.owned_lt t _ (by simp [Stamped, hpc]) ?_)
    exact h.owners.owned_of_unpublished (by simp [Passed, hpc]) (by simp [unpublished, hpc])

/-- A published version is in the lock, or below the one that is. -/
theorem released_le_moved {a : Addr} (hr : x'.Released a) :
    x'.wv.toNat ≤ versionOf (sh'.locks (S.lockOf a)) := by
  -- published before, under a version that has not decreased, or by this very `setVersion`
  rcases heff.released_new hr with hr | ⟨e, todo, hpc, rfl, hwv, rfl⟩
  · rw [(heff.released_mono hr).2]
    exact (h.released_le t a hr).trans (h.version_mono heff hput _)
  · have hle := h.clocked.stamped_le t (by simp [Stamped, hpc])
    have hclock := h.clocked.clock
    rw [hwv, Shared.setLock_locks_self, versionOf_setVersion (by omega)]

/-- The version in a lock is one published there. -/
theorem attained_moved (l : LockId) : versionOf (sh'.locks l) = 0 ∨
    ∃ u a, ((s.moved t sh' x').tx u).Released a ∧ S.lockOf a = l ∧
      ((s.moved t sh' x').tx u).wv.toNat = versionOf (sh'.locks l) := by
  rcases h.version_effect heff hput l with heq | ⟨e, todo, hpc, rfl, heq, hr, hwv⟩
  · rw [heq]
    rcases h.attained l with hzero | ⟨u, a, hr, hlock, hwv⟩
    · exact .inl hzero
    · -- who published the version before the move has still published it
      have hkept : ((s.moved t sh' x').tx u).Released a ∧
          ((s.moved t sh' x').tx u).wv = (s.tx u).wv := by
        by_cases hut : u = t
        · subst hut
          simpa using heff.released_mono hr
        · simpa [hut] using hr
      exact .inr ⟨u, a, hkept.1, hlock, by rw [hkept.2, hwv]⟩
  · exact .inr ⟨t, e.1, by simpa using hr, rfl, by rw [heq, State.moved_tx_self, hwv]⟩

end Versions

/-- A word stored by another transaction is older than the write version of a transaction that
owns its lock. -/
theorem Versions.stored_lt [Zero V] (h : Versions S s) {a : Addr} (hut : u ≠ t)
    (hstored : (s.tx u).Stored a) (hstamped : (s.tx t).Stamped)
    (hown : S.lockOf a ∈ (s.tx t).owned) : (s.tx u).wv.toNat < (s.tx t).wv.toNat := by
  -- either the version has been in the lock, or the lock would have two owners
  by_cases hr : (s.tx u).Released a
  · exact (h.released_le u a hr).trans_lt (h.owned_lt t _ hstamped hown)
  · have hown' := h.owners.owned_of_stamped (.of_passed hstored.1) hstored.2.1 hr
    exact absurd (h.owners.exclusive u t _ hown' hown) hut

/-- A free lock means that every stamped transaction has published its words there. -/
theorem Versions.released_of_free [Zero V] (h : Versions S s) {a : Addr}
    (hfree : isLocked (s.shared.locks (S.lockOf a)) = false) (hstamped : (s.tx u).Stamped)
    (hmem : a ∈ (s.tx u).txn.writeSet) : (s.tx u).Released a := by
  by_contra hnot
  exact h.owners.not_owned_of_free hfree u (h.owners.owned_of_stamped hstamped hmem hnot)

/-- The word being rolled back by another transaction is not touched. -/
theorem Versions.unlocking_of_ne [Zero V] (h : Versions S s)
    (hmove : Move S t s.shared (s.tx t) sh' x') (hut : u ≠ t) {l : LockId} {todo : List LockId}
    {current : Word} (hpc : (s.tx u).pc = .unlockStore l todo current) :
    sh'.locks l = current := by
  have hown : l ∈ (s.tx u).owned := by
    have hshape := h.owners.shape u
    rw [Shape, hpc] at hshape
    exact (hshape.owned l).2 List.mem_cons_self
  have hlocked := (h.owners.locked l).2 ⟨u, hown⟩
  rw [← h.unlocking u l todo current hpc]
  cases lockEffect_of_move (h.owners.shape t) (h.owners.injective t) hmove with
  | keep hlocks => rw [hlocks]
  | take k w hfree _ hlocks =>
    have hlk : l ≠ k := by
      rintro rfl
      rw [hlocked] at hfree
      cases hfree
    rw [hlocks, Function.update_of_ne hlk]
  | clear k w hk _ hlocks =>
    have hlk : l ≠ k := by
      rintro rfl
      exact hut (h.owners.exclusive u t l hown hk)
    rw [hlocks, Function.update_of_ne hlk]

/-- The lock word to be stored by `unlock` was loaded from the lock. -/
theorem unlockStore_move (hmove : Move S t sh x sh' x') {l : LockId} {todo : List LockId}
    {current : Word} (hpc' : x'.pc = .unlockStore l todo current) : sh'.locks l = current := by
  cases hmove with
  | unlockLoad =>
    injection hpc' with hl htodo hcurrent
    rw [← hcurrent, hl]
  | write _ _ hpc => rw [hpc] at hpc'; cases hpc'
  | _ => cases hpc'

/-- A move that keeps what is stored at an address keeps the writes recorded there. -/
theorem storedWrites_moved_iff (heff : Effect S s.shared (s.tx t) sh' x') {a : Addr}
    (hstored : x'.Stored a ↔ (s.tx t).Stored a) (z : V) :
    (storedWrites (s.moved t sh' x')).wrote u a z ↔ (storedWrites s).wrote u a z := by
  by_cases hut : u = t
  · subst hut
    simp only [storedWrites, State.moved_tx_self, hstored]
    exact and_congr_right fun hs => by rw [(heff.stored_mono hs).2.2]
  · simp [storedWrites, hut]

/-- The version of a recorded write does not change. -/
theorem storedWrites_version (heff : Effect S s.shared (s.tx t) sh' x') {a : Addr} {z : V}
    (h : (storedWrites s).wrote u a z) :
    (storedWrites (s.moved t sh' x')).version u = (storedWrites s).version u := by
  by_cases hut : u = t
  · subst hut
    simp [storedWrites, (heff.stored_mono h.1).2.1]
  · simp [storedWrites, hut]

/-- The memory part of the invariant: the storing transaction has the greatest write version. -/
theorem Versions.memory_moved [Zero V] (h : Versions S s)
    (heff : Effect S s.shared (s.tx t) sh' x') (a : Addr) :
    (storedWrites (s.moved t sh' x')).Latest 0 a (sh'.mem a) := by
  -- only the store of a word at `a` matters, and it is made under the lock of `a`
  rcases heff.store_or_keep with ⟨hmem, hstored⟩ | ⟨e, todo, hpc, htxn, hwv, rfl, hstored⟩
  · rw [hmem]
    exact (h.memory a).congr (fun _ z => storedWrites_moved_iff heff (hstored a) z)
      (fun _ _ hu => storedWrites_version heff hu)
  by_cases hae : a = e.1
  · subst hae
    have hshape := h.owners.shape t
    rw [Shape, hpc] at hshape
    have hown := h.owners.owned_of_unpublished (t := t) (a := e.1) (by simp [Passed, hpc])
      (by simp [unpublished, hpc])
    rw [Shared.setWord_mem_self]
    refine .write (i := t) ⟨?_, ?_⟩ fun u z hu => ?_
    · simpa using (hstored e.1).2 (.inr rfl)
    · simpa [htxn] using hshape.entries e List.mem_cons_self
    · by_cases hut : u = t
      · rw [hut]
      · have hst : (s.tx u).Stored e.1 := by simpa [storedWrites, hut] using hu.1
        have hlt := h.stored_lt hut hst (by simp [Stamped, hpc]) hown
        simpa [storedWrites, hut, hwv] using hlt.le
  · rw [Shared.setWord_mem_of_ne hae]
    have hsame : x'.Stored a ↔ (s.tx t).Stored a := by simp [hstored a, hae]
    exact (h.memory a).congr (fun _ z => storedWrites_moved_iff heff hsame z)
      (fun _ _ hu => storedWrites_version heff hu)

/-- The invariant is kept by every move of a steady run. -/
theorem Versions.move [Zero V] (h : Versions S s) {c : Command V}
    (hmove : Move S t s.shared (s.tx t) sh' x')
    (hok : steady S s (.tx t c) (s.moved t sh' x')) : Versions S (s.moved t sh' x') := by
  obtain ⟨⟨hclock, hput⟩, hfree⟩ := hok
  have hput : ∀ l todo current, (s.tx t).pc = .unlockStore l todo current →
      versionOf current < 2 ^ 31 := fun l todo current hpc => hput current (by simp [putBack, hpc])
  have heff := effect_of_move (h.owners.shape t) hmove
  exact {
    owners := h.owners.move hmove hfree
    clocked := h.clocked.move hmove hclock
    stamped_inj := fun u v hu hv heq => h.stamped_inj_moved heff hu hv heq
    owned_lt := fun u l hst hl => by
      refine State.forall_moved
        (P := fun _ y => y.Stamped → l ∈ y.owned → versionOf (sh'.locks l) < y.wv.toNat)
        (h.owned_lt_moved heff) (fun u hut hst hl => ?_) u hst hl
      rcases h.version_effect heff hput l with heq | ⟨e, todo, hpc, rfl, -⟩
      · rw [heq]
        exact h.owned_lt u l hst hl
      · -- a lock that another transaction owns is not published to
        have hown := h.owners.owned_of_unpublished (t := t) (a := e.1) (by simp [Passed, hpc])
          (by simp [unpublished, hpc])
        exact absurd (h.owners.exclusive u t _ hl hown) hut
    released_le := fun u a hr => by
      exact State.forall_moved
        (P := fun _ y => y.Released a → y.wv.toNat ≤ versionOf (sh'.locks (S.lockOf a)))
        (h.released_le_moved heff hput)
        (fun u _ hr => (h.released_le u a hr).trans (h.version_mono heff hput _)) u hr
    attained := h.attained_moved heff hput
    unlocking := fun u l todo current hpc => by
      by_cases hut : u = t
      · subst hut
        exact unlockStore_move hmove (by simpa using hpc)
      · exact h.unlocking_of_ne hmove hut (by simpa [hut] using hpc)
    memory := h.memory_moved heff }

/-! ## Runs -/

/-- The invariant holds at first, as nothing is written. -/
theorem versions_init [Zero V] : Versions S (machine S).init := by
  have hst : ∀ t, ¬ ((machine S).init.tx t).Stamped := fun t h => by
    simp [machine, Stamped, Tx.unborn] at h
  exact {
    owners := owners_init
    clocked := clocked_init
    stamped_inj := fun t _ h => absurd h (hst t)
    owned_lt := fun t _ h => absurd h (hst t)
    released_le := fun t _ h => absurd (.of_passed h.1) (hst t)
    attained := by simp [machine]
    unlocking := by simp [machine, Tx.unborn]
    memory := fun a => .inl ⟨rfl, fun t _ h => hst t (.of_passed h.1.1)⟩ }

/-- A tick of the clock keeps the invariant. -/
theorem Versions.ticked [Zero V] (h : Versions S s) (hok : steady S s .otherRegion s.ticked) :
    Versions S s.ticked where
  owners := ⟨h.owners.shape, h.owners.injective, h.owners.exclusive, h.owners.locked⟩
  clocked := h.clocked.ticked hok.1.1
  stamped_inj := h.stamped_inj
  owned_lt := h.owned_lt
  released_le := h.released_le
  attained := h.attained
  unlocking := h.unlocking
  memory := h.memory

/-- The invariant holds in every state of a steady run. -/
theorem versions_of_reachable [Zero V] (h : (machine S).Reachable (steady S) s) :
    Versions S s := by
  apply h.invariant versions_init
  intro s lab s' _ ih hstep hok
  rcases step_cases hstep with ⟨t, c, sh', x', rfl, hmove, rfl⟩ | ⟨rfl, rfl⟩
  · exact ih.move hmove hok
  · exact ih.ticked hok

/-- In a run with the clock below `2 ^ 31` no `unlock` truncates a version, as the versions in the
locks are below the clock. -/
theorem versionsKept_of_clockBelow (h : Clocked S s) {lab : Label V}
    (hclock : s.shared.gvc.toNat < 2 ^ 31) (hok : clockBelow (2 ^ 31) s lab s') :
    versionsKept s lab s' := by
  refine ⟨lt_trans hok (by decide), fun current hput => ?_⟩
  unfold putBack at hput
  split at hput
  · split at hput
    next l todo current' hpc =>
      obtain rfl := Option.some.inj hput
      exact (h.current_le _ l todo _ hpc).trans_lt hclock
    next => cases hput
  · cases hput

end TransactionalMemory
