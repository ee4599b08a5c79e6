import TransactionalMemory.Atomic.Stages

/-!
# Ownership of the commit locks

Who holds a lock is not recorded in the lock word: `setVersion` and `unlock` store
unconditionally. `LockOwnership` states what the commit protocol needs: at most one owner for
each lock, the lock bit kept from the acquisition to the last store below the lock, no store
without the lock, and no release of a lock that another transaction owns.

The write-back loop publishes, and so releases, the lock of a word right after storing it. A
write set with two addresses on one lock is therefore written back partly without the lock
(`lockOwnership_fails`). In runs where every transaction that passes validation has its write set
on distinct locks, `LockOwnership` holds in every state (`lockOwnership`).
-/

namespace TransactionalMemory

open VersionedWriteLock UnorderedMap

variable {V : Type} {S : Setup V} {t u : Tid} {sh sh' : Shared V} {x x' : Tx V} {s s' : State V}

/-- The transaction is executing `tm_end` and has not started to roll back. -/
def Tx.Committing (x : Tx V) : Prop :=
  match x.pc with
  | .lockLoad _ | .lockCas .. | .validateLocked _ | .validateVersion .. | .writeBack _
  | .publish .. => True
  | _ => False

/-- Ownership of the commit locks, in one state. -/
structure LockOwnership [Zero V] (S : Setup V) (s : State V) : Prop where
  /-- A lock is owned by transactions inside `tm_end` only. -/
  inEnd : ∀ t l, l ∈ (s.tx t).owned → (s.tx t).InEnd
  /-- A lock has at most one owner. -/
  exclusive : ∀ t u l, l ∈ (s.tx t).owned → l ∈ (s.tx u).owned → t = u
  /-- A committing transaction that has acquired the lock of a word of its write set owns it,
  with the lock bit set, until that word is stored. -/
  kept : ∀ t, (s.tx t).Committing → ∀ a ∈ (s.tx t).txn.writeSet,
    S.lockOf a ∈ (s.tx t).locksHeld → ¬ (s.tx t).Stored a →
      S.lockOf a ∈ (s.tx t).owned ∧ isLocked (s.shared.locks (S.lockOf a)) = true
  /-- The write-back loop stores a word only while its lock is owned. -/
  stores : ∀ t e todo, (s.tx t).pc = .writeBack (e :: todo) → S.lockOf e.1 ∈ (s.tx t).owned
  /-- No step of one transaction clears a lock bit that another one has set. -/
  foreign : ∀ t c s', (machine S).step s (.tx t c) = some s' → ∀ u, u ≠ t →
    ∀ l ∈ (s.tx u).owned, isLocked (s'.shared.locks l) = true

/-- Every transaction that has passed validation has its write set on distinct locks. -/
def CollisionFree (S : Setup V) (s : State V) : Prop :=
  ∀ t, (s.tx t).Passed → (s.tx t).LockInjective S

/-- Every step leads to a collision-free state. -/
def collisionFreeStep (S : Setup V) : State V → Label V → State V → Prop :=
  fun _ _ s' => CollisionFree S s'

/-- What a move does to the lock words and to the locks owned. -/
inductive LockEffect (sh : Shared V) (x : Tx V) (sh' : Shared V) (x' : Tx V) : Prop where
  | keep (hlocks : sh'.locks = sh.locks) (howned : x'.owned = x.owned)
  | take (l : LockId) (w : Word) (hfree : isLocked (sh.locks l) = false)
      (hset : isLocked w = true) (hlocks : sh'.locks = Function.update sh.locks l w)
      (howned : x'.owned = insert l x.owned)
  | clear (l : LockId) (w : Word) (hown : l ∈ x.owned) (hclear : isLocked w = false)
      (hlocks : sh'.locks = Function.update sh.locks l w) (howned : x'.owned = x.owned.erase l)

/-- A move keeps the lock words, takes a free lock, or clears a lock it owns. -/
theorem lockEffect_of_move (hshape : x.Shape S) (hinj : x.Passed → x.LockInjective S)
    (hmove : Move S t sh x sh' x') : LockEffect sh x sh' x' := by
  cases hmove with
  | lockTake e todo expected hpc heq =>
    rw [Tx.Shape, hpc] at hshape
    subst heq
    exact .take _ _ hshape.2 (isLocked_lockDesired hshape.2) rfl rfl
  | unlockStore l todo current hpc =>
    rw [Tx.Shape, hpc] at hshape
    exact .clear l _ ((hshape.owned l).2 List.mem_cons_self) (isLocked_unlockValue _) rfl rfl
  -- without collisions `setVersion` finds the lock still owned
  | publish e todo hpc =>
    have hpassed : x.Passed := by simp [Tx.Passed, hpc]
    rw [Tx.Shape, hpc] at hshape
    exact .clear _ _ (hshape.owned (hinj hpassed) e.1 List.mem_cons_self)
      (isLocked_setVersion _) rfl rfl
  | _ => exact .keep rfl rfl

/-- The invariant behind `LockOwnership`: a lock bit is set exactly while the lock has an owner,
and there is at most one. -/
structure Owners (S : Setup V) (s : State V) : Prop where
  shape : ∀ t, (s.tx t).Shape S
  injective : CollisionFree S s
  exclusive : ∀ t u l, l ∈ (s.tx t).owned → l ∈ (s.tx u).owned → t = u
  locked : ∀ l, isLocked (s.shared.locks l) = true ↔ ∃ t, l ∈ (s.tx t).owned

/-- The owners of a lock are `t` and the owners among the other transactions. -/
theorem exists_owner_iff (s : State V) (t : Tid) {l : LockId} :
    (∃ u, l ∈ (s.tx u).owned) ↔ l ∈ (s.tx t).owned ∨ ∃ u, u ≠ t ∧ l ∈ (s.tx u).owned := by
  constructor
  · rintro ⟨u, hu⟩
    by_cases hut : u = t
    · exact .inl (hut ▸ hu)
    · exact .inr ⟨u, hut, hu⟩
  · rintro (hl | ⟨u, -, hu⟩)
    · exact ⟨t, hl⟩
    · exact ⟨u, hu⟩

/-- After a move only the transaction that moved may own other locks. -/
theorem exists_owner_moved_iff {l : LockId} :
    (∃ u, l ∈ ((s.moved t sh' x').tx u).owned) ↔
      l ∈ x'.owned ∨ ∃ u, u ≠ t ∧ l ∈ (s.tx u).owned := by
  rw [exists_owner_iff _ t, State.moved_tx_self]
  refine or_congr_right (exists_congr fun u => and_congr_right fun hut => ?_)
  rw [State.moved_tx_of_ne hut]

section Moved

variable (h : Owners S s) (hmove : Move S t s.shared (s.tx t) sh' x')

include h

/-- A free lock has no owner. -/
theorem Owners.not_owned_of_free {l : LockId} (hl : isLocked (s.shared.locks l) = false)
    (u : Tid) : l ∉ (s.tx u).owned := by
  intro hu
  rw [(h.locked l).2 ⟨u, hu⟩] at hl
  cases hl

include hmove

/-- A transaction becomes the owner of free locks only. -/
theorem Owners.owned_moved {l : LockId} (hl : l ∈ x'.owned) :
    l ∈ (s.tx t).owned ∨ isLocked (s.shared.locks l) = false := by
  cases lockEffect_of_move (h.shape t) (h.injective t) hmove with
  | keep _ howned => exact .inl (howned ▸ hl)
  | take k w hfree _ _ howned =>
    rw [howned, Finset.mem_insert] at hl
    rcases hl with rfl | hl
    · exact .inr hfree
    · exact .inl hl
  | clear k w _ _ _ howned =>
    rw [howned] at hl
    exact .inl (Finset.mem_of_mem_erase hl)

/-- What the transaction owns after its move is owned by nobody else. -/
theorem Owners.not_owned_by_other {l : LockId} (hl : l ∈ x'.owned) (hut : u ≠ t) :
    l ∉ (s.tx u).owned := by
  intro hu
  rcases h.owned_moved hmove hl with hown | hfree
  · exact hut (h.exclusive u t l hu hown)
  · exact h.not_owned_of_free hfree u hu

/-- A lock keeps having at most one owner. -/
theorem Owners.exclusive_moved {u v : Tid} {l : LockId}
    (hu : l ∈ ((s.moved t sh' x').tx u).owned) (hv : l ∈ ((s.moved t sh' x').tx v).owned) :
    u = v := by
  by_cases hut : u = t <;> by_cases hvt : v = t
  · rw [hut, hvt]
  · subst hut
    rw [State.moved_tx_self] at hu
    rw [State.moved_tx_of_ne hvt] at hv
    exact absurd hv (h.not_owned_by_other hmove hu hvt)
  · subst hvt
    rw [State.moved_tx_self] at hv
    rw [State.moved_tx_of_ne hut] at hu
    exact absurd hu (h.not_owned_by_other hmove hv hut)
  · rw [State.moved_tx_of_ne hut] at hu
    rw [State.moved_tx_of_ne hvt] at hv
    exact h.exclusive u v l hu hv

/-- The lock bits keep telling which locks are owned. -/
theorem Owners.locked_moved (l : LockId) :
    isLocked (sh'.locks l) = true ↔ ∃ u, l ∈ ((s.moved t sh' x').tx u).owned := by
  have hlocked := h.locked l
  rw [exists_owner_iff s t] at hlocked
  rw [exists_owner_moved_iff]
  cases lockEffect_of_move (h.shape t) (h.injective t) hmove with
  | keep hlocks howned => rw [hlocks, howned, hlocked]
  | take k w hfree hset hlocks howned =>
    by_cases hlk : l = k
    · subst hlk
      simp [hlocks, howned, hset]
    · rw [hlocks, Function.update_of_ne hlk, howned, Finset.mem_insert, hlocked]
      simp [hlk]
  | clear k w hown hclear hlocks howned =>
    by_cases hlk : l = k
    · subst hlk
      -- the cleared lock was owned by `t`, hence by nobody else
      have hnot : ¬ ∃ u, u ≠ t ∧ l ∈ (s.tx u).owned := by
        rintro ⟨u, hut, hu⟩
        exact hut (h.exclusive u t l hu hown)
      simpa [hlocks, howned, hclear] using hnot
    · rw [hlocks, Function.update_of_ne hlk, howned, Finset.mem_erase, hlocked]
      simp [hlk]

/-- The ownership invariant is kept by every move of a collision-free run. -/
theorem Owners.move (hfree : CollisionFree S (s.moved t sh' x')) :
    Owners S (s.moved t sh' x') where
  shape := State.forall_moved (shape_move (h.shape t) hmove) fun u _ => h.shape u
  injective := hfree
  exclusive _ _ _ hu hv := h.exclusive_moved hmove hu hv
  locked := h.locked_moved hmove

end Moved

/-- At first nobody owns a lock. -/
theorem owners_init [Zero V] : Owners S (machine S).init where
  shape _ := shape_unborn
  injective t ht := by simp [machine, Tx.Passed, Tx.unborn] at ht
  exclusive t u l ht := by simp [machine, Tx.unborn] at ht
  locked l := by simp [machine, Tx.unborn, isLocked_zero]

/-- The ownership invariant holds in every state of a collision-free run. -/
theorem owners_of_reachable [Zero V] (h : (machine S).Reachable (collisionFreeStep S) s) :
    Owners S s := by
  apply h.invariant owners_init
  intro s lab s' _ ih hstep hfree
  rcases step_cases hstep with ⟨t, c, sh', x', -, hmove, rfl⟩ | ⟨-, rfl⟩
  · exact ih.move hmove hfree
  · exact ⟨ih.shape, ih.injective, ih.exclusive, ih.locked⟩

namespace Owners

/-- A transaction that owns a lock is inside `tm_end`. -/
theorem inEnd (h : Owners S s) {l : LockId} (hl : l ∈ (s.tx t).owned) : (s.tx t).InEnd := by
  have hshape := h.shape t
  unfold Tx.Shape at hshape
  unfold Tx.InEnd
  split at hshape <;> simp_all

/-- The words still to be published are protected by owned locks. -/
theorem owned_of_unpublished (h : Owners S s) {a : Addr} (hpassed : (s.tx t).Passed)
    (ha : a ∈ (s.tx t).unpublished) : S.lockOf a ∈ (s.tx t).owned := by
  have hshape := h.shape t
  have hinj := h.injective t hpassed
  unfold Tx.Shape at hshape
  unfold Tx.unpublished at ha
  split at ha
  next todo hpc =>
    rw [hpc] at hshape
    exact hshape.owned hinj a ha
  next e todo hpc =>
    rw [hpc] at hshape
    exact hshape.owned hinj a ha
  next => cases ha

/-- The locks of the words a stamped transaction has not stored yet are owned. -/
theorem owned_of_stamped (h : Owners S s) {a : Addr} (hstamped : (s.tx t).Stamped)
    (ha : a ∈ (s.tx t).txn.writeSet) (hnot : ¬ (s.tx t).Released a) :
    S.lockOf a ∈ (s.tx t).owned := by
  by_cases hpassed : (s.tx t).Passed
  · exact h.owned_of_unpublished hpassed (by_contra fun hun => hnot ⟨hpassed, ha, hun⟩)
  · have hshape := h.shape t
    unfold Tx.Stamped at hstamped
    unfold Tx.Passed at hpassed
    unfold Tx.Shape at hshape
    split at hstamped <;> simp_all only [not_true_eq_false]
    all_goals exact (hshape.owned _).2 (hshape.held a ha List.not_mem_nil)

end Owners

/-- In a run where every transaction that passes validation has its write set on distinct locks,
each lock is owned by at most one transaction, which keeps the lock bit until it has stored its
word, stores only under the lock, and is the only one to clear the bit. -/
theorem lockOwnership [Zero V] (h : (machine S).Reachable (collisionFreeStep S) s) :
    LockOwnership S s where
  inEnd _ _ hl := (owners_of_reachable h).inEnd hl
  exclusive := (owners_of_reachable h).exclusive
  kept t hcommitting a ha hheld hnot := by
    have howners := owners_of_reachable h
    have hown : S.lockOf a ∈ (s.tx t).owned := by
      by_cases hpassed : (s.tx t).Passed
      · exact howners.owned_of_unpublished hpassed
          (Tx.unstored_subset_unpublished (by_contra fun hun => hnot ⟨hpassed, ha, hun⟩))
      · have hshape := howners.shape t
        unfold Tx.Committing at hcommitting
        unfold Tx.Passed at hpassed
        unfold Tx.Shape at hshape
        split at hcommitting <;> simp_all only [not_true_eq_false]
        · exact (hshape.owned _).2 hheld
        · exact (hshape.1.owned _).2 hheld
        · exact (hshape.owned _).2 hheld
        · exact (hshape.owned _).2 hheld
    exact ⟨hown, (howners.locked _).2 ⟨t, hown⟩⟩
  stores t e todo hpc := by
    refine (owners_of_reachable h).owned_of_unpublished ?_ ?_
    · simp [Tx.Passed, hpc]
    · simp [Tx.unpublished, hpc]
  foreign t c s' hstep u hut l hl := by
    have howners := owners_of_reachable h
    have hset : isLocked (s.shared.locks l) = true := (howners.locked l).2 ⟨u, hl⟩
    rcases step_cases hstep with ⟨t', c', sh', x', hlab, hmove, rfl⟩ | ⟨hlab, -⟩
    · obtain ⟨rfl, rfl⟩ : t = t' ∧ c = c' := by simpa using hlab
      cases lockEffect_of_move (howners.shape t) (howners.injective t) hmove with
      | keep hlocks _ => simpa [hlocks] using hset
      -- a lock bit that is set anew does not clear any other
      | take k w hfree hw hlocks _ =>
        by_cases hlk : l = k
        · simp [hlocks, hlk, hw]
        · simpa [hlocks, hlk] using hset
      | clear k w hown _ hlocks _ =>
        -- `t` clears a lock it owns, which is not the one that `u` owns
        have hlk : l ≠ k := by
          rintro rfl
          exact hut (howners.exclusive u t l hl hown)
        simpa [hlocks, hlk] using hset
    · cases hlab

/-- `n` atomic accesses of one transaction. -/
def accesses (V : Type) (t : Tid) (n : ℕ) : List (Label V) := List.replicate n (.tx t .step)

/-- With a lock for each address there are no collisions. -/
theorem collisionFree_direct (s : State V) : CollisionFree (Setup.direct V) s :=
  fun _ _ _ _ _ _ hlock => hlock

/-- Transaction 1 buffers words for the addresses 8 and 10008 and is run until it is about to
store the first of them. -/
def committingRun : List (Label ℕ) :=
  [.tx 1 (.begin false), .tx 1 (.write 8 1), .tx 1 (.write 10008 1), .tx 1 .endTx] ++
  accesses ℕ 1 5

theorem committingRun_isSome : ((machine (Setup.direct ℕ)).exec (fun _ _ _ => true)
    (machine (Setup.direct ℕ)).init committingRun).isSome := by decide

theorem lockOwnership_committing : LockOwnership (Setup.direct ℕ)
    (((machine (Setup.direct ℕ)).exec (fun _ _ _ => true)
      (machine (Setup.direct ℕ)).init committingRun).get committingRun_isSome) :=
  lockOwnership (LabelledSystem.reachable_of_exec (fun _ _ s' _ => collisionFree_direct s')
    committingRun_isSome)

/-- Transaction 1 buffers words for the addresses 8 and 10008, which share lock 8, and is run
until it has stored the first of them and released the lock. Transaction 2 then takes the lock,
and transaction 1 stores its second word. -/
def collidingRun : List (Label ℕ) :=
  [.tx 1 (.begin false), .tx 1 (.write 8 1), .tx 1 (.write 10008 1), .tx 1 .endTx] ++
  accesses ℕ 1 7 ++
  [.tx 2 (.begin false), .tx 2 (.write 8 2), .tx 2 .endTx] ++ accesses ℕ 2 2 ++ accesses ℕ 1 1

/-- The run is possible. -/
theorem collidingRun_isSome : ((machine (Setup.plain ℕ)).exec (fun _ _ _ => true)
    (machine (Setup.plain ℕ)).init collidingRun).isSome := by decide

/-- With two addresses on one lock, a transaction stores without the lock and its next
`setVersion` clears the lock bit of another transaction. -/
theorem lockOwnership_fails :
    ¬ ∀ s, (machine (Setup.plain ℕ)).Reachable LabelledSystem.always s →
      LockOwnership (Setup.plain ℕ) s := by
  intro hall
  have hown := hall _
    (LabelledSystem.reachable_of_exec (fun _ _ _ _ => trivial) collidingRun_isSome)
  have hclear := hown.foreign 1 .step _ (Option.eq_some_of_isSome (by decide)) 2 (by decide) 8
    (by decide)
  revert hclear
  decide

end TransactionalMemory
