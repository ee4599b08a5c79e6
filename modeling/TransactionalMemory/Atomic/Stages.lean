import TransactionalMemory.Atomic.Moves

/-!
# Stages of a transaction

Predicates that read the progress of one transaction off its control point:

* `InEnd`: it is executing `tm_end`;
* `Stamped`: it has drawn its write version and has not been refused since;
* `Passed`: it has passed validation, so all its words are stored eventually;
* `Stored a` and `Released a`: it has stored its word for `a`, and published it with
  `setVersion`.

`Shape` collects what the control point says about the local variables: while the write set is
being locked and validated, a transaction owns exactly the locks in `locks_held`; while it rolls
back, exactly the locks still to be unlocked; while it writes back, at most the locks of the words
still to be published, and all of them if no two addresses of its write set share a lock
(`LockInjective`). Every move preserves `Shape` (`shape_move`).
-/

namespace TransactionalMemory

open VersionedWriteLock UnorderedMap

variable {V : Type} {S : Setup V} {t : Tid} {sh sh' : Shared V} {x x' : Tx V} {a : Addr}

namespace Tx

/-- The transaction is executing `tm_end`. -/
def InEnd (x : Tx V) : Prop :=
  match x.pc with
  | .lockLoad _ | .lockCas .. | .unlockLoad _ | .unlockStore .. | .validateLocked _
  | .validateVersion .. | .writeBack _ | .publish .. => True
  | _ => False

/-- The transaction has begun and is not finished. -/
def Open (x : Tx V) : Prop :=
  match x.pc with
  | .unborn | .aborted | .committed => False
  | _ => True

/-- `tm_end` has drawn the write version and has not refused the transaction. -/
def Stamped (x : Tx V) : Prop :=
  match x.pc with
  | .validateLocked _ | .validateVersion .. | .writeBack _ | .publish .. => True
  | .committed => x.txn.isRo = false
  | _ => False

/-- The transaction has passed the validation in `tm_end`. -/
def Passed (x : Tx V) : Prop :=
  match x.pc with
  | .writeBack _ | .publish .. => True
  | .committed => x.txn.isRo = false
  | _ => False

/-- The addresses whose words are still to be stored by the write-back loop. -/
def unstored (x : Tx V) : List Addr :=
  match x.pc with
  | .writeBack todo => keysOf todo
  | .publish _ todo => keysOf todo
  | _ => []

/-- The addresses whose words are still to be published by the write-back loop. -/
def unpublished (x : Tx V) : List Addr :=
  match x.pc with
  | .writeBack todo => keysOf todo
  | .publish e todo => e.1 :: keysOf todo
  | _ => []

/-- The write-back loop has stored the word buffered for `a`. -/
def Stored (x : Tx V) (a : Addr) : Prop := x.Passed ∧ a ∈ x.txn.writeSet ∧ a ∉ x.unstored

/-- The write-back loop has published the word buffered for `a`. -/
def Released (x : Tx V) (a : Addr) : Prop := x.Passed ∧ a ∈ x.txn.writeSet ∧ a ∉ x.unpublished

/-- No two addresses of the write set are protected by the same lock. -/
def LockInjective (S : Setup V) (x : Tx V) : Prop :=
  ∀ a ∈ x.txn.writeSet, ∀ b ∈ x.txn.writeSet, S.lockOf a = S.lockOf b → a = b

/-- Locking and validation: exactly the locks in `locks_held` are owned. They protect addresses
of the write set, all but the `pending` ones. -/
structure Locking (S : Setup V) (x : Tx V) (pending : List Addr) : Prop where
  update : x.txn.isRo = false
  owned : ∀ l, l ∈ x.owned ↔ l ∈ x.locksHeld
  covered : ∀ l ∈ x.locksHeld, ∃ a ∈ x.txn.writeSet, S.lockOf a = l
  subset : ∀ a ∈ pending, a ∈ x.txn.writeSet
  held : ∀ a ∈ x.txn.writeSet, a ∉ pending → S.lockOf a ∈ x.locksHeld

/-- Rolling back: exactly the locks still to be unlocked are owned. -/
structure Unlocking (S : Setup V) (x : Tx V) (todo : List LockId) : Prop where
  update : x.txn.isRo = false
  owned : ∀ l, l ∈ x.owned ↔ l ∈ todo
  nodup : todo.Nodup
  covered : ∀ l ∈ todo, ∃ a ∈ x.txn.writeSet, S.lockOf a = l

/-- Writing back the entries `todo`: only their locks are owned, and all of them are if the
locks of the write set are distinct. -/
structure Writing (S : Setup V) (x : Tx V) (todo : List (Addr × V)) : Prop where
  update : x.txn.isRo = false
  entries : ∀ e ∈ todo, x.txn.writeSet.lookup e.1 = some e.2
  nodup : (keysOf todo).Nodup
  covered : ∀ l ∈ x.owned, ∃ a ∈ keysOf todo, S.lockOf a = l
  owned : x.LockInjective S → ∀ a ∈ keysOf todo, S.lockOf a ∈ x.owned

/-- What the control point says about the local variables. -/
def Shape (S : Setup V) (x : Tx V) : Prop :=
  match x.pc with
  | .lockLoad todo => x.Locking S (keysOf todo)
  -- `lock` clears the lock bit of the word it expects
  | .lockCas e todo expected => x.Locking S (e.1 :: keysOf todo) ∧ isLocked expected = false
  | .validateLocked _ | .validateVersion .. => x.Locking S []
  | .unlockLoad todo => x.Unlocking S todo
  | .unlockStore l todo _ => x.Unlocking S (l :: todo)
  | .writeBack todo => x.Writing S todo
  | .publish e todo => x.Writing S (e :: todo)
  | _ => x.owned = ∅

/-- A transaction that has passed validation has its write version. -/
theorem Stamped.of_passed (h : x.Passed) : x.Stamped := by
  unfold Passed at h
  unfold Stamped
  split at h <;> simp_all

/-- What is not stored is not published. -/
theorem unstored_subset_unpublished : a ∈ x.unstored → a ∈ x.unpublished := by
  unfold unstored unpublished
  cases x.pc <;> simp +contextual

/-- What is published is stored. -/
theorem Released.stored (h : x.Released a) : x.Stored a :=
  ⟨h.1, h.2.1, fun hmem => h.2.2 (unstored_subset_unpublished hmem)⟩

/-- Giving up leaves exactly the held locks to be unlocked. -/
theorem Locking.shape_giveUp {pending : List Addr} (h : x.Locking S pending) :
    (x.giveUp S t).Shape S where
  update := h.update
  owned l := by
    rw [UnorderedSet.mem_toList]
    exact h.owned l
  nodup := UnorderedSet.nodup_toList _
  covered l hl := h.covered l ((UnorderedSet.mem_toList _).1 hl)

/-- The write-back loop starts with the locks of the whole write set owned. -/
theorem Locking.shape_startWriteBack (h : x.Locking S []) :
    (x.startWriteBack S t).Shape S where
  update := h.update
  entries e he := by
    obtain ⟨b, v⟩ := e
    exact (UnorderedMap.mem_toList _).1 he
  nodup := UnorderedMap.nodup_keysOf_toList _
  covered l hl := by
    obtain ⟨b, hb, hlock⟩ := h.covered l ((h.owned l).1 hl)
    exact ⟨b, (UnorderedMap.mem_keysOf_toList _).2 hb, hlock⟩
  owned _ b hb := by
    rw [UnorderedMap.mem_keysOf_toList] at hb
    exact (h.owned _).2 (h.held b hb List.not_mem_nil)

/-- One iteration of the locking loop that ends with the lock of `e` held. -/
theorem Locking.next {e : Addr × V} {todo : List (Addr × V)} {owned' : Finset LockId}
    (h : x.Locking S (e.1 :: keysOf todo))
    (howned : ∀ l, l ∈ owned' ↔ l = S.lockOf e.1 ∨ l ∈ x.owned) (pc' : Pc V) :
    Locking S { x with
      pc := pc', locksHeld := x.locksHeld.insert (S.lockOf e.1), owned := owned' }
      (keysOf todo) where
  update := h.update
  owned l := by
    rw [howned, UnorderedSet.mem_insert, h.owned]
  covered l hl := by
    rcases UnorderedSet.mem_insert.1 hl with rfl | hl
    · exact ⟨e.1, h.subset _ List.mem_cons_self, rfl⟩
    · exact h.covered l hl
  subset b hb := h.subset b (List.mem_cons_of_mem _ hb)
  held b hb hnot := by
    rw [UnorderedSet.mem_insert]
    by_cases hbe : b = e.1
    · exact .inl (by rw [hbe])
    · exact .inr (h.held b hb (by simp [hbe, hnot]))

/-- Publishing the first of the remaining words. -/
theorem Writing.publish {e : Addr × V} {todo : List (Addr × V)} (h : x.Writing S (e :: todo))
    (pc' : Pc V) :
    Writing S { x with pc := pc', owned := x.owned.erase (S.lockOf e.1) } todo where
  update := h.update
  entries e' he' := h.entries e' (List.mem_cons_of_mem _ he')
  nodup := (List.nodup_cons.1 h.nodup).2
  covered l hl := by
    obtain ⟨hne, hl⟩ := Finset.mem_erase.1 hl
    obtain ⟨b, hb, hlock⟩ := h.covered l hl
    rcases List.mem_cons.1 hb with rfl | hb
    · exact absurd hlock.symm hne
    · exact ⟨b, hb, hlock⟩
  -- the lock that is cleared is needed by no other address only if the addresses do not collide
  owned hinj b hb := by
    have hin : ∀ c ∈ keysOf (e :: todo), c ∈ x.txn.writeSet := by
      intro c hc
      obtain ⟨v, hv⟩ := mem_keysOf.1 hc
      exact mem_iff_lookup.2 ⟨v, h.entries _ hv⟩
    refine Finset.mem_erase.2 ⟨fun hlock => ?_, h.owned hinj b (List.mem_cons_of_mem _ hb)⟩
    have hbe : b = e.1 :=
      hinj b (hin b (List.mem_cons_of_mem _ hb)) e.1 (hin e.1 List.mem_cons_self) hlock
    exact (List.nodup_cons.1 h.nodup).1 (hbe ▸ hb)

/-- Releasing the first of the remaining locks. -/
theorem Unlocking.unlock {l : LockId} {todo : List LockId} (h : x.Unlocking S (l :: todo))
    (pc' : Pc V) : Unlocking S { x with pc := pc', owned := x.owned.erase l } todo where
  update := h.update
  owned k := by
    have hnot := (List.nodup_cons.1 h.nodup).1
    rw [Finset.mem_erase, h.owned, List.mem_cons]
    constructor
    · rintro ⟨hne, rfl | hk⟩
      · exact absurd rfl hne
      · exact hk
    · exact fun hk => ⟨fun hkl => hnot (hkl ▸ hk), .inr hk⟩
  nodup := (List.nodup_cons.1 h.nodup).2
  covered k hk := h.covered k (List.mem_cons_of_mem _ hk)

end Tx

open Tx

/-- Every move keeps the shape of the transaction. -/
theorem shape_move (h : x.Shape S) (hmove : Move S t sh x sh' x') : x'.Shape S := by
  cases hmove with
  | lockLoad e todo hpc =>
    rw [Shape, hpc] at h
    exact ⟨⟨h.update, h.owned, h.covered, h.subset, h.held⟩, isLocked_lockExpected _⟩
  | lockTake e todo expected hpc heq =>
    rw [Shape, hpc] at h
    exact h.1.next (fun l => Finset.mem_insert) _
  -- inserting a lock that is held changes neither `locks_held` nor what is owned
  | lockAgain e todo expected hpc hne hheld =>
    rw [Shape, hpc] at h
    refine h.1.next (fun l => ?_) _
    have := (h.1.owned (S.lockOf e.1)).2 hheld
    constructor
    · exact .inr
    · rintro (rfl | hl)
      · exact this
      · exact hl
  | lockFail e todo expected hpc hne hheld =>
    rw [Shape, hpc] at h
    exact h.1.shape_giveUp
  -- all locks to be unlocked were unlocked, and no others were owned
  | unlockDone hpc =>
    rw [Shape, hpc] at h
    exact Finset.eq_empty_of_forall_notMem fun l hl => List.not_mem_nil ((h.owned l).1 hl)
  | unlockLoad l todo hpc =>
    rw [Shape, hpc] at h
    exact ⟨h.update, h.owned, h.nodup, h.covered⟩
  | unlockStore l todo current hpc =>
    rw [Shape, hpc] at h
    exact h.unlock _
  | clockValidate hpc hne =>
    rw [Shape, hpc] at h
    exact ⟨h.update, h.owned, h.covered, h.subset, h.held⟩
  | clockSkip hpc heq =>
    rw [Shape, hpc] at h
    have h' : Locking S { x with wv := sh.gvc + 1 } [] :=
      ⟨h.update, h.owned, h.covered, h.subset, h.held⟩
    exact h'.shape_startWriteBack
  | validateDone hpc =>
    rw [Shape, hpc] at h
    exact h.shape_startWriteBack
  | validateFree a todo hpc hheld hfree =>
    rw [Shape, hpc] at h
    exact ⟨h.update, h.owned, h.covered, h.subset, h.held⟩
  | validateLockedFail a todo hpc hheld hlocked =>
    rw [Shape, hpc] at h
    exact h.shape_giveUp
  | validateVersionPass a todo hpc hle =>
    have h' : x.Locking S [] := by
      rcases hpc with hpc | ⟨hpc, -⟩
      · rwa [Shape, hpc] at h
      · rwa [Shape, hpc] at h
    exact ⟨h'.update, h'.owned, h'.covered, h'.subset, h'.held⟩
  | validateVersionFail a todo hpc hlt =>
    have h' : x.Locking S [] := by
      rcases hpc with hpc | ⟨hpc, -⟩
      · rwa [Shape, hpc] at h
      · rwa [Shape, hpc] at h
    exact h'.shape_giveUp
  -- whatever is owned protects a word still to be published
  | writeDone hpc =>
    rw [Shape, hpc] at h
    apply Finset.eq_empty_of_forall_notMem
    intro l hl
    obtain ⟨b, hb, -⟩ := h.covered l hl
    exact List.not_mem_nil hb
  | store e todo hpc =>
    rw [Shape, hpc] at h
    exact ⟨h.update, h.entries, h.nodup, h.covered, h.owned⟩
  | publish e todo hpc =>
    rw [Shape, hpc] at h
    exact h.publish _
  -- `locks_held` is a fresh local variable, and everything is still pending
  | callEnd hpc hro =>
    rw [Shape, hpc] at h
    have hempty : x.owned = ∅ := h
    exact {
      update := hro
      owned := fun l => by simp [hempty]
      covered := fun l hl => absurd hl UnorderedSet.not_mem_empty
      subset := fun b hb => (UnorderedMap.mem_keysOf_toList _).1 hb
      held := fun b hb hnot => absurd ((UnorderedMap.mem_keysOf_toList _).2 hb) hnot }
  -- no locks are owned outside of `tm_end`
  | begin _ hpc | callRead _ hpc | write _ _ hpc | endRo hpc | readDone hpc | readStart _ _ hpc
  | readPreFail _ _ _ hpc | readPrePass _ _ _ hpc | readCopy _ _ _ hpc
  | readPostVersion _ _ _ _ hpc | readPostFail _ _ _ _ _ hpc | readAccept _ _ _ _ _ hpc =>
    rw [Shape, hpc] at h
    first | exact h | simpa [Shape, hpc] using h

/-- A transaction that has not begun is in shape. -/
theorem shape_unborn : (Tx.unborn : Tx V).Shape S := rfl

/-- No transaction is inside `tm_end`. -/
def Quiescent (s : State V) : Prop := ∀ t, ¬ (s.tx t).InEnd

end TransactionalMemory
