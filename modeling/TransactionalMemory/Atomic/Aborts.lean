import TransactionalMemory.Atomic.Clock

/-!
# Every abort has a culprit

Two facts about all runs that keep the clock below `2 ^ 63`, with or without lock collisions:

* no lock is leaked: while a lock bit is set, some transaction inside `tm_end` still has a store to
  come that clears it (`willClear_of_locked`);
* a transaction is refused only because of another one that was inside `tm_end` in the meantime,
  with an address of its write set on the lock of a word the refused one accessed
  (`met_of_aborted`).

For the second, `Met as t l` says that the run with the labels `as` passes through a state in which
`t` is open while another transaction is inside `tm_end` with lock `l` in its footprint. A lock
word only changes, and its version only gets above the read version of `t`, through such a
transaction; `Justified` carries this along a run.
-/

namespace TransactionalMemory

open VersionedWriteLock UnorderedMap Tx

variable {V : Type} {S : Setup V} {t u : Tid} {sh sh' : Shared V} {x x' : Tx V} {s : State V}
  {a : Addr} {l : LockId}

namespace Tx

/-- The lock `l` protects an address of the write set. -/
def Covers (S : Setup V) (x : Tx V) (l : LockId) : Prop := ∃ a ∈ x.txn.writeSet, S.lockOf a = l

/-- A store that clears the lock bit of `l` is still to come. -/
def WillClear (S : Setup V) (x : Tx V) (l : LockId) : Prop :=
  match x.pc with
  | .lockLoad _ | .lockCas .. | .validateLocked _ | .validateVersion .. => l ∈ x.locksHeld
  | .unlockLoad todo => l ∈ todo
  | .unlockStore k todo _ => l = k ∨ l ∈ todo
  | .writeBack todo => ∃ a ∈ keysOf todo, S.lockOf a = l
  | .publish e todo => ∃ a ∈ e.1 :: keysOf todo, S.lockOf a = l
  | _ => False

/-- The transaction is in the middle of a call, or between two, and not on its way out. -/
def Undecided (x : Tx V) : Prop :=
  match x.pc with
  | .unborn | .aborted | .committed | .unlockLoad _ | .unlockStore .. | .writeBack _
  | .publish .. => False
  | _ => True

/-- `tm_read` or `tm_end` has refused the transaction, or is about to. -/
def Refused (x : Tx V) : Prop :=
  match x.pc with
  | .aborted | .unlockLoad _ | .unlockStore .. => True
  | _ => False

/-- The addresses a transaction works on are among those it accessed. -/
def Accounted (x : Tx V) : Prop :=
  (∀ a ∈ x.txn.readSet, a ∈ x.accessed) ∧ (∀ a ∈ x.txn.writeSet, a ∈ x.accessed) ∧
    match x.pc with
    | .readPreLocked a .. | .readCopy a .. | .readPostVersion a .. | .readPostLocked a .. =>
      a ∈ x.accessed
    | .validateLocked todo => ∀ a ∈ todo, a ∈ x.accessed
    | .validateVersion a todo => ∀ b ∈ a :: todo, b ∈ x.accessed
    | _ => True

/-- An undecided transaction is open. -/
theorem Undecided.open (h : x.Undecided) : x.Open := by
  unfold Undecided at h
  unfold Open
  cases hpc : x.pc <;> simp_all

/-- The locks of the words still to be written are covered. -/
theorem Writing.covers {todo : List (Addr × V)} (h : x.Writing S todo) (ha : a ∈ keysOf todo) :
    x.Covers S (S.lockOf a) := by
  obtain ⟨v, hv⟩ := mem_keysOf.1 ha
  exact ⟨a, mem_iff_lookup.2 ⟨v, h.entries _ hv⟩, rfl⟩

/-- Only a transaction inside `tm_end` has locks to clear. -/
theorem WillClear.inEnd (h : x.WillClear S l) : x.InEnd := by
  unfold WillClear at h
  unfold InEnd
  cases hpc : x.pc <;> simp_all

/-- A lock to be cleared protects an address of the write set. -/
theorem WillClear.covers (hshape : x.Shape S) (h : x.WillClear S l) : x.Covers S l := by
  unfold WillClear at h
  unfold Shape at hshape
  split at h
  case h_1 hpc =>
    rw [hpc] at hshape
    exact hshape.covered l h
  case h_2 hpc =>
    rw [hpc] at hshape
    exact hshape.1.covered l h
  case h_3 hpc | h_4 hpc =>
    rw [hpc] at hshape
    exact hshape.covered l h
  case h_5 hpc =>
    rw [hpc] at hshape
    exact hshape.covered l h
  case h_6 hpc =>
    rw [hpc] at hshape
    exact hshape.covered l (List.mem_cons.2 h)
  case h_7 todo hpc =>
    rw [hpc] at hshape
    obtain ⟨b, hb, rfl⟩ := h
    exact hshape.covers hb
  case h_8 e todo hpc =>
    rw [hpc] at hshape
    obtain ⟨b, hb, rfl⟩ := h
    exact hshape.covers hb
  case h_9 => exact h.elim

/-- A transaction that gives up clears the locks it holds. -/
theorem willClear_giveUp : (x.giveUp S t).WillClear S l ↔ l ∈ x.locksHeld := by
  show l ∈ x.locksHeld.toList (S.heldOrder t) ↔ l ∈ x.locksHeld
  exact UnorderedSet.mem_toList _

/-- At the start of the write-back loop every held lock has a store to come. -/
theorem Locking.willClear_startWriteBack {pending : List Addr} (h : x.Locking S pending)
    (hl : l ∈ x.locksHeld) : (x.startWriteBack S t).WillClear S l := by
  obtain ⟨b, hb, hlock⟩ := h.covered l hl
  show ∃ b ∈ keysOf (x.txn.writeSet.toList (S.writeOrder t)), S.lockOf b = l
  exact ⟨b, (UnorderedMap.mem_keysOf_toList _).2 hb, hlock⟩

end Tx

/-! ## No lock is leaked -/

/-- A move performs a clearing store or leaves it to come. -/
theorem willClear_move (hshape : x.Shape S) (hmove : Move S t sh x sh' x')
    (h : x.WillClear S l) : x'.WillClear S l ∨ isLocked (sh'.locks l) = false := by
  unfold WillClear at h
  cases hmove with
  | lockLoad e todo hpc =>
    rw [hpc] at h
    exact .inl h
  | lockTake e todo expected hpc | lockAgain e todo expected hpc =>
    rw [hpc] at h
    exact .inl (UnorderedSet.mem_insert.2 (.inr h))
  | lockFail e todo expected hpc =>
    rw [hpc] at h
    exact .inl (willClear_giveUp.2 h)
  | unlockDone hpc =>
    rw [hpc] at h
    exact absurd h List.not_mem_nil
  | unlockLoad k todo hpc =>
    rw [hpc] at h
    exact .inl (List.mem_cons.1 h)
  | unlockStore k todo current hpc =>
    rw [hpc] at h
    rcases h with rfl | h
    · exact .inr (by rw [Shared.setLock_locks_self, isLocked_unlockValue])
    · exact .inl h
  | clockValidate hpc hne =>
    rw [hpc] at h
    exact .inl h
  | clockSkip hpc heq =>
    rw [hpc] at h
    rw [Shape, hpc] at hshape
    exact .inl (hshape.willClear_startWriteBack h)
  | validateDone hpc =>
    rw [hpc] at h
    rw [Shape, hpc] at hshape
    exact .inl (hshape.willClear_startWriteBack h)
  | validateFree b todo hpc =>
    rw [hpc] at h
    exact .inl h
  | validateLockedFail b todo hpc =>
    rw [hpc] at h
    exact .inl (willClear_giveUp.2 h)
  | validateVersionPass b todo hpc =>
    rcases hpc with hpc | ⟨hpc, -⟩ <;> rw [hpc] at h <;> exact .inl h
  | validateVersionFail b todo hpc =>
    rcases hpc with hpc | ⟨hpc, -⟩ <;> rw [hpc] at h <;> exact .inl (willClear_giveUp.2 h)
  | writeDone hpc =>
    rw [hpc] at h
    obtain ⟨b, hb, -⟩ := h
    exact absurd hb List.not_mem_nil
  | store e todo hpc =>
    rw [hpc] at h
    exact .inl h
  | publish e todo hpc =>
    rw [hpc] at h
    obtain ⟨b, hb, rfl⟩ := h
    -- colliding words share the lock, and `setVersion` clears its bit for all of them
    by_cases hlock : S.lockOf b = S.lockOf e.1
    · exact .inr (by rw [hlock, Shared.setLock_locks_self, isLocked_setVersion])
    · rcases List.mem_cons.1 hb with rfl | hb
      · exact absurd rfl hlock
      · exact .inl ⟨b, hb, rfl⟩
  | begin _ hpc | callRead _ hpc | write _ _ hpc | endRo hpc | callEnd hpc | readDone hpc
  | readStart _ _ hpc | readPreFail _ _ _ hpc | readPrePass _ _ _ hpc | readCopy _ _ _ hpc
  | readPostVersion _ _ _ _ hpc | readPostFail _ _ _ _ _ hpc | readAccept _ _ _ _ _ hpc =>
    rw [hpc] at h
    exact h.elim

/-- A move that sets a lock bit has the clearing store still to come. -/
theorem locked_move (hmove : Move S t sh x sh' x') (h : isLocked (sh'.locks l) = true) :
    isLocked (sh.locks l) = true ∨ x'.WillClear S l := by
  cases hmove with
  | lockTake e todo expected hpc heq =>
    by_cases hl : l = S.lockOf e.1
    · exact .inr (UnorderedSet.mem_insert.2 (.inl hl))
    · rw [Shared.setLock_locks_of_ne hl] at h
      exact .inl h
  | unlockStore k todo current hpc =>
    by_cases hl : l = k
    · rw [hl, Shared.setLock_locks_self, isLocked_unlockValue] at h
      cases h
    · rw [Shared.setLock_locks_of_ne hl] at h
      exact .inl h
  | publish e todo hpc =>
    by_cases hl : l = S.lockOf e.1
    · rw [hl, Shared.setLock_locks_self, isLocked_setVersion] at h
      cases h
    · rw [Shared.setLock_locks_of_ne hl] at h
      exact .inl h
  | _ => exact .inl h

/-- While a lock bit is set, the store that clears it is still to come. -/
theorem willClear_of_locked [Zero V] (h : (machine S).Reachable (clockBelow (2 ^ 63)) s)
    (hl : isLocked (s.shared.locks l) = true) : ∃ t, (s.tx t).WillClear S l := by
  refine h.invariant (I := fun s => ∀ l, isLocked (s.shared.locks l) = true →
    ∃ t, (s.tx t).WillClear S l) (fun l hl => ?_) (fun s lab s' hreach ih hstep _ l hl => ?_) l hl
  · simp [machine] at hl
  rcases step_cases hstep with ⟨t, c, sh', x', -, hmove, rfl⟩ | ⟨-, rfl⟩
  · rcases locked_move hmove hl with hold | hnew
    · obtain ⟨u, hu⟩ := ih l hold
      by_cases hut : u = t
      · subst hut
        rcases willClear_move ((clocked_of_reachable hreach).shape u) hmove hu with hu' | hfree
        · exact ⟨u, by rwa [State.moved_tx_self]⟩
        · rw [State.moved_shared, hfree] at hl
          cases hl
      · exact ⟨u, by rwa [State.moved_tx_of_ne hut]⟩
    · exact ⟨t, by rwa [State.moved_tx_self]⟩
  · exact ih l hl

/-! ## What a transaction can blame -/

/-- In the course of the run `as`, while `t` was open, another transaction was inside `tm_end`
with the lock `l` in its footprint. -/
def Met [Zero V] (S : Setup V) (as : List (Label V)) (t : Tid) (l : LockId) : Prop :=
  ∃ bs s u, bs <+: as ∧ (machine S).Run (clockBelow (2 ^ 63)) (machine S).init bs s ∧
    (s.tx t).Open ∧ u ≠ t ∧ (s.tx u).InEnd ∧ (s.tx u).Covers S l

/-- A meeting is not undone by a further step. -/
theorem Met.concat [Zero V] {as : List (Label V)} (h : Met S as t l) (lab : Label V) :
    Met S (as ++ [lab]) t l := by
  obtain ⟨bs, s, u, hpre, hrest⟩ := h
  exact ⟨bs, s, u, hpre.trans (List.prefix_append as [lab]), hrest⟩

/-- The versions and lock words a transaction has loaded are current, or there is someone to
blame. -/
def Loaded [Zero V] (S : Setup V) (as : List (Label V)) (t : Tid) (sh : Shared V) (x : Tx V) :
    Prop :=
  match x.pc with
  | .readPreLocked a _ version | .readCopy a _ version | .readPostVersion a _ version _ =>
    Met S as t (S.lockOf a) ∨
      version.toNat ≤ x.txn.rv.toNat ∧ getVersion (sh.locks (S.lockOf a)) = version
  | .readPostLocked a _ version _ newVersion =>
    Met S as t (S.lockOf a) ∨ version.toNat ≤ x.txn.rv.toNat ∧ newVersion = version
  | .lockCas e _ expected =>
    Met S as t (S.lockOf e.1) ∨ S.lockOf e.1 ∈ x.locksHeld ∨ sh.locks (S.lockOf e.1) = expected
  | _ => True

/-- The invariant of runs behind `met_of_aborted`. -/
structure Justified [Zero V] (S : Setup V) (as : List (Label V)) (s : State V) : Prop where
  accounted : ∀ t, (s.tx t).Accounted
  loaded : ∀ t, Loaded S as t s.shared (s.tx t)
  /-- A lock with a version above the read version was released by someone to blame. -/
  version : ∀ t l, (s.tx t).Undecided →
    Met S as t l ∨ versionOf (s.shared.locks l) ≤ (s.tx t).txn.rv.toNat
  refused : ∀ t, (s.tx t).Refused → ∃ a ∈ (s.tx t).accessed, Met S as t (S.lockOf a)

/-! ## Steps of the other transactions -/

/-- A lock word is changed only by a transaction inside `tm_end` that has it in its footprint. -/
theorem locks_changed (hshape : x.Shape S) (hmove : Move S t sh x sh' x') (l : LockId) :
    sh'.locks l = sh.locks l ∨ x.InEnd ∧ x.Covers S l := by
  cases hmove with
  | lockTake e todo expected hpc heq =>
    by_cases hl : l = S.lockOf e.1
    · rw [Shape, hpc] at hshape
      exact .inr ⟨by simp [InEnd, hpc], e.1, hshape.1.subset _ List.mem_cons_self, hl.symm⟩
    · exact .inl (Shared.setLock_locks_of_ne hl _)
  | unlockStore k todo current hpc =>
    by_cases hl : l = k
    · rw [Shape, hpc] at hshape
      exact .inr ⟨by simp [InEnd, hpc], hl ▸ hshape.covered k List.mem_cons_self⟩
    · exact .inl (Shared.setLock_locks_of_ne hl _)
  | publish e todo hpc =>
    by_cases hl : l = S.lockOf e.1
    · rw [Shape, hpc] at hshape
      exact .inr ⟨by simp [InEnd, hpc], hl ▸ hshape.covers List.mem_cons_self⟩
    · exact .inl (Shared.setLock_locks_of_ne hl _)
  | _ => exact .inl rfl

section Moved

variable [Zero V] {as : List (Label V)}
  (hrun : (machine S).Run (clockBelow (2 ^ 63)) (machine S).init as s)

include hrun

/-- A transaction inside `tm_end` is someone to blame for the open ones. -/
theorem Met.now (hopen : (s.tx t).Open) (hut : u ≠ t) (hend : (s.tx u).InEnd)
    (hcovers : (s.tx u).Covers S l) : Met S as t l :=
  ⟨as, s, u, List.prefix_rfl, hrun, hopen, hut, hend, hcovers⟩

/-- For a set lock bit that is not one's own there is someone to blame. -/
theorem Met.of_locked (hopen : (s.tx t).Open) (hl : isLocked (s.shared.locks l) = true)
    (hnot : ¬ (s.tx t).WillClear S l) : Met S as t l := by
  have hreach : (machine S).Reachable (clockBelow (2 ^ 63)) s := ⟨as, hrun⟩
  obtain ⟨u, hu⟩ := willClear_of_locked hreach hl
  have hut : u ≠ t := by
    rintro rfl
    exact hnot hu
  exact .now hrun hopen hut hu.inEnd (hu.covers ((clocked_of_reachable hreach).shape u))

/-- A lock word changed by another transaction. -/
theorem met_or_unchanged (hmove : Move S u s.shared (s.tx u) sh' x') (hut : u ≠ t)
    (hopen : (s.tx t).Open) (l : LockId) : Met S as t l ∨ sh'.locks l = s.shared.locks l := by
  have hshape := (clocked_of_reachable ⟨as, hrun⟩).shape u
  rcases locks_changed hshape hmove l with hsame | ⟨hend, hcovers⟩
  · exact .inr hsame
  · exact .inl (.now hrun hopen hut hend hcovers)

/-- What a transaction has loaded, after a step of another one. -/
theorem Loaded.other (hmove : Move S u s.shared (s.tx u) sh' x') (hut : u ≠ t)
    (h : Loaded S as t s.shared (s.tx t)) : Loaded S as t sh' (s.tx t) := by
  have hchanged : (s.tx t).Open → ∀ l, Met S as t l ∨ sh'.locks l = s.shared.locks l :=
    fun hopen l => met_or_unchanged hrun hmove hut hopen l
  unfold Loaded at h ⊢
  split
  case h_1 b todo version hpc | h_2 b todo version hpc | h_3 b todo version val hpc =>
    rw [hpc] at h
    rcases h with hmet | h
    · exact .inl hmet
    · rcases hchanged (by simp [Open, hpc]) (S.lockOf b) with hmet | hsame
      · exact .inl hmet
      · exact .inr ⟨h.1, by rw [hsame]; exact h.2⟩
  case h_4 hpc =>
    rw [hpc] at h
    exact h
  case h_5 e todo expected hpc =>
    rw [hpc] at h
    -- the word that `lock` expects is only out of date if someone else changed it
    rcases h with hmet | hheld | heq
    · exact .inl hmet
    · exact .inr (.inl hheld)
    · rcases hchanged (by simp [Open, hpc]) (S.lockOf e.1) with hmet | hsame
      · exact .inl hmet
      · exact .inr (.inr (by rw [hsame]; exact heq))
  case h_6 => trivial

end Moved

/-! ## The transaction's own steps -/

/-- A transaction that stays undecided has either just begun or leaves the lock versions alone. -/
theorem undecided_move (hshape : x.Shape S) (hmove : Move S t sh x sh' x') (h : x'.Undecided) :
    (x'.txn.rv = sh.gvc ∧ sh' = sh) ∨
    (x.Undecided ∧ x'.txn.rv = x.txn.rv ∧
      ∀ l, versionOf (sh'.locks l) = versionOf (sh.locks l)) := by
  cases hmove with
  | begin isRo hpc => exact .inl ⟨rfl, rfl⟩
  | lockTake e todo expected hpc heq =>
    refine .inr ⟨by simp [Undecided, hpc], rfl, fun l => ?_⟩
    rw [Shape, hpc] at hshape
    by_cases hl : l = S.lockOf e.1
    · rw [hl, Shared.setLock_locks_self, versionOf_lockDesired hshape.2, heq]
    · rw [Shared.setLock_locks_of_ne hl]
  | write a val hpc => exact .inr ⟨by simp [Undecided, hpc], rfl, fun _ => rfl⟩
  | validateVersionPass b todo hpc =>
    refine .inr ⟨?_, rfl, fun _ => rfl⟩
    rcases hpc with hpc | ⟨hpc, -⟩ <;> simp [Undecided, hpc]
  | endRo hpc | unlockStore _ _ _ hpc | publish _ _ hpc | readPreFail _ _ _ hpc
  | readPostFail _ _ _ _ _ hpc | lockFail _ _ _ hpc | unlockDone hpc | unlockLoad _ _ hpc
  | clockSkip hpc | validateDone hpc | validateLockedFail _ _ hpc | validateVersionFail _ _ hpc
  | writeDone hpc | store _ _ hpc => exact h.elim
  | callRead _ hpc | callEnd hpc | readDone hpc | readStart _ _ hpc | readPrePass _ _ _ hpc
  | readCopy _ _ _ hpc | readPostVersion _ _ _ _ hpc | readAccept _ _ _ _ _ hpc
  | lockLoad _ _ hpc | lockAgain _ _ _ hpc | clockValidate hpc | validateFree _ _ hpc =>
    exact .inr ⟨by simp [Undecided, hpc], rfl, fun _ => rfl⟩

/-- Every move records the addresses it starts to work on. -/
theorem accounted_move (h : x.Accounted) (hmove : Move S t sh x sh' x') :
    x'.Accounted ∧ ∀ a ∈ x.accessed, a ∈ x'.accessed := by
  obtain ⟨hread, hwrite, hpc'⟩ := h
  cases hmove with
  | begin isRo hpc =>
    exact ⟨⟨fun a ha => absurd ha UnorderedSet.not_mem_empty,
      fun a ha => absurd ha (AList.notMem_empty a), trivial⟩, fun _ ha => ha⟩
  | write a val hpc =>
    refine ⟨⟨fun b hb => List.mem_cons_of_mem _ (hread b hb), fun b hb => ?_, ?_⟩,
      fun _ hb => List.mem_cons_of_mem _ hb⟩
    · rcases (AList.mem_insert _).1 hb with rfl | hb
      · exact List.mem_cons_self
      · exact List.mem_cons_of_mem _ (hwrite b hb)
    · simp [hpc]
  | readStart a todo hpc =>
    exact ⟨⟨fun b hb => List.mem_cons_of_mem _ (hread b hb),
      fun b hb => List.mem_cons_of_mem _ (hwrite b hb), List.mem_cons_self⟩,
      fun _ hb => List.mem_cons_of_mem _ hb⟩
  | readPrePass a todo version hpc | readCopy a todo version hpc
  | readPostVersion a todo version val hpc =>
    rw [hpc] at hpc'
    exact ⟨⟨hread, hwrite, hpc'⟩, fun _ hb => hb⟩
  | readAccept a todo version val newVersion hpc =>
    rw [hpc] at hpc'
    refine ⟨⟨fun b hb => ?_, hwrite, trivial⟩, fun _ hb => hb⟩
    simp only [acceptWord, Transaction.recordRead] at hb
    split at hb
    next => exact hread b hb
    next =>
      rcases UnorderedSet.mem_insert.1 hb with rfl | hb
      · exact hpc'
      · exact hread b hb
  | clockValidate hpc hne =>
    exact ⟨⟨hread, hwrite, fun b hb => hread b ((UnorderedSet.mem_toList _).1 hb)⟩,
      fun _ hb => hb⟩
  | validateFree a todo hpc =>
    rw [hpc] at hpc'
    exact ⟨⟨hread, hwrite, hpc'⟩, fun _ hb => hb⟩
  | validateVersionPass a todo hpc =>
    refine ⟨⟨hread, hwrite, fun b hb => ?_⟩, fun _ hb => hb⟩
    rcases hpc with hpc | ⟨hpc, -⟩ <;> rw [hpc] at hpc' <;>
      exact hpc' b (List.mem_cons_of_mem _ hb)
  | _ => exact ⟨⟨hread, hwrite, trivial⟩, fun _ hb => hb⟩

section Self

variable [Zero V] {as : List (Label V)}
  (hrun : (machine S).Run (clockBelow (2 ^ 63)) (machine S).init as s) (h : Justified S as s)
  (hmove : Move S t s.shared (s.tx t) sh' x')

include hrun h hmove

/-- A version loaded by `tm_read` is justified. -/
theorem Justified.loaded_self : Loaded S as t sh' x' := by
  have hloaded := h.loaded t
  cases hmove with
  | readStart a todo hpc =>
    -- the version that is loaded is the one in the lock
    rcases h.version t (S.lockOf a) (by simp [Undecided, hpc]) with hmet | hle
    · exact .inl hmet
    · exact .inr ⟨hle, rfl⟩
  | readPrePass a todo version hpc | readCopy a todo version hpc =>
    rw [Loaded, hpc] at hloaded
    exact hloaded
  | readPostVersion a todo version val hpc =>
    rw [Loaded, hpc] at hloaded
    exact hloaded
  | lockLoad e todo hpc =>
    -- if the lock is taken, it is by the transaction itself or by another one
    cases hl : isLocked (s.shared.locks (S.lockOf e.1)) with
    | false => exact .inr (.inr ((lockExpected_eq_self_iff _).2 hl).symm)
    | true =>
      by_cases hheld : S.lockOf e.1 ∈ (s.tx t).locksHeld
      · exact .inr (.inl hheld)
      · refine .inl (.of_locked hrun (by simp [Open, hpc]) hl ?_)
        rwa [WillClear, hpc]
  | write a val hpc => simp only [Loaded, hpc]
  | _ => trivial

/-- A version that refuses a transaction comes from another one that it has met. -/
theorem Justified.version_self (hund : x'.Undecided) (l : LockId) :
    Met S as t l ∨ versionOf (sh'.locks l) ≤ x'.txn.rv.toNat := by
  have hclocked := clocked_of_reachable ⟨as, hrun⟩
  rcases undecided_move (hclocked.shape t) hmove hund with ⟨hrv, rfl⟩ | ⟨hold, hrv, hversion⟩
  · rw [hrv]
    exact .inr (hclocked.version_le l)
  · rw [hrv, hversion]
    exact h.version t l hold

/-- A refusal comes from another transaction that it has met. -/
theorem Justified.refused_self (href : x'.Refused) :
    ∃ a ∈ x'.accessed, Met S as t (S.lockOf a) := by
  obtain ⟨hread, hwrite, hacc⟩ := h.accounted t
  have hloaded := h.loaded t
  have hshape := (clocked_of_reachable ⟨as, hrun⟩).shape t
  cases hmove with
  | readPreFail a todo version hpc hfail =>
    rw [hpc] at hacc
    rw [Loaded, hpc] at hloaded
    refine ⟨a, hacc, ?_⟩
    rcases hfail with hl | hlt
    · exact .of_locked hrun (by simp [Open, hpc]) hl (by simp [WillClear, hpc])
    · rcases hloaded with hmet | ⟨hle, -⟩
      · exact hmet
      · exact absurd hle (Nat.not_le_of_lt hlt)
  | readPostFail a todo version val newVersion hpc hfail =>
    rw [hpc] at hacc
    rw [Loaded, hpc] at hloaded
    refine ⟨a, hacc, ?_⟩
    -- a lock bit that is not its own, or a version that has changed between the loads
    rcases hfail with hl | hfail
    · exact .of_locked hrun (by simp [Open, hpc]) hl (by simp [WillClear, hpc])
    · rcases hloaded with hmet | ⟨hle, heq⟩
      · exact hmet
      · rcases hfail with hne | ⟨-, hlt⟩
        · exact absurd heq hne
        · rw [heq] at hlt
          exact absurd hle (Nat.not_le_of_lt hlt)
  | lockFail e todo expected hpc hne hheld =>
    rw [Loaded, hpc] at hloaded
    rw [Shape, hpc] at hshape
    refine ⟨e.1, hwrite _ (hshape.1.subset _ List.mem_cons_self), ?_⟩
    rcases hloaded with hmet | hheld' | heq
    · exact hmet
    · exact absurd hheld' hheld
    · exact absurd heq hne
  | validateLockedFail a todo hpc hheld hl =>
    rw [hpc] at hacc
    refine ⟨a, hacc a List.mem_cons_self, .of_locked hrun (by simp [Open, hpc]) hl ?_⟩
    rwa [WillClear, hpc]
  | validateVersionFail a todo hpc hlt =>
    have hmem : a ∈ (s.tx t).accessed := by
      rcases hpc with hpc | ⟨hpc, -⟩ <;> rw [hpc] at hacc <;> exact hacc a List.mem_cons_self
    have hund : (s.tx t).Undecided := by
      rcases hpc with hpc | ⟨hpc, -⟩ <;> simp [Undecided, hpc]
    refine ⟨a, hmem, ?_⟩
    -- a version above the read version was stored by another transaction
    rcases h.version t (S.lockOf a) hund with hmet | hle
    · exact hmet
    · exact absurd hle (Nat.not_le_of_lt hlt)
  | unlockDone hpc | unlockLoad _ _ hpc | unlockStore _ _ _ hpc =>
    exact h.refused t (by simp [Refused, hpc])
  | write a val hpc => simp [Refused, hpc] at href
  | _ => exact href.elim

end Self

/-! ## Runs -/

/-- Every step keeps refusals justified. -/
theorem Justified.concat [Zero V] {as : List (Label V)} (h : Justified S as s) (lab : Label V) :
    Justified S (as ++ [lab]) s := by
  refine ⟨h.accounted, fun t => ?_, fun t l hund => ?_, fun t href => ?_⟩
  · have hloaded := h.loaded t
    unfold Loaded at hloaded ⊢
    split <;> simp_all only
    all_goals first | trivial | exact hloaded.imp_left fun hmet => hmet.concat lab
  · exact (h.version t l hund).imp_left fun hmet => hmet.concat lab
  · obtain ⟨a, ha, hmet⟩ := h.refused t href
    exact ⟨a, ha, hmet.concat lab⟩

/-- Along every run there is someone to blame for every refusal. -/
theorem justified_of_run [Zero V] {as : List (Label V)}
    (hrun : (machine S).Run (clockBelow (2 ^ 63)) (machine S).init as s) : Justified S as s := by
  refine hrun.history (P := fun as s => Justified S as s) ?_ fun bs s lab s' hrun h hstep _ => ?_
  · exact ⟨fun t => ⟨fun a ha => absurd ha UnorderedSet.not_mem_empty,
      fun a ha => absurd ha (AList.notMem_empty a), trivial⟩, fun t => trivial,
      fun t l hund => hund.elim, fun t href => href.elim⟩
  -- the meetings are those of the run before the step, which is extended by its label
  refine Justified.concat ?_ lab
  rcases step_cases hstep with ⟨t, c, sh', x', -, hmove, rfl⟩ | ⟨-, rfl⟩
  · refine ⟨fun u => ?_, fun u => ?_, fun u l hund => ?_, fun u href => ?_⟩
    · exact State.forall_moved (P := fun _ y => y.Accounted)
        (accounted_move (h.accounted t) hmove).1 (fun u _ => h.accounted u) u
    · exact State.forall_moved (P := fun u y => Loaded S bs u sh' y) (h.loaded_self hrun hmove)
        (fun u hut => (h.loaded u).other hrun hmove hut.symm) u
    · refine State.forall_moved (P := fun u y => y.Undecided →
        Met S bs u l ∨ versionOf (sh'.locks l) ≤ y.txn.rv.toNat)
        (fun hund => h.version_self hrun hmove hund l) (fun u hut hund => ?_) u hund
      -- the step of another transaction changes the lock, or not
      rcases met_or_unchanged hrun hmove hut.symm hund.open l with hmet | hsame
      · exact .inl hmet
      · rw [hsame]
        exact h.version u l hund
    · exact State.forall_moved (P := fun u y => y.Refused →
        ∃ a ∈ y.accessed, Met S bs u (S.lockOf a)) (h.refused_self hrun hmove)
        (fun u _ => h.refused u) u href
  · exact ⟨h.accounted, h.loaded, h.version, h.refused⟩

/-- For every refused transaction there is someone to blame. -/
theorem met_of_aborted [Zero V] {as : List (Label V)}
    (hrun : (machine S).Run (clockBelow (2 ^ 63)) (machine S).init as s)
    (hpc : (s.tx t).pc = .aborted) : ∃ a ∈ (s.tx t).accessed, Met S as t (S.lockOf a) :=
  (justified_of_run hrun).refused t (by simp [Refused, hpc])

end TransactionalMemory
