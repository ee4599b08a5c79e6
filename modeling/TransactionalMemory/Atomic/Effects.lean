import TransactionalMemory.Atomic.Stages

/-!
# Moves by their effect

`Effect` groups the moves by what they do to the clock, the lock words, the shared words and the
stage of the transaction: a move is quiet, takes or releases a lock, draws a write version, stores
a word or publishes one (`effect_of_move`). The lemmas below read off what this means for the
quantities the invariants are about.
-/

namespace TransactionalMemory

open VersionedWriteLock UnorderedMap

variable {V : Type} {S : Setup V} {t : Tid} {sh sh' : Shared V} {x x' : Tx V}

/-- What a move does to the clock, the lock words, the shared words and the stage of the
transaction. -/
inductive Effect (S : Setup V) (sh : Shared V) (x : Tx V) : Shared V → Tx V → Prop where
  /-- Nothing shared changes. -/
  | quiet (x' : Tx V) (hstamped : x'.Stamped → x.Stamped ∧ x'.wv = x.wv)
      (hwrites : x'.Stamped → x'.txn.writeSet = x.txn.writeSet) (howned : x'.owned = x.owned)
      (hstored : ∀ a, x'.Stored a ↔ x.Stored a) (hreleased : ∀ a, x'.Released a ↔ x.Released a)
      (hrv : x'.txn.rv = x.txn.rv ∨ ¬ x'.Stamped ∧ x'.txn.rv = sh.gvc) : Effect S sh x sh x'
  /-- A free lock is taken by a transaction without a write version. -/
  | take (x' : Tx V) (l : LockId) (hbefore : ¬ x.Stamped) (hafter : ¬ x'.Stamped)
      (hfree : isLocked (sh.locks l) = false) (hrv : x'.txn.rv = x.txn.rv) :
      Effect S sh x (sh.setLock l (lockDesired (sh.locks l))) x'
  /-- A lock is released by a transaction that rolls back. -/
  | unlock (x' : Tx V) (l : LockId) (todo : List LockId) (current : Word)
      (hpc : x.pc = .unlockStore l todo current) (hafter : ¬ x'.Stamped)
      (hrv : x'.txn.rv = x.txn.rv) : Effect S sh x (sh.setLock l (unlockValue current)) x'
  /-- A write version is drawn. -/
  | clock (x' : Tx V) (hbefore : ¬ x.Stamped) (hwv : x'.wv = sh.gvc + 1)
      (howned : x'.owned = x.owned) (hstored : ∀ a, ¬ x'.Stored a)
      (hreleased : ∀ a, ¬ x'.Released a) (hrv : x'.txn.rv = x.txn.rv) : Effect S sh x sh.tick x'
  /-- A word is stored. -/
  | store (x' : Tx V) (e : Addr × V) (todo : List (Addr × V)) (hpc : x.pc = .writeBack (e :: todo))
      (hstamped : x'.Stamped) (htxn : x'.txn = x.txn) (hwv : x'.wv = x.wv)
      (howned : x'.owned = x.owned)
      (hstored : ∀ a, x'.Stored a ↔ x.Stored a ∨ a = e.1)
      (hreleased : ∀ a, x'.Released a ↔ x.Released a) : Effect S sh x (sh.setWord e.1 e.2) x'
  /-- A word is published. -/
  | publish (x' : Tx V) (e : Addr × V) (todo : List (Addr × V)) (hpc : x.pc = .publish e todo)
      (hstamped : x'.Stamped) (htxn : x'.txn = x.txn) (hwv : x'.wv = x.wv)
      (howned : x'.owned = x.owned.erase (S.lockOf e.1))
      (hstored : ∀ a, x'.Stored a ↔ x.Stored a)
      (hreleased : ∀ a, x'.Released a ↔ x.Released a ∨ a = e.1) :
      Effect S sh x (sh.setLock (S.lockOf e.1) (setVersion x.wv)) x'

namespace Tx

/-- A transaction that has not passed validation has stored nothing. -/
theorem not_stored_of_not_passed (h : ¬ x.Passed) (a : Addr) : ¬ x.Stored a := fun hs => h hs.1

/-- Before the write-back nothing is published. -/
theorem not_released_of_not_passed (h : ¬ x.Passed) (a : Addr) : ¬ x.Released a :=
  fun hr => h hr.1

/-- The write-back loop starts with nothing stored. -/
theorem not_stored_startWriteBack (a : Addr) : ¬ (x.startWriteBack S t).Stored a := by
  rintro ⟨-, hmem, hun⟩
  exact hun ((UnorderedMap.mem_keysOf_toList _).2 hmem)

end Tx

open Tx

/-- Every move has one of the effects. -/
theorem effect_of_move (hshape : x.Shape S) (hmove : Move S t sh x sh' x') :
    Effect S sh x sh' x' := by
  -- a quiet move that is not part of the write-back loop
  have hquiet : ∀ x' : Tx V, (x'.Stamped → x.Stamped ∧ x'.wv = x.wv) →
      (x'.Stamped → x'.txn.writeSet = x.txn.writeSet) → x'.owned = x.owned → ¬ x.Passed →
      (∀ a, ¬ x'.Stored a) → (x'.txn.rv = x.txn.rv ∨ ¬ x'.Stamped ∧ x'.txn.rv = sh.gvc) →
      Effect S sh x sh x' :=
    fun x' hst hw ho hnot hnot' hrv => .quiet x' hst hw ho
      (fun a => iff_of_false (hnot' a) (not_stored_of_not_passed hnot a))
      (fun a => iff_of_false (fun hr => hnot' a hr.stored) (not_released_of_not_passed hnot a)) hrv
  cases hmove with
  -- the compare-exchange succeeds on `expected` only, and `lock` has cleared its lock bit
  | lockTake e todo expected hpc heq =>
    rw [Shape, hpc] at hshape
    subst heq
    exact .take _ _ (by simp [Stamped, hpc]) (by simp [Stamped]) hshape.2 rfl
  | unlockStore l todo current hpc =>
    exact .unlock _ l todo current hpc (by simp [Stamped]) rfl
  | clockValidate hpc hne =>
    exact .clock _ (by simp [Stamped, hpc]) rfl rfl (fun a h => by simp [Stored, Passed] at h)
      (fun a h => by simp [Released, Passed] at h) rfl
  | clockSkip hpc heq =>
    exact .clock _ (by simp [Stamped, hpc]) rfl rfl not_stored_startWriteBack
      (fun a h => not_stored_startWriteBack a h.stored) rfl
  | validateDone hpc =>
    exact hquiet _ (fun _ => ⟨by simp [Stamped, hpc], rfl⟩) (fun _ => rfl) rfl
      (by simp [Passed, hpc]) not_stored_startWriteBack (.inl rfl)
  -- the keys of the map are distinct, so the word just stored is not stored again
  | store e todo hpc =>
    have hnodup := hshape
    rw [Shape, hpc] at hnodup
    have hhead := (List.nodup_cons.1 hnodup.nodup).1
    have hmem : e.1 ∈ x.txn.writeSet :=
      mem_iff_lookup.2 ⟨e.2, hnodup.entries e List.mem_cons_self⟩
    refine .store _ e todo hpc trivial rfl rfl rfl (fun a => ?_) (fun a => ?_)
    · simp only [Stored, Passed, unstored, hpc, true_and, List.map_cons, List.mem_cons]
      by_cases hae : a = e.1
      · simp [hae, hmem, hhead]
      · simp [hae]
    · simp [Released, Passed, unpublished, hpc]
  -- as for `store`, with the word itself still among the unpublished ones before
  | publish e todo hpc =>
    have hnodup := hshape
    rw [Shape, hpc] at hnodup
    have hhead := (List.nodup_cons.1 hnodup.nodup).1
    have hmem : e.1 ∈ x.txn.writeSet :=
      mem_iff_lookup.2 ⟨e.2, hnodup.entries e List.mem_cons_self⟩
    refine .publish _ e todo hpc trivial rfl rfl rfl (fun a => ?_) (fun a => ?_)
    · simp [Stored, Passed, unstored, hpc]
    · simp only [Released, Passed, unpublished, hpc, true_and, List.mem_cons]
      by_cases hae : a = e.1
      · simp [hae, hmem, hhead]
      · simp [hae]
  -- nothing is left in the loop, and `committed` counts as stored for an update transaction
  | writeDone hpc =>
    have hupdate := hshape
    rw [Shape, hpc] at hupdate
    refine .quiet _ (fun _ => ⟨by simp [Stamped, hpc], rfl⟩) (fun _ => rfl) rfl (fun a => ?_)
      (fun a => ?_) (.inl rfl)
    · simp [Stored, Passed, unstored, hpc, hupdate.update]
    · simp [Released, Passed, unpublished, hpc, hupdate.update]
  | endRo hpc hro =>
    exact hquiet _ (fun h => by simp [Stamped, hro] at h) (fun _ => rfl) rfl
      (by simp [Passed, hpc]) (fun a h => by simp [Stored, Passed, hro] at h) (.inl rfl)
  -- the read version is the only thing that is loaded from the clock
  | begin isRo hpc =>
    exact hquiet _ (fun h => by simp [Stamped] at h) (fun h => by simp [Stamped] at h) rfl
      (by simp [Passed, hpc]) (fun a h => by simp [Stored, Passed] at h)
      (.inr ⟨by simp [Stamped], rfl⟩)
  | write a val hpc =>
    exact hquiet _ (fun h => by simp [Stamped, hpc] at h) (fun h => by simp [Stamped, hpc] at h)
      rfl (by simp [Passed, hpc]) (fun a h => by simp [Stored, Passed, hpc] at h) (.inl rfl)
  | validateFree _ _ hpc =>
    exact hquiet _ (fun _ => ⟨by simp [Stamped, hpc], rfl⟩) (fun _ => rfl) rfl
      (by simp [Passed, hpc]) (fun a h => by simp [Stored, Passed] at h) (.inl rfl)
  | validateVersionPass _ _ hpc =>
    have hstamped : x.Stamped ∧ ¬ x.Passed := by
      rcases hpc with hpc | ⟨hpc, -⟩ <;> simp [Stamped, Passed, hpc]
    exact hquiet _ (fun _ => ⟨hstamped.1, rfl⟩) (fun _ => rfl) rfl hstamped.2
      (fun a h => by simp [Stored, Passed] at h) (.inl rfl)
  | validateVersionFail _ _ hpc =>
    have hstamped : ¬ x.Passed := by
      rcases hpc with hpc | ⟨hpc, -⟩ <;> simp [Passed, hpc]
    exact hquiet _ (fun h => by simp [Stamped, giveUp] at h) (fun _ => rfl) rfl hstamped
      (fun a h => by simp [Stored, Passed, giveUp] at h) (.inl rfl)
  | lockFail _ _ _ hpc | validateLockedFail _ _ hpc =>
    exact hquiet _ (fun h => by simp [Stamped, giveUp] at h) (fun _ => rfl) rfl
      (by simp [Passed, hpc]) (fun a h => by simp [Stored, Passed, giveUp] at h) (.inl rfl)
  | readAccept _ _ _ _ _ hpc =>
    exact hquiet _ (fun h => by simp [Stamped, acceptWord] at h) (fun _ => rfl) rfl
      (by simp [Passed, hpc]) (fun a h => by simp [Stored, Passed, acceptWord] at h) (.inl rfl)
  -- the other control points before the validation has passed
  | callRead _ hpc | callEnd hpc | readDone hpc | readStart _ _ hpc | readPreFail _ _ _ hpc
  | readPrePass _ _ _ hpc | readCopy _ _ _ hpc | readPostVersion _ _ _ _ hpc
  | readPostFail _ _ _ _ _ hpc | lockLoad _ _ hpc | lockAgain _ _ _ hpc | unlockDone hpc
  | unlockLoad _ _ hpc =>
    exact hquiet _ (fun h => by simp [Stamped] at h) (fun _ => rfl) rfl
      (by simp [Passed, hpc]) (fun a h => by simp [Stored, Passed] at h) (.inl rfl)

namespace Effect

/-- The clock stays, or ticks. -/
theorem gvc (h : Effect S sh x sh' x') : sh'.gvc = sh.gvc ∨ sh'.gvc = sh.gvc + 1 := by
  cases h <;> simp

/-- A new read version is the clock. -/
theorem rv (h : Effect S sh x sh' x') :
    x'.txn.rv = x.txn.rv ∨ ¬ x'.Stamped ∧ x'.txn.rv = sh.gvc := by
  cases h with
  | quiet _ _ _ _ _ _ hrv => exact hrv
  | take _ _ _ _ _ hrv | unlock _ _ _ _ _ _ hrv | clock _ _ _ _ _ _ hrv => exact .inl hrv
  | store _ _ _ _ _ htxn | publish _ _ _ _ _ htxn => exact .inl (by rw [htxn])

/-- A stamped transaction was stamped before, with the same write version and write set, or has
just drawn the next version. -/
theorem stamped (h : Effect S sh x sh' x') (hst : x'.Stamped) :
    (x.Stamped ∧ x'.wv = x.wv ∧ x'.txn.writeSet = x.txn.writeSet ∧ sh'.gvc = sh.gvc) ∨
    (x'.wv = sh.gvc + 1 ∧ sh'.gvc = sh.gvc + 1) := by
  cases h with
  | quiet _ hstamped hwrites =>
    exact .inl ⟨(hstamped hst).1, (hstamped hst).2, hwrites hst, rfl⟩
  | take _ _ _ hafter => exact absurd hst hafter
  | unlock _ _ _ _ _ hafter => exact absurd hst hafter
  | clock _ _ hwv => exact .inr ⟨hwv, rfl⟩
  | store _ _ _ hpc _ htxn hwv | publish _ _ _ hpc _ htxn hwv =>
    exact .inl ⟨by simp [Stamped, hpc], hwv, by rw [htxn], rfl⟩

/-- A published word stays published under the same write version. -/
theorem released_mono (h : Effect S sh x sh' x') {a : Addr} (hr : x.Released a) :
    x'.Released a ∧ x'.wv = x.wv := by
  have hst : x.Stamped := .of_passed hr.1
  cases h with
  | quiet _ hstamped _ _ _ hreleased =>
    have hr' := (hreleased a).2 hr
    exact ⟨hr', (hstamped (.of_passed hr'.1)).2⟩
  | take _ _ hbefore => exact absurd hst hbefore
  | unlock _ _ _ _ hpc => simp [Stamped, hpc] at hst
  | clock _ hbefore => exact absurd hst hbefore
  | store _ _ _ _ _ _ hwv _ _ hreleased => exact ⟨(hreleased a).2 hr, hwv⟩
  | publish _ _ _ _ _ _ hwv _ _ hreleased => exact ⟨(hreleased a).2 (.inl hr), hwv⟩

/-- A stored word stays stored, with the same value and write version. -/
theorem stored_mono (h : Effect S sh x sh' x') {a : Addr} (hs : x.Stored a) :
    x'.Stored a ∧ x'.wv = x.wv ∧ x'.txn.writeSet = x.txn.writeSet := by
  have hst : x.Stamped := .of_passed hs.1
  cases h with
  | quiet _ hstamped hwrites _ hstored =>
    have hs' := (hstored a).2 hs
    exact ⟨hs', (hstamped (.of_passed hs'.1)).2, hwrites (.of_passed hs'.1)⟩
  | take _ _ hbefore => exact absurd hst hbefore
  | unlock _ _ _ _ hpc => simp [Stamped, hpc] at hst
  | clock _ hbefore => exact absurd hst hbefore
  | store _ _ _ _ _ htxn hwv _ hstored => exact ⟨(hstored a).2 (.inl hs), hwv, by rw [htxn]⟩
  | publish _ _ _ _ _ htxn hwv _ hstored => exact ⟨(hstored a).2 hs, hwv, by rw [htxn]⟩

/-- A move either stores one word of the write-back loop, or keeps the shared words and what is
stored. -/
theorem store_or_keep (h : Effect S sh x sh' x') :
    (sh'.mem = sh.mem ∧ ∀ a, x'.Stored a ↔ x.Stored a) ∨
    ∃ e todo, x.pc = .writeBack (e :: todo) ∧ x'.txn = x.txn ∧ x'.wv = x.wv ∧
      sh' = sh.setWord e.1 e.2 ∧ ∀ a, x'.Stored a ↔ x.Stored a ∨ a = e.1 := by
  cases h with
  | quiet _ _ _ _ hstored => exact .inl ⟨rfl, hstored⟩
  | take _ _ hbefore hafter =>
    exact .inl ⟨rfl, fun a => iff_of_false (fun hs => hafter (.of_passed hs.1))
      (fun hs => hbefore (.of_passed hs.1))⟩
  | unlock _ _ _ _ hpc hafter =>
    exact .inl ⟨rfl, fun a => iff_of_false (fun hs => hafter (.of_passed hs.1))
      (not_stored_of_not_passed (by simp [Passed, hpc]) a)⟩
  | clock _ hbefore _ _ hstored =>
    exact .inl ⟨rfl, fun a => iff_of_false (hstored a) (fun hs => hbefore (.of_passed hs.1))⟩
  | store _ e todo hpc _ htxn hwv _ hstored =>
    exact .inr ⟨e, todo, hpc, htxn, hwv, rfl, hstored⟩
  | publish _ _ _ _ _ _ _ _ hstored => exact .inl ⟨rfl, hstored⟩

/-- A word becomes published by `setVersion` only. -/
theorem released_new (h : Effect S sh x sh' x') {a : Addr} (hr : x'.Released a) :
    x.Released a ∨ ∃ e todo, x.pc = .publish e todo ∧ a = e.1 ∧ x'.wv = x.wv ∧
      sh' = sh.setLock (S.lockOf e.1) (setVersion x.wv) := by
  cases h with
  | quiet _ _ _ _ _ hreleased => exact .inl ((hreleased a).1 hr)
  | take _ _ _ hafter => exact absurd (.of_passed hr.1) hafter
  | unlock _ _ _ _ _ hafter => exact absurd (.of_passed hr.1) hafter
  | clock _ _ _ _ _ hreleased => exact absurd hr (hreleased a)
  | store _ _ _ _ _ _ _ _ _ hreleased => exact .inl ((hreleased a).1 hr)
  | publish _ e todo hpc _ _ hwv _ _ hreleased =>
    rcases (hreleased a).1 hr with hr | rfl
    · exact .inl hr
    · exact .inr ⟨e, todo, hpc, rfl, hwv, rfl⟩

end Effect

end TransactionalMemory
