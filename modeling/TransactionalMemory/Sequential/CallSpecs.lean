import Mathlib.Data.List.TakeWhile
import TransactionalMemory.Sequential.Calls

/-!
# What the calls do

One characterisation for each call of `Calls`, in terms of the state before it, so that no later
proof unfolds a loop:

* `readWords_eq_some_iff`: `tm_read` succeeds exactly if the lock of every word is free and its
  version is at most the read version;
* `overlay_tmWrite`: buffered words are read as if they had been stored;
* `tmEnd_of_locked`, `tmEnd_of_invalid` and `tmEnd_of_valid`: `tm_end` is refused by a taken lock
  of the write set, refused by the validation, or commits.

The conditions are `WriteSetFree` and `ReadSetValid`; `acquired` are the locks that the locking
loop takes before it meets a taken one.
-/

namespace TransactionalMemory

open VersionedWriteLock UnorderedMap

variable {V : Type} {S : Setup V} {t : Tid} {sh : Shared V} {r : Region V} {txn : Transaction V}
  {a : Addr} {l : LockId}

/-! ## `tm_read` -/

/-- A word can be read: its lock is free, with a version up to the read version. -/
def Readable (S : Setup V) (locks : LockId → Word) (rv : Version) (a : Addr) : Prop :=
  isLocked (locks (S.lockOf a)) = false ∧ getVersion (locks (S.lockOf a)) ≤ rv

namespace Transaction

/-- A recorded read keeps the read version. -/
@[simp] theorem recordRead_rv (a : Addr) : (txn.recordRead a).rv = txn.rv := rfl

/-- It keeps the mode. -/
@[simp] theorem recordRead_isRo (a : Addr) : (txn.recordRead a).isRo = txn.isRo := rfl

/-- It keeps the write set. -/
@[simp] theorem recordRead_writeSet (a : Addr) : (txn.recordRead a).writeSet = txn.writeSet := rfl

/-- It keeps the segments. -/
@[simp] theorem recordRead_segList (a : Addr) : (txn.recordRead a).segList = txn.segList := rfl

/-- It changes no word that is read. -/
@[simp] theorem wordAt_recordRead (a : Addr) : (txn.recordRead a).wordAt = txn.wordAt := rfl

/-- The transaction after reading the words of a list. -/
def recordReads (txn : Transaction V) (addrs : List Addr) : Transaction V :=
  addrs.foldl Transaction.recordRead txn

/-- There is nothing to record. -/
@[simp] theorem recordReads_nil : txn.recordReads [] = txn := rfl

/-- Reads are recorded one by one. -/
@[simp] theorem recordReads_cons (a : Addr) (addrs : List Addr) :
    txn.recordReads (a :: addrs) = (txn.recordRead a).recordReads addrs := rfl

variable (addrs : List Addr)

/-- Recorded reads keep the read version. -/
@[simp] theorem recordReads_rv : (txn.recordReads addrs).rv = txn.rv := by
  induction addrs generalizing txn with
  | nil => rfl
  | cons a addrs ih => rw [recordReads_cons, ih, recordRead_rv]

/-- They keep the mode. -/
@[simp] theorem recordReads_isRo : (txn.recordReads addrs).isRo = txn.isRo := by
  induction addrs generalizing txn with
  | nil => rfl
  | cons a addrs ih => rw [recordReads_cons, ih, recordRead_isRo]

/-- They keep the write set. -/
@[simp] theorem recordReads_writeSet : (txn.recordReads addrs).writeSet = txn.writeSet := by
  induction addrs generalizing txn with
  | nil => rfl
  | cons a addrs ih => rw [recordReads_cons, ih, recordRead_writeSet]

/-- They keep the segments. -/
@[simp] theorem recordReads_segList : (txn.recordReads addrs).segList = txn.segList := by
  induction addrs generalizing txn with
  | nil => rfl
  | cons a addrs ih => rw [recordReads_cons, ih, recordRead_segList]

/-- Exactly the update transactions keep track of what they read. -/
theorem mem_recordReads :
    a ∈ (txn.recordReads addrs).readSet ↔
      a ∈ txn.readSet ∨ txn.isRo = false ∧ a ∈ addrs := by
  induction addrs generalizing txn with
  | nil => simp
  | cons b addrs ih =>
    rw [recordReads_cons, ih, recordRead_isRo]
    cases hro : txn.isRo <;> simp [recordRead, hro, or_assoc, or_left_comm]

end Transaction

/-- With nothing between its loads, one iteration of `tm_read` checks `Readable` twice. -/
theorem readWord_eq_some_iff {res : Transaction V × V} :
    readWord S sh txn a = some res ↔
      Readable S sh.locks txn.rv a ∧ res = (txn.recordRead a, txn.wordAt sh.mem a) := by
  unfold readWord Readable
  dsimp only
  split
  -- refused before the copy
  next hfail =>
    apply iff_of_false (fun h => nomatch h)
    intro h
    rcases hfail with hl | hlt
    · rw [hl] at h
      cases h.1.1
    · exact absurd h.1.2 (BitVec.not_le.2 hlt)
  -- the locks are as before the copy, so the second check passes too
  next hpass =>
    rw [not_or, Bool.not_eq_true, BitVec.not_lt] at hpass
    have hpost : ¬ (isLocked (sh.locks (S.lockOf a)) = true ∨
        getVersion (sh.locks (S.lockOf a)) ≠ getVersion (sh.locks (S.lockOf a)) ∨
        txn.isRo = true ∧ txn.rv < getVersion (sh.locks (S.lockOf a))) := by
      rintro (hl | hne | ⟨-, hlt⟩)
      · rw [hpass.1] at hl
        cases hl
      · exact hne rfl
      · exact absurd hpass.2 (BitVec.not_le.2 hlt)
    rw [if_neg hpost, Option.some.injEq, eq_comm]
    exact (and_iff_right hpass).symm

/-- `tm_read` succeeds exactly if all words of the range can be read, and returns them. -/
theorem readWords_eq_some_iff {addrs : List Addr} {res : Transaction V × List V} :
    readWords S sh addrs txn = some res ↔
      (∀ a ∈ addrs, Readable S sh.locks txn.rv a) ∧
        res = (txn.recordReads addrs, addrs.map (txn.wordAt sh.mem)) := by
  induction addrs generalizing txn res with
  | nil => simp [readWords, eq_comm]
  | cons a addrs ih =>
    simp only [readWords, List.forall_mem_cons]
    cases hword : readWord S sh txn a with
    | none =>
      have hnot : ¬ Readable S sh.locks txn.rv a := fun hread => by
        have hsome := readWord_eq_some_iff.2 ⟨hread, rfl⟩
        rw [hword] at hsome
        cases hsome
      simp [hnot]
    | some q =>
      obtain ⟨hread, rfl⟩ := readWord_eq_some_iff.1 hword
      simp only [Option.map_eq_some_iff, ih, Transaction.recordRead_rv,
        Transaction.wordAt_recordRead, Transaction.recordReads_cons, List.map_cons]
      -- the first word is read, so the others decide
      constructor
      · rintro ⟨q, ⟨hreads, rfl⟩, rfl⟩
        exact ⟨⟨hread, hreads⟩, rfl⟩
      · rintro ⟨⟨-, hreads⟩, rfl⟩
        exact ⟨_, ⟨hreads, rfl⟩, rfl⟩

/-! ## `tm_write` -/

/-- The words of a memory, with the buffered ones in front. -/
def overlay (ws : UnorderedMap Addr V) (mem : Addr → V) : Addr → V :=
  fun a => (ws.lookup a).getD (mem a)

/-- An update transaction reads through its write set. -/
theorem Transaction.wordAt_update (h : txn.isRo = false) (mem : Addr → V) :
    txn.wordAt mem = overlay txn.writeSet mem := by
  ext a
  simp [wordAt, overlay, h]

/-- A read-only transaction reads shared memory. -/
theorem Transaction.wordAt_readOnly (h : txn.isRo = true) (mem : Addr → V) :
    txn.wordAt mem = mem := by
  ext a
  simp [wordAt, h]

/-- Store the words of a list one after the other. -/
def storeAll (entries : List (Addr × V)) (mem : Addr → V) : Addr → V :=
  entries.foldl (fun m e => Function.update m e.1 e.2) mem

/-- A buffered word hides the shared one. -/
theorem overlay_insert (ws : UnorderedMap Addr V) (mem : Addr → V) (v : V) :
    overlay (ws.insert a v) mem = Function.update (overlay ws mem) a v := by
  ext b
  by_cases hba : b = a
  · subst hba
    simp [overlay]
  · simp [overlay, hba, AList.lookup_insert_ne hba]

/-- Buffering words and storing them have the same effect on what is read. -/
theorem overlay_tmWrite (entries : List (Addr × V)) (mem : Addr → V) :
    overlay (tmWrite txn entries).writeSet mem = storeAll entries (overlay txn.writeSet mem) := by
  show overlay (entries.foldl (fun ws e => ws.insert e.1 e.2) txn.writeSet) mem = _
  generalize txn.writeSet = ws
  induction entries generalizing ws with
  | nil => rfl
  | cons e entries ih =>
    rw [List.foldl_cons, ih, overlay_insert]
    rfl

/-- The addresses with buffered words after `tm_write`. -/
theorem mem_tmWrite (entries : List (Addr × V)) :
    a ∈ (tmWrite txn entries).writeSet ↔ a ∈ keysOf entries ∨ a ∈ txn.writeSet := by
  show a ∈ entries.foldl (fun ws e => ws.insert e.1 e.2) txn.writeSet ↔ _
  generalize txn.writeSet = ws
  induction entries generalizing ws with
  | nil => simp
  | cons e entries ih =>
    -- membership moves from the list to the write set, one address at a time
    rw [List.foldl_cons, ih, AList.mem_insert]
    simp only [keysOf, List.map_cons, List.mem_cons]
    tauto

/-! ## `tm_end` -/

/-- Every lock of the write set is free. -/
def WriteSetFree (S : Setup V) (locks : LockId → Word) (txn : Transaction V) : Prop :=
  ∀ a ∈ txn.writeSet, isLocked (locks (S.lockOf a)) = false

/-- The read set can still be read. -/
def ReadSetValid (S : Setup V) (locks : LockId → Word) (txn : Transaction V) : Prop :=
  ∀ a ∈ txn.readSet, Readable S locks txn.rv a

/-- The locks of the write set. -/
def Transaction.lockSet (S : Setup V) (txn : Transaction V) : List LockId :=
  txn.writeSet.keys.map S.lockOf

/-- The locks of the write set. -/
theorem Transaction.mem_lockSet : l ∈ txn.lockSet S ↔ ∃ a ∈ txn.writeSet, S.lockOf a = l := by
  simp [lockSet, AList.mem_keys]

/-- A traversal of the write set meets its locks. -/
theorem Transaction.mem_locks_toList (τ : Traversal (Addr × V)) :
    (l ∈ (txn.writeSet.toList τ).map fun e => S.lockOf e.1) ↔ l ∈ txn.lockSet S := by
  rw [mem_lockSet, List.mem_map]
  constructor
  · rintro ⟨e, he, rfl⟩
    exact ⟨e.1, mem_iff_lookup.2 ⟨e.2, (UnorderedMap.mem_toList τ).1 he⟩, rfl⟩
  · rintro ⟨a, ha, rfl⟩
    obtain ⟨v, hv⟩ := mem_iff_lookup.1 ha
    exact ⟨(a, v), (UnorderedMap.mem_toList τ).2 hv, rfl⟩

/-- The locks that the locking loop takes: those before the first one that is not free. -/
def acquired (S : Setup V) (locks : LockId → Word) (entries : List (Addr × V)) : List LockId :=
  (entries.map fun e => S.lockOf e.1).takeWhile fun l => !isLocked (locks l)

/-- The lock table `locks` in which the locks `held`, all of them free, have been taken. -/
def taken (locks : LockId → Word) (held : UnorderedSet LockId) : LockId → Word :=
  fun l => if l ∈ held then lockDesired (locks l) else locks l

/-- The lock table after a rollback. -/
def rolledBack (locks : LockId → Word) (held : List LockId) : LockId → Word :=
  fun l => if l ∈ held then unlockValue (lockDesired (locks l)) else locks l

/-- The lock table after the write-back. -/
def published (S : Setup V) (wv : Version) (locks : LockId → Word) (txn : Transaction V) :
    LockId → Word :=
  fun l => if l ∈ txn.lockSet S then setVersion wv else locks l

section Loops

variable {locks : LockId → Word} {held : UnorderedSet LockId}

/-- No lock is taken. -/
theorem taken_empty : taken locks ∅ = locks := by
  ext l
  simp [taken]

/-- One more lock is taken. -/
theorem taken_insert : taken locks (held.insert l) =
    Function.update (taken locks held) l (lockDesired (locks l)) := by
  ext k
  by_cases hkl : k = l
  · subst hkl
    simp [taken]
  · simp [taken, hkl]

/-- A lock is taken now, or was before. -/
theorem isLocked_taken (hfree : ∀ l ∈ held, isLocked (locks l) = false) :
    isLocked (taken locks held l) = true ↔ l ∈ held ∨ isLocked (locks l) = true := by
  unfold taken
  split
  next hl => simp [hl, isLocked_lockDesired (hfree l hl)]
  next hl => simp [hl]

/-- One iteration of the locking loop on a lock that was free: it is held already or taken now. -/
theorem lockWriteSet_cons_of_free (hfree : ∀ l ∈ held, isLocked (locks l) = false)
    {e : Addr × V} (hlock : isLocked (locks (S.lockOf e.1)) = false)
    (entries : List (Addr × V)) :
    lockWriteSet S (e :: entries) (taken locks held) held =
      lockWriteSet S entries (taken locks (held.insert (S.lockOf e.1)))
        (held.insert (S.lockOf e.1)) := by
  rw [lockWriteSet]
  by_cases hheld : S.lockOf e.1 ∈ held
  · -- an earlier address of the write set has the same lock
    have hnone : lock (taken locks held (S.lockOf e.1)) = none :=
      lock_eq_none_iff.2 ((isLocked_taken hfree).2 (.inl hheld))
    have hsame : taken locks (held.insert (S.lockOf e.1)) = taken locks held := by
      rw [taken_insert]
      exact Function.update_eq_self_iff.2 (by simp [taken, hheld])
    rw [hnone, hsame]
    exact if_pos hheld
  · have hsome : lock (taken locks held (S.lockOf e.1)) =
        some (lockDesired (locks (S.lockOf e.1))) := by
      rw [lock_eq_some_iff]
      simp [taken, hheld, hlock]
    rw [hsome, taken_insert]

/-- The locking loop ends early at a lock that was not free. -/
theorem lockWriteSet_cons_of_locked (hfree : ∀ l ∈ held, isLocked (locks l) = false)
    {e : Addr × V} (hlock : isLocked (locks (S.lockOf e.1)) = true)
    (entries : List (Addr × V)) :
    lockWriteSet S (e :: entries) (taken locks held) held = (false, taken locks held, held) := by
  have hheld : S.lockOf e.1 ∉ held := fun hl => by
    rw [hfree _ hl] at hlock
    cases hlock
  have hnone : lock (taken locks held (S.lockOf e.1)) = none :=
    lock_eq_none_iff.2 ((isLocked_taken hfree).2 (.inr hlock))
  rw [lockWriteSet, hnone]
  exact if_neg hheld

/-- The locking loop takes the locks before the first taken one, and ends early exactly if there
is one. -/
theorem lockWriteSet_spec (hfree : ∀ l ∈ held, isLocked (locks l) = false)
    (entries : List (Addr × V)) :
    ∃ held', lockWriteSet S entries (taken locks held) held =
        (decide (∀ e ∈ entries, isLocked (locks (S.lockOf e.1)) = false), taken locks held',
          held') ∧
      (∀ l ∈ held', isLocked (locks l) = false) ∧
      ∀ l, l ∈ held' ↔ l ∈ held ∨ l ∈ acquired S locks entries := by
  -- the induction is on the traversal, with the locks held so far generalized
  induction entries generalizing held with
  | nil => exact ⟨held, by simp [lockWriteSet], hfree, by simp [acquired]⟩
  | cons e entries ih =>
    cases hlock : isLocked (locks (S.lockOf e.1)) with
    | false =>
      have hfree' : ∀ l ∈ held.insert (S.lockOf e.1), isLocked (locks l) = false := by
        intro l hl
        rcases UnorderedSet.mem_insert.1 hl with rfl | hl
        · exact hlock
        · exact hfree l hl
      obtain ⟨held', heq, hfree'', hmem⟩ := ih hfree'
      refine ⟨held', ?_, hfree'', fun l => ?_⟩
      · have hall : (∀ e' ∈ e :: entries, isLocked (locks (S.lockOf e'.1)) = false) ↔
            ∀ e' ∈ entries, isLocked (locks (S.lockOf e'.1)) = false := by
          simp [hlock]
        simp only [hall]
        rw [lockWriteSet_cons_of_free hfree hlock, heq]
      · rw [hmem, UnorderedSet.mem_insert]
        simp only [acquired, List.map_cons, List.takeWhile_cons, hlock, Bool.not_false, if_true,
          List.mem_cons]
        tauto
    | true =>
      refine ⟨held, ?_, hfree, fun l => ?_⟩
      · rw [lockWriteSet_cons_of_locked hfree hlock]
        simp [hlock]
      · simp [acquired, hlock]

/-- The rollback unlocks the listed locks. -/
theorem unlockAll_apply (ls : List LockId) (hnodup : ls.Nodup) (locks : LockId → Word)
    (l : LockId) :
    unlockAll ls locks l = if l ∈ ls then unlockValue (locks l) else locks l := by
  induction ls generalizing locks with
  | nil => simp [unlockAll]
  | cons k ls ih =>
    obtain ⟨hk, hnodup⟩ := List.nodup_cons.1 hnodup
    rw [unlockAll, ih hnodup]
    -- no lock is listed twice, so each is unlocked at most once
    by_cases hlk : l = k
    · subst hlk
      simp [hk]
    · simp [hlk]

/-- The validation accepts exactly the read sets that can still be read. -/
theorem validateReadSet_iff (hfree : ∀ l ∈ held, isLocked (locks l) = false) {rv : Version}
    (addrs : List Addr) :
    validateReadSet S (taken locks held) held rv addrs = true ↔
      ∀ a ∈ addrs, Readable S locks rv a := by
  induction addrs with
  | nil => simp [validateReadSet]
  | cons a addrs ih =>
    have hversion :
        getVersion (taken locks held (S.lockOf a)) = getVersion (locks (S.lockOf a)) := by
      unfold taken
      split
      next hl =>
        exact BitVec.eq_of_toNat_eq (versionOf_lockDesired (hfree _ hl))
      next => rfl
    -- the lock bits that the transaction has set itself are not counted
    have hcheck : (S.lockOf a ∉ held ∧ isLocked (taken locks held (S.lockOf a)) = true ∨
        rv < getVersion (taken locks held (S.lockOf a))) ↔
        ¬ Readable S locks rv a := by
      rw [isLocked_taken hfree, hversion, Readable, ← BitVec.not_lt, ← Bool.not_eq_true]
      by_cases hl : S.lockOf a ∈ held
      · simp [hl, hfree _ hl]
      · simp only [hl, not_false_eq_true, true_and, false_or]
        tauto
    rw [validateReadSet, List.forall_mem_cons]
    by_cases hread : Readable S locks rv a
    · rw [if_neg fun hc => hcheck.1 hc hread, ih]
      exact (and_iff_right hread).symm
    · rw [if_pos (hcheck.2 hread)]
      exact iff_of_false Bool.false_ne_true fun h => hread h.1

end Loops

section WriteBack

variable {wv : Version} {entries : List (Addr × V)}

/-- The write-back keeps the clock. -/
@[simp] theorem writeBack_gvc : (writeBack S wv entries sh).gvc = sh.gvc := by
  induction entries generalizing sh with
  | nil => rfl
  | cons e entries ih => rw [writeBack, ih]

/-- The write-back releases the locks of the words with the write version. -/
theorem writeBack_locks (l : LockId) : (writeBack S wv entries sh).locks l =
    if l ∈ entries.map fun e => S.lockOf e.1 then setVersion wv else sh.locks l := by
  induction entries generalizing sh with
  | nil => simp [writeBack]
  | cons e entries ih =>
    rw [writeBack, ih]
    rw [List.map_cons]
    -- two words may share a lock: the same version is set twice
    by_cases hl : l = S.lockOf e.1
    · simp [hl]
    · simp only [List.mem_cons, hl, false_or, Function.update_of_ne hl]

/-- The write-back stores the words. -/
theorem writeBack_mem : (writeBack S wv entries sh).mem = storeAll entries sh.mem := by
  induction entries generalizing sh with
  | nil => rfl
  | cons e entries ih =>
    rw [writeBack, ih]
    rfl

/-- Storing words at distinct addresses. -/
theorem storeAll_apply (hnodup : (keysOf entries).Nodup) (mem : Addr → V) (a : Addr) (y : V) :
    storeAll entries mem a = y ↔ (a, y) ∈ entries ∨ a ∉ keysOf entries ∧ mem a = y := by
  induction entries generalizing mem with
  | nil => simp [storeAll]
  | cons e entries ih =>
    obtain ⟨hhead, hnodup⟩ := List.nodup_cons.1 hnodup
    have hstep : storeAll (e :: entries) mem = storeAll entries (Function.update mem e.1 e.2) := rfl
    rw [hstep, ih hnodup]
    -- the address is stored to at most once
    by_cases hae : a = e.1
    · subst hae
      have hnot : ∀ y, (e.1, y) ∉ entries := fun y hy => hhead (mem_keysOf.2 ⟨y, hy⟩)
      simp [hnot, hhead, Prod.ext_iff, eq_comm]
    · simp [hae, Prod.ext_iff]

/-- The write-back stores the write set, in whatever order it is traversed. -/
theorem storeAll_toList (τ : Traversal (Addr × V)) (ws : UnorderedMap Addr V) (mem : Addr → V) :
    storeAll (ws.toList τ) mem = overlay ws mem := by
  ext a
  rw [storeAll_apply (UnorderedMap.nodup_keysOf_toList τ), UnorderedMap.mem_toList,
    UnorderedMap.mem_keysOf_toList, overlay]
  cases hlookup : ws.lookup a with
  | none => exact .inr ⟨AList.lookup_eq_none.1 hlookup, rfl⟩
  | some v => exact .inl rfl

end WriteBack

/-- The locks a transaction takes in its `tm_end`. -/
def Transaction.acquires (S : Setup V) (t : Tid) (locks : LockId → Word) (txn : Transaction V) :
    List LockId := acquired S locks (txn.writeSet.toList (S.writeOrder t))

/-- The locking loop of `tm_end`. -/
theorem lockWriteSet_writeSet (S : Setup V) (t : Tid) (txn : Transaction V)
    (locks : LockId → Word) :
    ∃ ok held, lockWriteSet S (txn.writeSet.toList (S.writeOrder t)) locks ∅ =
        (ok, taken locks held, held) ∧ (ok = true ↔ WriteSetFree S locks txn) ∧
      (∀ l ∈ held, isLocked (locks l) = false) ∧
      ∀ l, l ∈ held ↔ l ∈ txn.acquires S t locks := by
  have hempty : ∀ l ∈ (∅ : UnorderedSet LockId), isLocked (locks l) = false :=
    fun l hl => absurd hl UnorderedSet.not_mem_empty
  obtain ⟨held, heq, hfree, hmem⟩ :=
    lockWriteSet_spec (S := S) hempty (txn.writeSet.toList (S.writeOrder t))
  have hiff : (∀ e ∈ txn.writeSet.toList (S.writeOrder t),
      isLocked (locks (S.lockOf e.1)) = false) ↔ WriteSetFree S locks txn := by
    constructor
    · intro h a ha
      obtain ⟨v, hv⟩ := mem_iff_lookup.1 ha
      exact h (a, v) ((UnorderedMap.mem_toList _).2 hv)
    · intro h e he
      obtain ⟨a, v⟩ := e
      exact h a (mem_iff_lookup.2 ⟨v, (UnorderedMap.mem_toList _).1 he⟩)
  rw [taken_empty] at heq
  refine ⟨_, held, heq, by rw [decide_eq_true_iff, hiff], hfree, fun l => ?_⟩
  rw [hmem]
  simp [Transaction.acquires]

/-- Unlocking what was taken. -/
theorem unlockAll_taken {locks : LockId → Word} {held : UnorderedSet LockId} {ls : List LockId}
    (τ : Traversal LockId) (hmem : ∀ l, l ∈ held ↔ l ∈ ls) :
    unlockAll (held.toList τ) (taken locks held) = rolledBack locks ls := by
  ext1 l
  rw [unlockAll_apply _ (UnorderedSet.nodup_toList τ), rolledBack]
  simp only [UnorderedSet.mem_toList, ← hmem]
  -- what was taken was free, so unlocking gives back the version
  by_cases hl : l ∈ held
  · simp [taken, hl]
  · simp [taken, hl]

/-- If no lock is in the way, the locking loop takes the locks of the whole write set. -/
theorem mem_acquires_of_free {locks : LockId → Word} (hfree : WriteSetFree S locks txn) :
    l ∈ txn.acquires S t locks ↔ l ∈ txn.lockSet S := by
  have hall : acquired S locks (txn.writeSet.toList (S.writeOrder t)) =
      (txn.writeSet.toList (S.writeOrder t)).map fun e => S.lockOf e.1 := by
    apply List.takeWhile_eq_self_iff.2
    intro l hl
    obtain ⟨a, ha, rfl⟩ := Transaction.mem_lockSet.1 ((Transaction.mem_locks_toList _).1 hl)
    rw [hfree a ha, Bool.not_false]
  rw [Transaction.acquires, hall, Transaction.mem_locks_toList]

/-- The write-back of a transaction that holds the locks of its write set. -/
theorem writeBack_taken {wv : Version} {held : UnorderedSet LockId} (sh : Shared V)
    (τ : Traversal (Addr × V)) (hmem : ∀ l, l ∈ held ↔ l ∈ txn.lockSet S) :
    writeBack S wv (txn.writeSet.toList τ) { sh with locks := taken sh.locks held } =
      { gvc := sh.gvc
        locks := published S wv sh.locks txn
        mem := overlay txn.writeSet sh.mem } := by
  refine Shared.ext writeBack_gvc ?_ (writeBack_mem.trans (storeAll_toList _ _ _))
  ext1 l
  show _ = published S wv sh.locks txn l
  rw [writeBack_locks, published]
  simp only [Transaction.mem_locks_toList]
  by_cases hl : l ∈ txn.lockSet S
  · simp [hl]
  · -- a lock outside the write set was not taken
    have hnot : l ∉ held := fun hl' => hl ((hmem l).1 hl')
    simp [hl, taken, hnot]

/-- A read-only transaction always commits. -/
theorem tmEnd_readOnly (hro : txn.isRo = true) : tmEnd S t r txn = (true, r.deleteTxn txn) := by
  rw [tmEnd, if_pos hro]

/-- `tm_end` is refused if a lock of the write set is taken. -/
theorem tmEnd_of_locked (hupdate : txn.isRo = false) (h : ¬ WriteSetFree S r.shared.locks txn) :
    tmEnd S t r txn = (false, { r with shared := { r.shared with
      locks := rolledBack r.shared.locks (txn.acquires S t r.shared.locks) } }.deleteTxn txn) := by
  obtain ⟨ok, held, heq, hok, -, hmem⟩ := lockWriteSet_writeSet S t txn r.shared.locks
  have hfail : ok = false := by
    rw [← Bool.not_eq_true, hok]
    exact h
  -- the clock has not been advanced yet
  rw [tmEnd, if_neg (by simp [hupdate])]
  simp only [heq, hfail, if_true, unlockAll_taken _ hmem]

/-- `tm_end` is refused if the validation is not skipped and fails. -/
theorem tmEnd_of_invalid (hupdate : txn.isRo = false) (hfree : WriteSetFree S r.shared.locks txn)
    (hmoved : txn.rv ≠ r.shared.gvc) (hinvalid : ¬ ReadSetValid S r.shared.locks txn) :
    tmEnd S t r txn = (false, { r with shared := { r.shared with
      gvc := r.shared.gvc + 1
      locks := rolledBack r.shared.locks (txn.lockSet S) } }.deleteTxn txn) := by
  obtain ⟨ok, held, heq, hok, hheld, hmem⟩ := lockWriteSet_writeSet S t txn r.shared.locks
  have hpassed : ok = true := hok.2 hfree
  have hmem' : ∀ l, l ∈ held ↔ l ∈ txn.lockSet S := fun l => by
    rw [hmem, mem_acquires_of_free hfree]
  -- `rv + 1 ≠ wv` says that the clock has moved since `tm_begin`, also if the sum wraps around
  have hne : txn.rv + 1 ≠ r.shared.gvc + 1 := fun h => hmoved ((BitVec.add_left_inj 1).1 h)
  have hvalidate : validateReadSet S (taken r.shared.locks held) held txn.rv
      (txn.readSet.toList (S.readOrder t)) = false := by
    rw [← Bool.not_eq_true, validateReadSet_iff hheld]
    intro hall
    exact hinvalid fun a ha => hall a ((UnorderedSet.mem_toList _).2 ha)
  rw [tmEnd, if_neg (by simp [hupdate])]
  simp only [heq, hpassed, Bool.true_eq_false, if_false, hne, hvalidate, ne_eq,
    not_false_eq_true, and_self, if_true, unlockAll_taken _ hmem']

/-- `tm_end` commits if no lock is in the way and the validation passes or is skipped. -/
theorem tmEnd_of_valid (hupdate : txn.isRo = false) (hfree : WriteSetFree S r.shared.locks txn)
    (hvalid : txn.rv = r.shared.gvc ∨ ReadSetValid S r.shared.locks txn) :
    tmEnd S t r txn = (true,
      { shared := {
          gvc := r.shared.gvc + 1
          locks := published S (r.shared.gvc + 1) r.shared.locks txn
          mem := overlay txn.writeSet r.shared.mem }
        segList := r.segList ++ txn.segList
        heap := r.heap }) := by
  obtain ⟨ok, held, heq, hok, hheld, hmem⟩ := lockWriteSet_writeSet S t txn r.shared.locks
  have hpassed : ok = true := hok.2 hfree
  have hpass : ¬ (txn.rv + 1 ≠ r.shared.gvc + 1 ∧ validateReadSet S (taken r.shared.locks held) held
      txn.rv (txn.readSet.toList (S.readOrder t)) = false) := by
    rintro ⟨hne, hvalidate⟩
    -- the validation is skipped, or it passes
    rcases hvalid with heq | hvalid
    · exact hne (by rw [heq])
    · rw [← Bool.not_eq_true] at hvalidate
      refine hvalidate ((validateReadSet_iff hheld _).2 fun a ha => ?_)
      exact hvalid a ((UnorderedSet.mem_toList _).1 ha)
  have hmem' : ∀ l, l ∈ held ↔ l ∈ txn.lockSet S := fun l => by
    rw [hmem, mem_acquires_of_free hfree]
  rw [tmEnd, if_neg (by simp [hupdate])]
  simp only [heq, hpassed, Bool.true_eq_false, if_false, hpass]
  rw [writeBack_taken { r.shared with gvc := r.shared.gvc + 1 } _ hmem', Region.commitTxn_eq]

end TransactionalMemory
