import TransactionalMemory.Sequential.CallSpecs

/-!
# A refused commit leaves no trace

When `tm_end` refuses a transaction, with no step of another one in between, nothing shared
should have changed but the clock (`LeavesNoTrace`). The rollback releases the acquired locks
through `unlock`, whose mask `~1u` is 32 bits wide: a version from `2 ^ 31` on does not survive it
(`leavesNoTrace_fails`). `leavesNoTrace_iff` says exactly when it leaves no trace: when it
commits, or all the locks it takes have versions below `2 ^ 31`.
-/

namespace TransactionalMemory

open VersionedWriteLock

variable {V : Type} {S : Setup V} {t : Tid} {r : Region V} {txn : Transaction V} {l : LockId}

/-- If `tm_end` refuses the transaction, then the shared words, the segment list and the lock
words are as before, and so is the clock, except that it is advanced by one if all locks of the
write set could be taken. -/
def LeavesNoTrace (S : Setup V) (t : Tid) (r : Region V) (txn : Transaction V) : Prop :=
  (tmEnd S t r txn).1 = false →
    (tmEnd S t r txn).2.shared.mem = r.shared.mem ∧
    (tmEnd S t r txn).2.segList = r.segList ∧
    (tmEnd S t r txn).2.shared.locks = r.shared.locks ∧
    ((tmEnd S t r txn).2.shared.gvc = r.shared.gvc ∨
      WriteSetFree S r.shared.locks txn ∧ (tmEnd S t r txn).2.shared.gvc = r.shared.gvc + 1)

/-- `tm_end` commits an update transaction: no lock of the write set is taken, and the clock has
not moved since `tm_begin` or the read set can still be read. -/
def CanCommit (S : Setup V) (sh : Shared V) (txn : Transaction V) : Prop :=
  WriteSetFree S sh.locks txn ∧ (txn.rv = sh.gvc ∨ ReadSetValid S sh.locks txn)

/-- The locks acquired by `tm_end` were free. -/
theorem isLocked_of_mem_acquires {locks : LockId → Word} (hl : l ∈ txn.acquires S t locks) :
    isLocked (locks l) = false := by
  have hcheck := List.mem_takeWhile_imp hl
  rwa [Bool.not_eq_true'] at hcheck

/-- Taking and releasing free locks restores them exactly if their versions have 31 bits. -/
theorem rolledBack_eq_self_iff {locks : LockId → Word} {held : List LockId}
    (hfree : ∀ l ∈ held, isLocked (locks l) = false) :
    rolledBack locks held = locks ↔ ∀ l ∈ held, versionOf (locks l) < 2 ^ 31 := by
  rw [funext_iff]
  constructor
  · intro h l hl
    have happly := h l
    rw [rolledBack, if_pos hl] at happly
    exact (unlockValue_lockDesired_eq_self_iff (hfree l hl)).1 happly
  · intro h l
    unfold rolledBack
    split
    next hl => exact (unlockValue_lockDesired_eq_self_iff (hfree l hl)).2 (h l hl)
    next => rfl

/-- A `tm_end` leaves no trace of a refusal exactly if it does not refuse, or every lock it takes
has a version below `2 ^ 31`. -/
theorem leavesNoTrace_iff (hupdate : txn.isRo = false) :
    LeavesNoTrace S t r txn ↔
      CanCommit S r.shared txn ∨
        ∀ l ∈ txn.acquires S t r.shared.locks, versionOf (r.shared.locks l) < 2 ^ 31 := by
  have hfree : ∀ l ∈ txn.acquires S t r.shared.locks, isLocked (r.shared.locks l) = false :=
    fun l hl => isLocked_of_mem_acquires hl
  unfold LeavesNoTrace CanCommit
  by_cases hws : WriteSetFree S r.shared.locks txn
  · have hrestored : rolledBack r.shared.locks (txn.lockSet S) = r.shared.locks ↔
        ∀ l ∈ txn.acquires S t r.shared.locks, versionOf (r.shared.locks l) < 2 ^ 31 := by
      -- all locks of the write set have been acquired by then
      have hiff := fun l => mem_acquires_of_free (S := S) (t := t) (l := l) hws
      rw [rolledBack_eq_self_iff fun l hl => hfree l ((hiff l).2 hl)]
      simp only [hiff]
    by_cases hvalid : txn.rv = r.shared.gvc ∨ ReadSetValid S r.shared.locks txn
    · -- the transaction commits
      rw [tmEnd_of_valid hupdate hws hvalid]
      exact iff_of_true (fun h => nomatch h) (.inl ⟨hws, hvalid⟩)
    · -- it is refused by the validation
      have hmoved := (not_or.1 hvalid).1
      have hinvalid := (not_or.1 hvalid).2
      rw [tmEnd_of_invalid hupdate hws hmoved hinvalid]
      simp only [hws, hvalid, and_false, false_or, ← hrestored]
      constructor
      · intro h
        exact (h trivial).2.2.1
      · intro h _
        exact ⟨rfl, rfl, h, .inr ⟨trivial, rfl⟩⟩
  · -- it is refused in the locking loop
    rw [tmEnd_of_locked hupdate hws]
    simp only [hws, false_and, false_or, ← rolledBack_eq_self_iff hfree]
    constructor
    · intro h
      exact (h trivial).2.2.1
    · intro h _
      exact ⟨rfl, rfl, h, .inl rfl⟩

/-- An update transaction with words for the addresses 9 and 8. -/
def twoWords : Transaction ℕ := tmWrite (Transaction.create 0 false) [(9, 1), (8, 1)]

/-- A region in which lock 9 is taken and lock 8 has the given version. -/
def contended (version : Version) : Region ℕ where
  shared := {
    gvc := 0
    locks := fun l => if l = 9 then 1 else if l = 8 then setVersion version else 0
    mem := fun _ => 0 }
  segList := []
  heap := { count := 1, freed := [] }

/-- Lock 8 is taken, lock 9 is not free, and lock 8 is restored. -/
theorem leavesNoTrace_small : LeavesNoTrace (Setup.plain ℕ) 0 (contended 5) twoWords :=
  (leavesNoTrace_iff (by decide)).2 (.inr (by decide))

/-- A lock that is taken and released by a refused `tm_end` can lose its version. -/
theorem leavesNoTrace_fails :
    ¬ ∀ (r : Region ℕ) (txn : Transaction ℕ) (t : Tid), txn.isRo = false →
      LeavesNoTrace (Setup.plain ℕ) t r txn := by
  intro hall
  obtain ⟨-, -, hlocks, -⟩ := hall (contended (2 ^ 31)) twoWords 0 (by decide) (by decide)
  have hword := congrFun hlocks 8
  revert hword
  decide

end TransactionalMemory
