import Mathlib.Logic.Function.Basic
import TransactionalMemory.Region

/-!
# The calls, run without interruption

The functions of `394984/tm.cpp` as each of them behaves when no other transaction takes a step
during the call: functions of the region and the transaction object. A refused call returns
`none` or `false`; it deletes the transaction object, which frees the segments the transaction
allocated.

The loops of `tm_read` and `tm_end` keep their shape: `readWords`, `lockWriteSet`, `unlockAll`,
`validateReadSet` and `writeBack` are recursions over the words, locks and addresses in the order
of the traversal.
-/

namespace TransactionalMemory

open VersionedWriteLock

variable {V : Type}

/-- `tm_begin`: the read version is the clock. -/
def tmBegin (r : Region V) (isRo : Bool) : Transaction V := Transaction.create r.shared.gvc isRo

/-! ## Reading and writing -/

/-- One iteration of `tm_read`: pre-validation, copy and post-validation of one word. -/
def readWord (S : Setup V) (sh : Shared V) (txn : Transaction V) (a : Addr) :
    Option (Transaction V × V) :=
  let l := S.lockOf a
  let version := getVersion (sh.locks l)
  -- the lock word is loaded for the version and again for the lock bit
  if isLocked (sh.locks l) ∨ txn.rv < version then none
  else
    -- the copy, between the two validations
    let val := txn.wordAt sh.mem a
    let newVersion := getVersion (sh.locks l)
    if isLocked (sh.locks l) ∨ newVersion ≠ version ∨ txn.isRo = true ∧ txn.rv < newVersion then
      none
    else some (txn.recordRead a, val)

/-- The loop of `tm_read` over the words of the range. -/
def readWords (S : Setup V) (sh : Shared V) :
    List Addr → Transaction V → Option (Transaction V × List V)
  | [], txn => some (txn, [])
  | a :: todo, txn =>
    match readWord S sh txn a with
    | none => none
    | some (txn, val) => (readWords S sh todo txn).map fun res => (res.1, val :: res.2)

/-- `tm_read` on the words of a range. -/
def tmRead (S : Setup V) (r : Region V) (txn : Transaction V) (addrs : List Addr) :
    Region V × Option (Transaction V × List V) :=
  match readWords S r.shared addrs txn with
  | none => (r.deleteTxn txn, none)
  | some res => (r, some res)

/-- `tm_write` on the words of a range, with the words to be written. -/
def tmWrite (txn : Transaction V) (entries : List (Addr × V)) : Transaction V :=
  { txn with writeSet := entries.foldl (fun ws e => ws.insert e.1 e.2) txn.writeSet }

/-! ## Ending a transaction -/

/-- The locking loop of `tm_end`: whether it ran to its end, the lock words and `locks_held`. -/
def lockWriteSet (S : Setup V) : List (Addr × V) → (LockId → Word) → UnorderedSet LockId →
    Bool × (LockId → Word) × UnorderedSet LockId
  | [], locks, held => (true, locks, held)
  | e :: todo, locks, held =>
    let l := S.lockOf e.1
    match lock (locks l) with
    -- the compare-exchange has set the lock bit
    | some w => lockWriteSet S todo (Function.update locks l w) (held.insert l)
    -- a lock that an earlier address of the write set has taken is no obstacle
    | none => if l ∈ held then lockWriteSet S todo locks (held.insert l) else (false, locks, held)

/-- The rollback loops of `tm_end`. -/
def unlockAll : List LockId → (LockId → Word) → LockId → Word
  | [], locks => locks
  | l :: todo, locks => unlockAll todo (Function.update locks l (unlockValue (locks l)))

/-- The validation loop of `tm_end`. -/
def validateReadSet (S : Setup V) (locks : LockId → Word) (held : UnorderedSet LockId)
    (rv : Version) : List Addr → Bool
  | [] => true
  | a :: todo =>
    let l := S.lockOf a
    -- a lock held by the transaction itself is not counted as taken
    if l ∉ held ∧ isLocked (locks l) = true ∨ rv < getVersion (locks l) then false
    else validateReadSet S locks held rv todo

/-- The write-back loop of `tm_end`. -/
def writeBack (S : Setup V) (wv : Version) : List (Addr × V) → Shared V → Shared V
  | [], sh => sh
  | e :: todo, sh => writeBack S wv todo { sh with
      mem := Function.update sh.mem e.1 e.2
      locks := Function.update sh.locks (S.lockOf e.1) (setVersion wv) }

/-- `tm_end` of the transaction with handle `t`. -/
def tmEnd (S : Setup V) (t : Tid) (r : Region V) (txn : Transaction V) : Bool × Region V :=
  if txn.isRo then (true, r.deleteTxn txn)
  else
    let entries := txn.writeSet.toList (S.writeOrder t)
    let (locked, locks, held) := lockWriteSet S entries r.shared.locks ∅
    let undone := unlockAll (held.toList (S.heldOrder t)) locks
    if locked = false then
      (false, { r with shared := { r.shared with locks := undone } }.deleteTxn txn)
    else
      -- `fetch_add`: the clock stays advanced if the validation fails
      let wv := r.shared.gvc + 1
      -- the validation is skipped if nothing was committed since `tm_begin`
      if txn.rv + 1 ≠ wv ∧
          validateReadSet S locks held txn.rv (txn.readSet.toList (S.readOrder t)) = false then
        (false, { r with
          shared := { r.shared with gvc := wv, locks := undone } }.deleteTxn txn)
      else
        (true, { r with
          shared := writeBack S wv entries { r.shared with gvc := wv, locks } }.commitTxn txn)

end TransactionalMemory
