import Mathlib.Data.Finset.Basic
import Mathlib.Logic.Function.Basic
import TransactionalMemory.DataStructures
import TransactionalMemory.Foundations.LabelledSystem

/-!
# The atomic-step machine

Any number of transactions of one region run concurrently, and the machine interleaves their
atomic steps: each load, compare-exchange, fetch-add and store on the clock or on a lock word is
one step, and so is each one-word `memcpy` from or to shared memory. The control points of
`tm_read` and `tm_end` (`394984/tm.cpp`) are the constructors of `Pc`; a step executes the code
from one atomic access up to the next, so a control point names the access about to happen.

* `Tx` is a transaction with the local variables of the call in progress and three history
  variables, which no step reads: the words it accepted from shared memory, the addresses it
  accessed, and the locks it owns (taken by its compare-exchange and not yet cleared by one of
  its own stores).
* `Tx.act` is the effect of one command on a transaction and on the shared state. `Move` lists
  the same transitions one by one, and `move_of_act` is the inversion lemma all invariants use.
* `machine` is the labelled system. The clock is shared with every other region of the process,
  so the label `otherRegion` advances it as well.
-/

namespace TransactionalMemory

open VersionedWriteLock

variable {V : Type}

/-- The control points of a transaction. -/
inductive Pc (V : Type) where
  /-- `tm_begin` has not been called. -/
  | unborn
  /-- Between two calls. -/
  | idle
  /-- `tm_read` or `tm_end` returned false. -/
  | aborted
  /-- `tm_end` returned true. -/
  | committed
  /-- `tm_read`: the pre-validation of the next word loads the lock word for its version. -/
  | read (todo : List Addr)
  /-- `tm_read`: the pre-validation loads the lock word again, for its lock bit. -/
  | readPreLocked (a : Addr) (todo : List Addr) (version : Word)
  /-- `tm_read`: one word is copied. -/
  | readCopy (a : Addr) (todo : List Addr) (version : Word)
  /-- `tm_read`: the post-validation loads the lock word for its version. -/
  | readPostVersion (a : Addr) (todo : List Addr) (version : Word) (val : V)
  /-- `tm_read`: the post-validation loads the lock word again, for its lock bit. -/
  | readPostLocked (a : Addr) (todo : List Addr) (version : Word) (val : V) (newVersion : Word)
  /-- `tm_end`: `lock` loads the lock word of the next address; with no address left, the clock
  is incremented. -/
  | lockLoad (todo : List (Addr × V))
  /-- `tm_end`: the compare-exchange of `lock`. -/
  | lockCas (e : Addr × V) (todo : List (Addr × V)) (expected : Word)
  /-- `tm_end`, giving up: `unlock` loads the next lock word. -/
  | unlockLoad (todo : List LockId)
  /-- `tm_end`, giving up: `unlock` stores the word without its lock bit. -/
  | unlockStore (l : LockId) (todo : List LockId) (current : Word)
  /-- `tm_end`: the validation loads the next lock word for its lock bit, or for its version if
  the lock is held. -/
  | validateLocked (todo : List Addr)
  /-- `tm_end`: the validation loads the lock word for its version. -/
  | validateVersion (a : Addr) (todo : List Addr)
  /-- `tm_end`: the next word is copied to shared memory. -/
  | writeBack (todo : List (Addr × V))
  /-- `tm_end`: `setVersion` stores the write version in the lock of the word just copied. -/
  | publish (e : Addr × V) (todo : List (Addr × V))
  deriving DecidableEq

/-- A transaction in the middle of its run. -/
structure Tx (V : Type) where
  /-- The transaction object. -/
  txn : Transaction V
  /-- The next atomic access. -/
  pc : Pc V
  /-- The local variable `locks_held` of `tm_end`. -/
  locksHeld : UnorderedSet LockId
  /-- The local variable `wv` of `tm_end`. -/
  wv : Version
  /-- History: the words copied from shared memory that passed their post-validation. -/
  seen : List (Addr × V)
  /-- History: the addresses read or written. -/
  accessed : List Addr
  /-- History: the locks whose bit the transaction has set and not cleared. -/
  owned : Finset LockId

/-- A state of the machine. -/
structure State (V : Type) where
  /-- The clock, the lock table and the shared words. -/
  shared : Shared V
  /-- The transactions. -/
  tx : Tid → Tx V

/-- What a transaction can be told to do: a call, or the next atomic access of the call in
progress. A call to `tm_read` is given the addresses of the words of its range, and `tm_write`
buffers one word at a time. -/
inductive Command (V : Type) where
  | begin (isRo : Bool)
  | read (addrs : List Addr)
  | write (a : Addr) (val : V)
  | endTx
  | step

/-- A label of the machine: a command of one transaction, or a commit attempt in another region
that advances the clock. -/
inductive Label (V : Type) where
  | tx (t : Tid) (c : Command V)
  | otherRegion

namespace Tx

/-- A transaction before `tm_begin`. -/
def unborn : Tx V where
  txn := Transaction.create 0 false
  pc := .unborn
  locksHeld := ∅
  wv := 0
  seen := []
  accessed := []
  owned := ∅

/-- Whether one iteration of `tm_read` copies the word from shared memory. -/
def ReadsShared (x : Tx V) (a : Addr) : Prop := x.txn.isRo = true ∨ a ∉ x.txn.writeSet

instance (x : Tx V) (a : Addr) : Decidable (x.ReadsShared a) :=
  inferInstanceAs (Decidable (_ ∨ _))

/-- The end of one successful iteration of `tm_read`. -/
def acceptWord (x : Tx V) (a : Addr) (val : V) (todo : List Addr) : Tx V :=
  { x with
    txn := x.txn.recordRead a
    seen := if x.ReadsShared a then x.seen ++ [(a, val)] else x.seen
    pc := .read todo }

/-- The cleanup of `tm_end` before it returns false: every held lock is unlocked. -/
def giveUp (S : Setup V) (t : Tid) (x : Tx V) : Tx V :=
  { x with pc := .unlockLoad (x.locksHeld.toList (S.heldOrder t)) }

/-- The start of the write-back loop of `tm_end`. -/
def startWriteBack (S : Setup V) (t : Tid) (x : Tx V) : Tx V :=
  { x with pc := .writeBack (x.txn.writeSet.toList (S.writeOrder t)) }

/-- The version test of one validation step of `tm_end`. -/
def checkVersion (S : Setup V) (t : Tid) (sh : Shared V) (x : Tx V) (a : Addr)
    (todo : List Addr) : Tx V :=
  if x.txn.rv < getVersion (sh.locks (S.lockOf a)) then x.giveUp S t
  else { x with pc := .validateLocked todo }

/-- One atomic access of the call in progress. -/
def step (S : Setup V) (t : Tid) (sh : Shared V) (x : Tx V) : Option (Shared V × Tx V) :=
  match x.pc with
  | .unborn | .idle | .aborted | .committed => none
  -- `tm_read`
  | .read [] => some (sh, { x with pc := .idle })
  | .read (a :: todo) =>
    some (sh, { x with
      pc := .readPreLocked a todo (getVersion (sh.locks (S.lockOf a)))
      accessed := a :: x.accessed })
  | .readPreLocked a todo version =>
    -- `version` is from the earlier load, the lock bit is loaded now
    if isLocked (sh.locks (S.lockOf a)) ∨ x.txn.rv < version then
      some (sh, { x with pc := .aborted })
    else some (sh, { x with pc := .readCopy a todo version })
  | .readCopy a todo version =>
    -- the copy is from the write set if the transaction has written the word itself
    some (sh, { x with pc := .readPostVersion a todo version (x.txn.wordAt sh.mem a) })
  | .readPostVersion a todo version val =>
    some (sh, { x with
      pc := .readPostLocked a todo version val (getVersion (sh.locks (S.lockOf a))) })
  | .readPostLocked a todo version val newVersion =>
    -- only the loop of a read-only transaction compares the second version with `rv`
    if isLocked (sh.locks (S.lockOf a)) ∨ newVersion ≠ version ∨
        x.txn.isRo = true ∧ x.txn.rv < newVersion then
      some (sh, { x with pc := .aborted })
    else some (sh, x.acceptWord a val todo)
  -- `tm_end`, locking the write set
  | .lockLoad (e :: todo) =>
    some (sh, { x with pc := .lockCas e todo (lockExpected (sh.locks (S.lockOf e.1))) })
  | .lockCas e todo expected =>
    let l := S.lockOf e.1
    match compareExchange (sh.locks l) expected (lockDesired expected) with
    | some w =>
      some ({ sh with locks := Function.update sh.locks l w },
        { x with
          pc := .lockLoad todo
          locksHeld := x.locksHeld.insert l
          owned := insert l x.owned })
    | none =>
      -- `lock` also fails on a lock that an earlier address of the write set has taken
      if l ∈ x.locksHeld then
        some (sh, { x with pc := .lockLoad todo, locksHeld := x.locksHeld.insert l })
      else some (sh, x.giveUp S t)
  -- `tm_end`, rolling back
  | .unlockLoad [] => some (sh, { x with pc := .aborted })
  | .unlockLoad (l :: todo) => some (sh, { x with pc := .unlockStore l todo (sh.locks l) })
  | .unlockStore l todo current =>
    some ({ sh with locks := Function.update sh.locks l (unlockValue current) },
      { x with pc := .unlockLoad todo, owned := x.owned.erase l })
  -- `tm_end`, advancing the clock and validating the read set
  | .lockLoad [] =>
    let wv := sh.gvc + 1
    some ({ sh with gvc := sh.gvc + 1 },
      -- the validation is skipped if nobody advanced the clock since `tm_begin`
      if x.txn.rv + 1 ≠ wv then
        { x with wv, pc := .validateLocked (x.txn.readSet.toList (S.readOrder t)) }
      else { x with wv }.startWriteBack S t)
  | .validateLocked [] => some (sh, x.startWriteBack S t)
  | .validateLocked (a :: todo) =>
    -- the lock bit of an own lock is not looked at, so the access is the load of the version
    if S.lockOf a ∈ x.locksHeld then some (sh, x.checkVersion S t sh a todo)
    else if isLocked (sh.locks (S.lockOf a)) then some (sh, x.giveUp S t)
    else some (sh, { x with pc := .validateVersion a todo })
  | .validateVersion a todo => some (sh, x.checkVersion S t sh a todo)
  -- `tm_end`, writing back
  | .writeBack [] => some (sh, { x with pc := .committed })
  | .writeBack (e :: todo) =>
    some ({ sh with mem := Function.update sh.mem e.1 e.2 }, { x with pc := .publish e todo })
  | .publish e todo =>
    some ({ sh with locks := Function.update sh.locks (S.lockOf e.1) (setVersion x.wv) },
      { x with pc := .writeBack todo, owned := x.owned.erase (S.lockOf e.1) })

/-- The effect of a command. Calls are made between calls only, and never on a finished
transaction. -/
def act (S : Setup V) (t : Tid) (sh : Shared V) (x : Tx V) :
    Command V → Option (Shared V × Tx V)
  | .begin isRo =>
    match x.pc with
    | .unborn => some (sh, { x with txn := Transaction.create sh.gvc isRo, pc := .idle })
    | _ => none
  | .read addrs =>
    match x.pc with
    | .idle => some (sh, { x with pc := .read addrs })
    | _ => none
  | .write a val =>
    match x.pc with
    | .idle =>
      some (sh, { x with
        txn := { x.txn with writeSet := x.txn.writeSet.insert a val }
        accessed := a :: x.accessed })
    | _ => none
  | .endTx =>
    match x.pc with
    | .idle =>
      if x.txn.isRo then some (sh, { x with pc := .committed })
      else some (sh, { x with
        pc := .lockLoad (x.txn.writeSet.toList (S.writeOrder t)), locksHeld := ∅ })
    | _ => none
  | .step => x.step S t sh

end Tx

/-- The machine: no transaction has begun, all locks are free with version zero, and every word
is zero. -/
def machine [Zero V] (S : Setup V) : LabelledSystem (State V) (Label V) where
  init := { shared := { gvc := 0, locks := fun _ => 0, mem := fun _ => 0 }, tx := fun _ => .unborn }
  step s
    | .tx t c => ((s.tx t).act S t s.shared c).map fun r =>
        { shared := r.1, tx := Function.update s.tx t r.2 }
    -- `gvc` is a global variable
    | .otherRegion => some { s with shared := { s.shared with gvc := s.shared.gvc + 1 } }

end TransactionalMemory
