import Mathlib.Data.Finset.Basic
import TransactionalMemory.Foundations.LabelledSystem
import TransactionalMemory.Reference

/-!
# The reference implementation under its lock

Transactions of `reference/tm.c` that run at the same time. They take the lock of the region in
`tm_begin`, exclusively unless they are read-only, and release it in `tm_end`; in between nothing
protects the shared memory but the lock. The `memcpy` of `tm_read` and `tm_write` copies byte by
byte, and other transactions may take steps between two bytes.

The lock of `reference/shared-lock.c` is a `pthread_rwlock_t`, modelled by who holds it. An
acquisition that returns an error leaves everything as it is.
-/

namespace TransactionalMemory.Reference

/-! ## The lock -/

/-- A lock that can be taken exclusively but also shared: who holds it. -/
structure SharedLock where
  /-- The transaction with exclusive access. -/
  writer : Option Tid
  /-- The transactions with shared access. -/
  readers : Finset Tid

namespace SharedLock

/-- `shared_lock_acquire`, which waits until it can take the lock. -/
def acquire (lock : SharedLock) (t : Tid) : Option SharedLock :=
  if lock.writer = none ∧ lock.readers = ∅ then some { lock with writer := some t } else none

/-- `shared_lock_acquire_shared`, which waits until it can take the lock. -/
def acquireShared (lock : SharedLock) (t : Tid) : Option SharedLock :=
  if lock.writer = none then some { lock with readers := insert t lock.readers } else none

/-- `pthread_rwlock_unlock`, by which both `shared_lock_release` and `shared_lock_release_shared`
are implemented. -/
def unlock (lock : SharedLock) (t : Tid) : SharedLock where
  writer := if lock.writer = some t then none else lock.writer
  readers := lock.readers.erase t

end SharedLock

/-! ## The transactions -/

/-- The transaction handles `read_only_tx` and `read_write_tx`. -/
inductive TxHandle where
  | readOnly
  | readWrite
  deriving DecidableEq

/-- A call on an open transaction other than `tm_end`. -/
inductive Access where
  | read (source : Addr) (size : ℕ)
  | write (target : Addr) (data : List Byte)
  | alloc (segment : Segment)
  | free (segment : Addr)

/-- What a call returns, besides that it succeeded. -/
inductive Access.Reply where
  | done
  | bytes (data : List Byte)
  | address (a : Addr)

/-- A call as a whole. -/
def Access.perform (junk : Addr → Byte) (r : Region) : Access → Region × Access.Reply
  | .read source size => (r, .bytes (tmRead r source size))
  | .write target data => (tmWrite r target data, .done)
  | .alloc segment => (tmAlloc r segment, .address segment.start)
  | .free segment => (tmFree junk r segment, .done)

/-- What an open transaction is doing. -/
inductive Activity where
  /-- Between two calls. -/
  | idle
  /-- `tm_read`: `memcpy` has copied some bytes. -/
  | reading (source : Addr) (size : ℕ) (copied : List Byte)
  /-- `tm_write`: `memcpy` has copied the first bytes of `data`. -/
  | writing (target : Addr) (data : List Byte) (copied : ℕ)

/-- A transaction. -/
inductive TxState where
  | unborn
  | running (handle : TxHandle) (activity : Activity)
  | ended

/-- The region, its lock and the transactions. -/
structure LockedState where
  /-- The region, apart from its lock. -/
  region : Region
  /-- Global (coarse-grained) lock. -/
  lock : SharedLock
  /-- The transactions. -/
  tx : Tid → TxState
  /-- History: the transactions that have begun, in this order. -/
  begun : List Tid
  /-- History: the calls of each transaction that have returned, with their replies. -/
  log : Tid → List (Access × Access.Reply)

namespace LockedState

/-- Let a transaction go on. -/
def goOn (s : LockedState) (t : Tid) (x : TxState) : LockedState :=
  { s with tx := Function.update s.tx t x }

/-- Let a call of a transaction return. -/
def reply (s : LockedState) (t : Tid) (handle : TxHandle) (c : Access) (r : Access.Reply) :
    LockedState :=
  { s with
    tx := Function.update s.tx t (.running handle .idle)
    log := Function.update s.log t (s.log t ++ [(c, r)]) }

section GoOn

variable {s : LockedState} {t u : Tid} {x : TxState} {handle : TxHandle} {c : Access}
  {r : Access.Reply}

/-- A transaction that goes on leaves the region alone. -/
@[simp] theorem goOn_region : (s.goOn t x).region = s.region := rfl

/-- It leaves the lock alone. -/
@[simp] theorem goOn_lock : (s.goOn t x).lock = s.lock := rfl

/-- It leaves the order of the transactions alone. -/
@[simp] theorem goOn_begun : (s.goOn t x).begun = s.begun := rfl

/-- It adds nothing to a log. -/
@[simp] theorem goOn_log : (s.goOn t x).log = s.log := rfl

/-- It is where it has gone. -/
@[simp] theorem goOn_tx_self : (s.goOn t x).tx t = x := Function.update_self ..

/-- The other transactions stay where they are. -/
@[simp] theorem goOn_tx_of_ne (h : u ≠ t) : (s.goOn t x).tx u = s.tx u :=
  Function.update_of_ne h ..

/-- A reply leaves the region alone. -/
@[simp] theorem reply_region : (s.reply t handle c r).region = s.region := rfl

/-- It leaves the lock alone. -/
@[simp] theorem reply_lock : (s.reply t handle c r).lock = s.lock := rfl

/-- It leaves the order of the transactions alone. -/
@[simp] theorem reply_begun : (s.reply t handle c r).begun = s.begun := rfl

/-- It is added to the log of its transaction. -/
@[simp] theorem reply_log_self : (s.reply t handle c r).log t = s.log t ++ [(c, r)] :=
  Function.update_self ..

/-- The other logs stay as they are. -/
@[simp] theorem reply_log_of_ne (h : u ≠ t) : (s.reply t handle c r).log u = s.log u :=
  Function.update_of_ne h ..

/-- Its transaction may call the next function. -/
@[simp] theorem reply_tx_self : (s.reply t handle c r).tx t = .running handle .idle :=
  Function.update_self ..

/-- The other transactions stay where they are. -/
@[simp] theorem reply_tx_of_ne (h : u ≠ t) : (s.reply t handle c r).tx u = s.tx u :=
  Function.update_of_ne h ..

end GoOn

/-- `tm_begin`. -/
def tmBegin (s : LockedState) (t : Tid) (isRo : Bool) : Option LockedState :=
  match s.tx t with
  | .unborn =>
    if isRo then
      (s.lock.acquireShared t).map fun lock =>
        { s with lock, begun := s.begun ++ [t] }.goOn t (.running .readOnly .idle)
    else
      (s.lock.acquire t).map fun lock =>
        { s with lock, begun := s.begun ++ [t] }.goOn t (.running .readWrite .idle)
  | _ => none

/-- A call is made. Only a read-write transaction may write, allocate and free. -/
def access (junk : Addr → Byte) (s : LockedState) (t : Tid) (c : Access) : Option LockedState :=
  match s.tx t, c with
  | .running handle .idle, .read source size =>
    some (s.goOn t (.running handle (.reading source size [])))
  | .running .readWrite .idle, .write target data =>
    some (s.goOn t (.running .readWrite (.writing target data 0)))
  | .running .readWrite .idle, .alloc segment =>
    some ({ s with region := tmAlloc s.region segment }.reply t .readWrite (.alloc segment)
      (.address segment.start))
  | .running .readWrite .idle, .free segment =>
    some ({ s with region := tmFree junk s.region segment }.reply t .readWrite (.free segment)
      .done)
  | _, _ => none

/-- `memcpy` copies one byte, or the call returns. -/
def copy (s : LockedState) (t : Tid) : Option LockedState :=
  match s.tx t with
  | .running handle (.reading source size copied) =>
    if copied.length < size then
      some (s.goOn t (.running handle
        (.reading source size (copied ++ [s.region.mem (source + copied.length)]))))
    else some (s.reply t handle (.read source size) (.bytes copied))
  | .running handle (.writing target data copied) =>
    match data[copied]? with
    | some byte =>
      some ({ s with region := tmWrite s.region (target + copied) [byte] }.goOn t
        (.running handle (.writing target data (copied + 1))))
    | none => some (s.reply t handle (.write target data) .done)
  | _ => none

/-- `tm_end`. Both handles lead to the same release. -/
def tmEnd (s : LockedState) (t : Tid) : Option LockedState :=
  match s.tx t with
  | .running _ .idle => some ({ s with lock := s.lock.unlock t }.goOn t .ended)
  | _ => none

end LockedState

/-- A call of a transaction, or a step of its `memcpy`. -/
inductive LockedLabel where
  | begin (t : Tid) (isRo : Bool)
  | access (t : Tid) (c : Access)
  | copy (t : Tid)
  | endTx (t : Tid)

/-- Any number of transactions on a region. -/
def lockedSystem (junk : Addr → Byte) (region : Region) :
    LabelledSystem LockedState LockedLabel where
  init := {
    region
    lock := { writer := none, readers := ∅ }
    tx := fun _ => .unborn
    begun := []
    log := fun _ => [] }
  step s
    | .begin t isRo => s.tmBegin t isRo
    | .access t c => s.access junk t c
    | .copy t => s.copy t
    | .endTx t => s.tmEnd t

end TransactionalMemory.Reference
