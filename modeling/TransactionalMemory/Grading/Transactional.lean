import TransactionalMemory.Reference

/-!
# Transactions of the grading program

The class `Transaction` and the function `transactional` of `grading/transactional.hpp`, for any
transactional library: a library is what its functions answer and do to a state of its own, so it
may refuse whenever it likes. A closure is a program of operations on the transaction whose next
operation may depend on the answers so far; it does not catch exceptions.

An operation that fails throws, and the exception leaves the closure. On its way out of
`transactional` the destructor of the transaction runs, as it does when the closure returns, and
calls `tm_end` unless the transaction is marked as aborted. When it throws during the propagation of
another exception, the program is terminated.
-/

namespace TransactionalMemory.Grading

/-- Allocation status. -/
inductive Alloc where
  | success (target : Addr)
  | abort
  | nomem

/-- The functions of a transactional library on its state, bound to one shared memory region. -/
structure TransactionalLibrary (σ TX : Type) where
  /-- `tm_begin`: the transaction handle, if it is not the invalid one. -/
  tmBegin : (isRo : Bool) → σ → Option TX × σ
  /-- `tm_end`: whether the whole transaction committed. -/
  tmEnd : TX → σ → Bool × σ
  /-- `tm_read`: what was copied, if the whole transaction can continue. -/
  tmRead : TX → (source : Addr) → (size : ℕ) → σ → Option (List Byte) × σ
  /-- `tm_write`: whether the whole transaction can continue. -/
  tmWrite : TX → (source : List Byte) → (target : Addr) → σ → Bool × σ
  /-- `tm_alloc`. -/
  tmAlloc : TX → (size : ℕ) → σ → Alloc × σ
  /-- `tm_free`: whether the whole transaction can continue. -/
  tmFree : TX → (target : Addr) → σ → Bool × σ

/-- Whether to enable more safety checks. -/
def assertMode : Bool := false

/-- The exceptions that a transaction throws. -/
inductive Exception where
  | transactionReadOnly
  | transactionBegin
  | transactionAlloc
  | transactionRetry
  deriving DecidableEq

/-- Transaction mode class. -/
inductive Transaction.Mode where
  | readWrite
  | readOnly

/-- The cast of the mode to a Boolean. -/
def Transaction.Mode.isRo : Mode → Bool
  | .readWrite => false
  | .readOnly => true

/-- A transaction object. -/
structure Transaction (TX : Type) where
  /-- Opaque transaction handle. -/
  tx : TX
  /-- Transaction was aborted. -/
  aborted : Bool
  /-- Whether the transaction is read-only (solely for assertion). -/
  isRo : Bool

variable {σ TX α β : Type}

namespace Transaction

/-- What an operation ends with: an answer or an exception, and the states of the transaction object
and of the library. -/
abbrev Effect (σ TX β : Type) := Except Exception β × Transaction TX × σ

/-- Read operation in the bound transaction. -/
def read (lib : TransactionalLibrary σ TX) (txn : Transaction TX) (source : Addr) (size : ℕ)
    (s : σ) : Effect σ TX (List Byte) :=
  match lib.tmRead txn.tx source size s with
  | (some target, s) => (.ok target, txn, s)
  | (none, s) => (.error .transactionRetry, { txn with aborted := true }, s)

/-- Write operation in the bound transaction. -/
def write (lib : TransactionalLibrary σ TX) (txn : Transaction TX) (source : List Byte)
    (target : Addr) (s : σ) : Effect σ TX Unit :=
  -- the check is only compiled in when `assertMode` is set
  if assertMode && txn.isRo then (.error .transactionReadOnly, txn, s)
  else match lib.tmWrite txn.tx source target s with
    | (true, s) => (.ok (), txn, s)
    | (false, s) => (.error .transactionRetry, { txn with aborted := true }, s)

/-- Memory allocation operation in the bound transaction, throw if no memory available. -/
def alloc (lib : TransactionalLibrary σ TX) (txn : Transaction TX) (size : ℕ) (s : σ) :
    Effect σ TX Addr :=
  if assertMode && txn.isRo then (.error .transactionReadOnly, txn, s)
  else match lib.tmAlloc txn.tx size s with
    | (.success target, s) => (.ok target, txn, s)
    -- the only refusal after which `aborted` stays false
    | (.nomem, s) => (.error .transactionAlloc, txn, s)
    | (.abort, s) => (.error .transactionRetry, { txn with aborted := true }, s)

/-- Memory freeing operation in the bound transaction. -/
def free (lib : TransactionalLibrary σ TX) (txn : Transaction TX) (target : Addr) (s : σ) :
    Effect σ TX Unit :=
  if assertMode && txn.isRo then (.error .transactionReadOnly, txn, s)
  else match lib.tmFree txn.tx target s with
    | (true, s) => (.ok (), txn, s)
    | (false, s) => (.error .transactionRetry, { txn with aborted := true }, s)

/-- End destructor: what `tm_end` returned, if it was called. The destructor throws if `tm_end`
returned false. -/
def destroy (lib : TransactionalLibrary σ TX) (txn : Transaction TX) (s : σ) : Option Bool × σ :=
  -- the library has already dropped an aborted transaction
  if txn.aborted then (none, s)
  else match lib.tmEnd txn.tx s with
    | (committed, s) => (some committed, s)

end Transaction

/-- A transaction closure that returns an `α`. -/
inductive Closure (α : Type) where
  | ret (value : α)
  | read (source : Addr) (size : ℕ) (next : List Byte → Closure α)
  | write (source : List Byte) (target : Addr) (next : Closure α)
  | alloc (size : ℕ) (next : Addr → Closure α)
  | free (target : Addr) (next : Closure α)

/-- Call the closure on a transaction. -/
def Closure.run (lib : TransactionalLibrary σ TX) :
    Closure α → Transaction TX → σ → Transaction.Effect σ TX α
  | .ret value, txn, s => (.ok value, txn, s)
  | .read source size next, txn, s =>
    match txn.read lib source size s with
    | (.ok target, txn, s) => (next target).run lib txn s
    | (.error e, txn, s) => (.error e, txn, s)
  | .write source target next, txn, s =>
    match txn.write lib source target s with
    | (.ok _, txn, s) => next.run lib txn s
    | (.error e, txn, s) => (.error e, txn, s)
  | .alloc size next, txn, s =>
    match txn.alloc lib size s with
    | (.ok target, txn, s) => (next target).run lib txn s
    | (.error e, txn, s) => (.error e, txn, s)
  | .free target next, txn, s =>
    match txn.free lib target s with
    | (.ok _, txn, s) => next.run lib txn s
    | (.error e, txn, s) => (.error e, txn, s)

/-- How `transactional`, or one attempt of it, is left. -/
inductive Outcome (α : Type) where
  | returned (value : α)
  | threw (e : Exception)
  /-- An exception left a destructor while another one was propagated. -/
  | terminated

/-- History: one attempt of `transactional`. -/
structure Attempt (α : Type) where
  /-- What the closure ended with. -/
  result : Except Exception α
  /-- What `tm_end` returned, if it was called. -/
  ended : Option Bool

/-- The body of the loop of `transactional`: the transaction is constructed, the closure is called
on it, and the transaction is destroyed. -/
def attempt (lib : TransactionalLibrary σ TX) (mode : Transaction.Mode) (func : Closure α) (s : σ) :
    Outcome α × Attempt α × σ :=
  match lib.tmBegin mode.isRo s with
  -- the constructor throws, so no destructor runs
  | (none, s) => (.threw .transactionBegin, ⟨.error .transactionBegin, none⟩, s)
  | (some tx, s) =>
    match func.run lib { tx, aborted := false, isRo := mode.isRo } s with
    | (.ok value, txn, s) =>
      -- normal return: the destructor may still throw
      match txn.destroy lib s with
      | (some false, s) => (.threw .transactionRetry, ⟨.ok value, some false⟩, s)
      | (ended, s) => (.returned value, ⟨.ok value, ended⟩, s)
    | (.error e, txn, s) =>
      -- unwinding: a second exception terminates the process
      match txn.destroy lib s with
      | (some false, s) => (.terminated, ⟨.error e, some false⟩, s)
      | (ended, s) => (.threw e, ⟨.error e, ended⟩, s)

/-- Repeat a given transaction until it commits, at most `fuel` times. -/
def transactional (lib : TransactionalLibrary σ TX) (mode : Transaction.Mode) (func : Closure α) :
    ℕ → σ → Option (Outcome α × List (Attempt α) × σ)
  | 0, _ => none
  | fuel + 1, s =>
    match attempt lib mode func s with
    -- only this exception is caught
    | (.threw .transactionRetry, a, s) =>
      (transactional lib mode func fuel s).map fun r => (r.1, a :: r.2.1, r.2.2)
    | (outcome, a, s) => some (outcome, [a], s)

end TransactionalMemory.Grading
