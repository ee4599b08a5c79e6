import Mathlib.Data.List.AList
import TransactionalMemory.Foundations.LabelledSystem

/-!
# The bank workload

The transactions of `WorkloadBank` (`grading/workload.hpp`) as atomic units on the shared memory of
account segments. Balances are unbounded integers.

Every access is checked: it is a `Fault` to access memory that is not a live segment, an account
slot that the segment does not have, or to free the first segment. The segment list is walked by
loops that end only at a null pointer; a walk over more segments than there are visits one of them
twice and never ends, which is a fault as well.
-/

namespace TransactionalMemory.Grading

/-- The address of an account segment. -/
abbrev Ptr := ℕ

/-- A balance. -/
abbrev Balance := ℤ

/-- An account segment: a record in shared memory. -/
structure AccountSegment where
  /-- Number of allocated accounts in this segment. -/
  count : ℕ
  /-- Next allocated segment. -/
  next : Option Ptr
  /-- Segment balance correction for when deleting an account. -/
  parity : Balance
  /-- Amount of money on the accounts. -/
  accounts : ℕ → Balance

/-- A segment of zeroed memory. -/
def AccountSegment.zeroed : AccountSegment where
  count := 0
  next := none
  parity := 0
  accounts := fun _ => 0

/-- What must not happen. -/
inductive Fault where
  /-- An access through a pointer to no live segment. -/
  | badPointer
  /-- An access to an account slot at an index from `nbaccounts` on. -/
  | badSlot
  /-- The first segment, or no live segment, is freed. -/
  | badFree
  /-- A walk along the segment list does not end. -/
  | endless
  deriving DecidableEq

/-- The parameters of the workload. -/
structure WorkloadBank where
  /-- Number of accounts per segment. -/
  nbaccounts : ℕ
  /-- Initial account balance. -/
  initBalance : Balance
  /-- The address of the first segment. -/
  start : Ptr

/-- The live segments. -/
abbrev Memory := AList fun _ : Ptr => AccountSegment

/-! ## Accesses -/

/-- The segment at an address. -/
def segmentAt (mem : Memory) (p : Ptr) : Except Fault AccountSegment :=
  match mem.lookup p with
  | some segment => .ok segment
  | none => .error .badPointer

/-- Write fields of the segment at an address. -/
def modifySegment (mem : Memory) (p : Ptr) (f : AccountSegment → AccountSegment) :
    Except Fault Memory := do
  let segment ← segmentAt mem p
  return mem.insert p (f segment)

namespace WorkloadBank

variable (bank : WorkloadBank)

/-- Read an account slot of the segment at an address. -/
def readAccount (mem : Memory) (p : Ptr) (i : ℕ) : Except Fault Balance := do
  let segment ← segmentAt mem p
  -- the segment has room for `nbaccounts` accounts, whatever its `count` says
  if i < bank.nbaccounts then return segment.accounts i else throw .badSlot

/-- Write an account slot of the segment at an address. -/
def writeAccount (mem : Memory) (p : Ptr) (i : ℕ) (v : Balance) : Except Fault Memory :=
  if i < bank.nbaccounts then
    modifySegment mem p fun segment =>
      { segment with accounts := Function.update segment.accounts i v }
  else throw .badSlot

/-- `Shared<Type*>::free`: free the next segment and write a null pointer. -/
def freeNext (mem : Memory) (p : Ptr) : Except Fault Memory := do
  let segment ← segmentAt mem p
  match segment.next with
  | none => throw .badFree
  | some q =>
    -- the first segment was not allocated by a transaction
    if q = bank.start ∨ q ∉ mem then throw .badFree
    else modifySegment (mem.erase q) p fun segment => { segment with next := none }

/-- `Shared<Type*>::alloc`: the allocator returns the block, zeroed, whose address is written. -/
def allocNext (mem : Memory) (p block : Ptr) : Except Fault Memory :=
  modifySegment (mem.insert block .zeroed) p fun segment => { segment with next := some block }

/-! ## The transactions -/

/-- The loop of `init` over the accounts, from index `i` on. -/
def initLoop (mem : Memory) : ℕ → ℕ → Except Fault Memory
  | 0, _ => return mem
  | todo + 1, i => do
    let mem ← bank.writeAccount mem bank.start i bank.initBalance
    initLoop mem todo (i + 1)

/-- `init`: fill the first segment, then check the first account. -/
def initTx (mem : Memory) : Except Fault (Bool × Memory) := do
  let mem ← modifySegment mem bank.start fun segment => { segment with count := bank.nbaccounts }
  let mem ← bank.initLoop mem bank.nbaccounts 0
  let first ← bank.readAccount mem bank.start 0
  return (first == bank.initBalance, mem)

/-- The loop of `long_tx` over the accounts of a segment, from index `i` on: `none` if one of them
has a negative balance. -/
def sumAccounts (mem : Memory) (p : Ptr) : ℕ → ℕ → Balance → Except Fault (Option Balance)
  | 0, _, sum => return some sum
  | todo + 1, i, sum => do
    let balance ← bank.readAccount mem p i
    if balance < 0 then return none else sumAccounts mem p todo (i + 1) (sum + balance)

/-- The loop of `long_tx` over the segments, with the accounts and the balance seen so far. -/
def longLoop (mem : Memory) : ℕ → Option Ptr → ℕ → Balance → Except Fault (Option (ℕ × Balance))
  | _, none, count, sum => return some (count, sum)
  | 0, some _, _, _ => throw .endless
  | fuel + 1, some start, count, sum => do
    let segment ← segmentAt mem start
    -- the parity is added before the accounts
    match ← bank.sumAccounts mem start segment.count 0 (sum + segment.parity) with
    | none => return none
    | some sum => longLoop mem fuel segment.next (count + segment.count) sum

/-- `long_tx`: whether the balances are consistent, and the new value of `nbaccounts`. -/
def longTx (mem : Memory) (nbaccounts : ℕ) : Except Fault (Bool × ℕ) := do
  match ← bank.longLoop mem mem.keys.length (some bank.start) 0 0 with
  | none => return (false, nbaccounts)
  | some (count, sum) => return (sum == bank.initBalance * count, count)

/-- A segment and the index of an account in it. -/
abbrev Slot := Ptr × ℕ

/-- One iteration of `short_tx` for one of its two accounts: the index that remains and the slot,
once found. -/
def resolve (start : Ptr) (segmentCount : ℕ) : ℕ × Option Slot → ℕ × Option Slot
  | (id, some slot) => (id, some slot)
  | (id, none) => if id < segmentCount then (id, some (start, id)) else (id - segmentCount, none)

/-- The loop of `short_tx`. It is left as soon as both accounts are found; the code looks for this
after each of the two searches, which comes to the same. -/
def shortLoop (mem : Memory) :
    ℕ → Ptr → ℕ × Option Slot → ℕ × Option Slot → Except Fault (Option (Slot × Slot))
  | 0, _, _, _ => throw .endless
  | fuel + 1, start, send, recv => do
    let segment ← segmentAt mem start
    let send := resolve start segment.count send
    let recv := resolve start segment.count recv
    match send.2, recv.2 with
    | some sender, some recver => return some (sender, recver)
    | _, _ =>
      match segment.next with
      | none => return none
      | some next => shortLoop mem fuel next send recv

/-- `short_tx`: transfer one unit. -/
def shortTx (mem : Memory) (sendId recvId : ℕ) : Except Fault (Bool × Memory) := do
  match ← shortLoop mem mem.keys.length bank.start (sendId, none) (recvId, none) with
  | none => return (false, mem)
  | some (sender, recver) =>
    let sendVal ← bank.readAccount mem sender.1 sender.2
    if sendVal > 0 then
      let mem ← bank.writeAccount mem sender.1 sender.2 (sendVal - 1)
      -- read after the write: both accounts may be the same
      let recvVal ← bank.readAccount mem recver.1 recver.2
      let mem ← bank.writeAccount mem recver.1 recver.2 (recvVal + 1)
      return (true, mem)
    else return (true, mem)

/-- The body of `alloc_tx` at the last segment, after `count` accounts have been seen. -/
def changeLast (mem : Memory) (trigger : ℕ) (block : Ptr) (prev : Option Ptr) (start : Ptr)
    (count : ℕ) : Except Fault Memory := do
  let segment ← segmentAt mem start
  -- the last account is removed
  if count > trigger ∧ count > 2 then
    match segment.count with
    -- `--segment_count` wraps around
    | 0 => throw .badSlot
    | segmentCount + 1 =>
      let balance ← bank.readAccount mem start segmentCount
      let newParity := segment.parity + balance - bank.initBalance
      -- the segment keeps other accounts
      if segmentCount > 0 then
        let mem ← modifySegment mem start fun segment => { segment with count := segmentCount }
        modifySegment mem start fun segment => { segment with parity := newParity }
      else
        -- the segment is empty now: it is freed, and the previous one takes over its parity
        match prev with
        | none => throw .badPointer
        | some prev =>
          let mem ← bank.freeNext mem prev
          modifySegment mem prev fun segment =>
            { segment with parity := segment.parity + newParity }
  -- the segment has room for one more account
  else if segment.count < bank.nbaccounts then
    let mem ← bank.writeAccount mem start segment.count bank.initBalance
    modifySegment mem start fun segment' => { segment' with count := segment.count + 1 }
  else
    -- a new segment is needed
    let mem ← allocNext mem start block
    let mem ← modifySegment mem block fun segment => { segment with count := 1 }
    bank.writeAccount mem block 0 bank.initBalance

/-- The loop of `alloc_tx`. -/
def allocLoop (mem : Memory) (trigger : ℕ) (block : Ptr) :
    ℕ → Option Ptr → Ptr → ℕ → Except Fault Memory
  | 0, _, _, _ => throw .endless
  | fuel + 1, prev, start, count => do
    let segment ← segmentAt mem start
    let count := count + segment.count
    match segment.next with
    | none => bank.changeLast mem trigger block prev start count
    | some next => allocLoop mem trigger block fuel (some start) next count

/-- `alloc_tx`, with the block that the allocator would return. -/
def allocTx (mem : Memory) (trigger : ℕ) (block : Ptr) : Except Fault Memory :=
  bank.allocLoop mem trigger block mem.keys.length none bank.start 0

end WorkloadBank

/-! ## Runs -/

/-- A transaction that changes the shared memory. -/
inductive BankCall where
  | init
  | shortTx (sendId recvId : ℕ)
  | allocTx (trigger : ℕ) (block : Ptr)

/-- One transaction, until a fault. A block that the allocator returns is not in use. -/
def bankStep (bank : WorkloadBank) : Except Fault Memory → BankCall → Option (Except Fault Memory)
  | .error _, _ => none
  | .ok mem, .init => some (Prod.snd <$> bank.initTx mem)
  | .ok mem, .shortTx sendId recvId => some (Prod.snd <$> bank.shortTx mem sendId recvId)
  | .ok mem, .allocTx trigger block =>
    if block ∈ mem then none else some (bank.allocTx mem trigger block)

/-- The runs on zeroed memory. -/
def bankRuns (bank : WorkloadBank) : LabelledSystem (Except Fault Memory) BankCall where
  init := .ok (AList.singleton bank.start .zeroed)
  step := bankStep bank

end TransactionalMemory.Grading
