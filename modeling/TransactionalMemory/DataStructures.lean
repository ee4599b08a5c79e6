import Mathlib.Data.Nat.Bitwise
import TransactionalMemory.Foundations.Unordered

/-!
# Lock words, transactions and shared memory

The data model of `394984/data-structures.hpp` and the operations on one lock word of
`394984/data-structures.cpp`.

A `VersionedWriteLock` is one 64-bit word: the version in the upper 63 bits and the lock bit in
bit 0. The atomic operations of its methods are modelled on that word, so that `lock` and
`unlock` can be run both as one call and as their two atomic steps each:

* `lockExpected`, `lockDesired`, `compareExchange`: the operands and the effect of the
  compare-exchange in `lock`;
* `unlockValue`: the word `unlock` stores, obtained through the mask `~1u`;
* `getVersion`, `isLocked`, `setVersion`.

The proofs below reduce all of them to `versionOf` (a number) and `isLocked` (a bit), which
together determine the word (`word_ext`). `unlockValue` keeps a version only modulo `2 ^ 31`:
its mask is a 32-bit constant.

## Main results

* `lock_eq_some_iff`: `lock` succeeds exactly on a clear lock bit;
* `versionOf_unlockValue`: what is left of a version after `unlock`.
-/

namespace TransactionalMemory

/-- A machine word, `uintptr_t`. -/
abbrev Word := BitVec 64

/-- A version of the global clock, `uint64_t`. -/
abbrev Version := BitVec 64

/-- A byte address, `char*`. -/
abbrev Addr := ℕ

/-- A position in the lock table `region->locks`. -/
abbrev LockId := ℕ

/-- A transaction handle, `tx_t`. -/
abbrev Tid := ℕ

/-- A segment handed out by `tm_alloc`, named by the number of the allocation: an address can be
handed out again after `free`, a number cannot. -/
abbrev SegId := ℕ

/-- The number of locks in a region. -/
def NUM_LOCKS : ℕ := 10000

/-- The lock protecting an address, `(word)target_addr % NUM_LOCKS`. -/
def lockIndex (a : Addr) : LockId := a % NUM_LOCKS

/-! ## `VersionedWriteLock` -/

namespace VersionedWriteLock

/-- The word `lock` hopes to find: the loaded word with the lock bit clear, `load() & ~1`. -/
def lockExpected (w : Word) : Word := w &&& ~~~1#64

/-- The word `lock` tries to store, `expected | 1`. -/
def lockDesired (expected : Word) : Word := expected ||| 1#64

/-- `compare_exchange_weak` without spurious failures: the new word, or `none` on a mismatch. -/
def compareExchange (w expected desired : Word) : Option Word :=
  if w = expected then some desired else none

/-- `lock` with nothing between its load and its compare-exchange. -/
def lock (w : Word) : Option Word :=
  compareExchange w (lockExpected w) (lockDesired (lockExpected w))

/-- The word stored by `unlock`, `current & ~1u`. The mask is an `unsigned int`, which is
extended with zeros. -/
def unlockValue (current : Word) : Word := current &&& (~~~1#32).zeroExtend 64

/-- The version held in a lock word. -/
def getVersion (w : Word) : Version := w >>> 1

/-- The lock bit of a lock word. -/
def isLocked (w : Word) : Bool := (w &&& 1#64) != 0#64

/-- The word stored by `setVersion`: the given version with a clear lock bit. -/
def setVersion (v : Version) : Word := v <<< 1 ||| 0#64

/-- The version of a lock word, as a number. -/
def versionOf (w : Word) : ℕ := (getVersion w).toNat

/-- The version is in the upper 63 bits. -/
theorem versionOf_eq_div (w : Word) : versionOf w = w.toNat / 2 := by
  simp [versionOf, getVersion, Nat.shiftRight_eq_div_pow]

/-- The lock bit is the lowest bit. -/
theorem isLocked_iff (w : Word) : isLocked w = true ↔ w.toNat % 2 = 1 := by
  have hand : (w &&& 1#64).toNat = w.toNat % 2 := by simp [Nat.and_one_is_mod]
  rw [isLocked, bne_iff_ne, ne_eq, ← BitVec.toNat_inj, hand]
  simp

/-- A free lock has an even word. -/
theorem isLocked_eq_false_iff (w : Word) : isLocked w = false ↔ w.toNat % 2 = 0 := by
  rw [← Bool.not_eq_true, isLocked_iff]
  omega

/-- Masking with an even number clears the lowest bit and masks the others. -/
private theorem and_two_mul (x m : ℕ) : x &&& (2 * m) = 2 * ((x / 2) &&& m) := by
  have hdiv : (x &&& (2 * m)) / 2 = (x / 2) &&& m := by
    -- all bits but the lowest
    rw [Nat.and_div_two, Nat.mul_div_cancel_left _ Nat.two_pos]
  -- the lowest bit
  have hmod : ¬ (x &&& (2 * m)) % 2 = 1 := by
    rw [Nat.and_mod_two_eq_one]
    omega
  omega

/-- `lock` expects the word with its lock bit cleared. -/
theorem lockExpected_toNat (w : Word) : (lockExpected w).toNat = 2 * (w.toNat / 2) := by
  have hmask : (~~~1#64).toNat = 2 * (2 ^ 63 - 1) := by decide
  rw [lockExpected, BitVec.toNat_and, hmask, and_two_mul, Nat.and_two_pow_sub_one_eq_mod]
  omega

/-- `lock` sets the lowest bit. -/
theorem lockDesired_toNat (e : Word) (h : isLocked e = false) :
    (lockDesired e).toNat = e.toNat + 1 := by
  rw [isLocked_eq_false_iff] at h
  have hdiv : (e.toNat ||| 1) / 2 = e.toNat / 2 := by
    rw [Nat.or_div_two]
    simp
  have hmod : (e.toNat ||| 1) % 2 = 1 := by
    rw [Nat.or_mod_two_eq_one]
    omega
  have hor : (lockDesired e).toNat = e.toNat ||| 1 := by simp [lockDesired]
  omega

/-- `unlock` clears the lock bit and the bits from 32 on, as its mask has 32 bits. -/
theorem unlockValue_toNat (w : Word) :
    (unlockValue w).toNat = 2 * (w.toNat / 2 % 2 ^ 31) := by
  have hmask : ((~~~1#32).zeroExtend 64).toNat = 2 * (2 ^ 31 - 1) := by decide
  rw [unlockValue, BitVec.toNat_and, hmask, and_two_mul, Nat.and_two_pow_sub_one_eq_mod]

/-- `setVersion` loses the highest bit of the version. -/
theorem setVersion_toNat (v : Version) : (setVersion v).toNat = 2 * v.toNat % 2 ^ 64 := by
  simp [setVersion, Nat.shiftLeft_eq, Nat.mul_comm]

/-- The version and the lock bit determine the word. -/
theorem word_ext {w w' : Word} (hversion : versionOf w = versionOf w')
    (hlocked : isLocked w = isLocked w') : w = w' := by
  rw [versionOf_eq_div, versionOf_eq_div] at hversion
  apply BitVec.eq_of_toNat_eq
  -- a number is twice its half plus its lowest bit
  cases hw : isLocked w with
  | true =>
    have h := (isLocked_iff w).1 hw
    have h' := (isLocked_iff w').1 (hlocked ▸ hw)
    omega
  | false =>
    have h := (isLocked_eq_false_iff w).1 hw
    have h' := (isLocked_eq_false_iff w').1 (hlocked ▸ hw)
    omega

/-- The word that `lock` expects is free. -/
@[simp] theorem isLocked_lockExpected (w : Word) : isLocked (lockExpected w) = false := by
  rw [isLocked_eq_false_iff, lockExpected_toNat]
  omega

/-- The word that `lock` expects has the same version. -/
@[simp] theorem versionOf_lockExpected (w : Word) : versionOf (lockExpected w) = versionOf w := by
  rw [versionOf_eq_div, versionOf_eq_div, lockExpected_toNat]
  omega

/-- The expected word is the loaded one exactly if the lock bit was clear. -/
theorem lockExpected_eq_self_iff (w : Word) : lockExpected w = w ↔ isLocked w = false := by
  constructor
  · intro h
    rw [← h]
    exact isLocked_lockExpected w
  · intro h
    exact word_ext (versionOf_lockExpected w) (by rw [isLocked_lockExpected, h])

/-- The word that `lock` stores is taken. -/
@[simp] theorem isLocked_lockDesired {e : Word} (h : isLocked e = false) :
    isLocked (lockDesired e) = true := by
  rw [isLocked_iff, lockDesired_toNat e h]
  have := (isLocked_eq_false_iff e).1 h
  omega

/-- The word that `lock` stores has the same version. -/
@[simp] theorem versionOf_lockDesired {e : Word} (h : isLocked e = false) :
    versionOf (lockDesired e) = versionOf e := by
  rw [versionOf_eq_div, versionOf_eq_div, lockDesired_toNat e h]
  have := (isLocked_eq_false_iff e).1 h
  omega

/-- `unlock` stores a free word. -/
@[simp] theorem isLocked_unlockValue (w : Word) : isLocked (unlockValue w) = false := by
  rw [isLocked_eq_false_iff, unlockValue_toNat]
  omega

/-- `unlock` keeps the lower 31 bits of the version. -/
theorem versionOf_unlockValue (w : Word) : versionOf (unlockValue w) = versionOf w % 2 ^ 31 := by
  rw [versionOf_eq_div, versionOf_eq_div, unlockValue_toNat]
  omega

/-- `unlock` does not increase a version. -/
theorem versionOf_unlockValue_le (w : Word) : versionOf (unlockValue w) ≤ versionOf w := by
  rw [versionOf_unlockValue]
  exact Nat.mod_le _ _

/-- `setVersion` stores a free word. -/
@[simp] theorem isLocked_setVersion (v : Version) : isLocked (setVersion v) = false := by
  rw [isLocked_eq_false_iff, setVersion_toNat]
  omega

/-- `setVersion` stores the version, if it has at most 63 bits. -/
theorem versionOf_setVersion {v : Version} (h : v.toNat < 2 ^ 63) :
    versionOf (setVersion v) = v.toNat := by
  rw [versionOf_eq_div, setVersion_toNat]
  omega

/-- `setVersion` stores no greater version. -/
theorem versionOf_setVersion_le (v : Version) : versionOf (setVersion v) ≤ v.toNat := by
  rw [versionOf_eq_div, setVersion_toNat]
  omega

/-- A new lock is free. -/
@[simp] theorem isLocked_zero : isLocked 0#64 = false := by decide

/-- A new lock has the version zero. -/
@[simp] theorem versionOf_zero : versionOf 0#64 = 0 := by decide

/-- A compare-exchange succeeds on the word that it expects. -/
theorem compareExchange_eq_some_iff {w e d w' : Word} :
    compareExchange w e d = some w' ↔ w = e ∧ w' = d := by
  unfold compareExchange
  split <;> simp_all [eq_comm]

/-- A compare-exchange fails on every other word. -/
theorem compareExchange_eq_none_iff {w e d : Word} : compareExchange w e d = none ↔ w ≠ e := by
  simp [compareExchange]

/-- `lock` succeeds exactly on a word with a clear lock bit, which it sets. -/
theorem lock_eq_some_iff {w w' : Word} :
    lock w = some w' ↔ isLocked w = false ∧ w' = lockDesired w := by
  rw [lock, compareExchange_eq_some_iff, eq_comm, lockExpected_eq_self_iff]
  constructor
  · rintro ⟨h, rfl⟩
    rw [(lockExpected_eq_self_iff w).2 h]
    exact ⟨h, rfl⟩
  · rintro ⟨h, rfl⟩
    rw [(lockExpected_eq_self_iff w).2 h]
    exact ⟨h, rfl⟩

/-- `lock` fails exactly on a lock that is taken. -/
theorem lock_eq_none_iff {w : Word} : lock w = none ↔ isLocked w = true := by
  rw [lock, compareExchange_eq_none_iff, ne_comm, ne_eq, lockExpected_eq_self_iff,
    Bool.not_eq_false]

/-- Releasing a lock that was just taken restores the word exactly if the version has at most
31 bits. -/
theorem unlockValue_lockDesired_eq_self_iff {w : Word} (h : isLocked w = false) :
    unlockValue (lockDesired w) = w ↔ versionOf w < 2 ^ 31 := by
  have hversion : versionOf (unlockValue (lockDesired w)) = versionOf w % 2 ^ 31 := by
    rw [versionOf_unlockValue, versionOf_lockDesired h]
  constructor
  · intro heq
    rw [heq] at hversion
    omega
  · intro hlt
    refine word_ext ?_ (by rw [isLocked_unlockValue, h])
    rw [hversion, Nat.mod_eq_of_lt hlt]

end VersionedWriteLock

/-! ## Transactions -/

/-- A transaction. Its write set maps an address to the word buffered for it (`WriteOperation`);
`V` is the type of the words. -/
structure Transaction (V : Type) where
  /-- The read version: the clock at `tm_begin`. -/
  rv : Version
  /-- The addresses read so far. -/
  readSet : UnorderedSet Addr
  /-- The words to be written by `tm_end`. -/
  writeSet : UnorderedMap Addr V
  /-- The segments allocated so far. -/
  segList : List SegId
  /-- Whether the transaction is read-only. -/
  isRo : Bool

namespace Transaction

variable {V : Type}

/-- The constructor `Transaction::Transaction`. -/
def create (gvc : Version) (isRo : Bool) : Transaction V :=
  { rv := gvc, readSet := ∅, writeSet := ∅, segList := [], isRo }

/-- The word `tm_read` copies for an address: an update transaction reads its own buffer first. -/
def wordAt (txn : Transaction V) (mem : Addr → V) (a : Addr) : V :=
  -- a read-only transaction has no write set to look into
  if txn.isRo then mem a else (txn.writeSet.lookup a).getD (mem a)

/-- An update transaction keeps track of the addresses it has read. -/
def recordRead (txn : Transaction V) (a : Addr) : Transaction V :=
  { txn with readSet := if txn.isRo then txn.readSet else txn.readSet.insert a }

end Transaction

/-- What the transactions of a region share: the global version clock, the lock table and the
words of the allocated segments. -/
@[ext]
structure Shared (V : Type) where
  /-- The global version clock. -/
  gvc : Version
  /-- The lock words. -/
  locks : LockId → Word
  /-- The word stored at each word-aligned address. -/
  mem : Addr → V

/-- Below `2 ^ 63` the clock does not wrap around. -/
theorem gvc_succ {gvc : Version} (h : gvc.toNat < 2 ^ 63) : (gvc + 1).toNat = gvc.toNat + 1 := by
  have hone : (1 : Version).toNat = 1 := rfl
  rw [BitVec.toNat_add, hone]
  omega

/-- What the code leaves open: the placement of addresses on the locks, and the traversal orders
of the unordered containers of each transaction. The code's placement is `lockIndex`. -/
structure Setup (V : Type) where
  /-- The lock protecting an address. -/
  lockOf : Addr → LockId
  /-- The order in which `tm_end` traverses a write set. -/
  writeOrder : Tid → Traversal (Addr × V)
  /-- The order in which `tm_end` traverses a read set. -/
  readOrder : Tid → Traversal Addr
  /-- The order in which `tm_end` traverses `locks_held`. -/
  heldOrder : Tid → Traversal LockId

/-- The placement of the code, with containers traversed in insertion order. -/
def Setup.plain (V : Type) : Setup V where
  lockOf := lockIndex
  writeOrder _ := Traversal.inOrder
  readOrder _ := Traversal.inOrder
  heldOrder _ := Traversal.inOrder

/-- A placement without collisions, one lock for each address. It agrees with that of the code on
the addresses below `NUM_LOCKS`. -/
def Setup.direct (V : Type) : Setup V := { Setup.plain V with lockOf := id }

end TransactionalMemory
