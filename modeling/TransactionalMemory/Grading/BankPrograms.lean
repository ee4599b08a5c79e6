import TransactionalMemory.DataStructures
import TransactionalMemory.Foundations.Programs
import TransactionalMemory.Grading.BankCheck

/-!
# The closures of the bank

The closures that `WorkloadBank` (`grading/workload.hpp`) passes to `transactional`, as programs
over the words of shared memory. The region has the alignment of an account segment, which is that
of a pointer, so every `Shared` object of a segment accesses exactly one word. As in the model of
the atomic transactions, balances have no bounds; a count or a pointer is a word like a balance.
Loops are unrolled to any depth.

`Represents` relates the words to the segments of an atomic memory. Executed alone on words that
represent a memory on which the atomic transaction does not fault, a closure returns what the
transaction returns and leaves words that represent the memory that it leaves.
-/

namespace TransactionalMemory.Grading

/-- A closure of the bank. -/
abbrev BankProgram (R : Type) := WordProgram Addr Balance R

/-! ## The fields of a segment -/

namespace AccountSegment

/-- The address of `count`. -/
def countAt (p : ℕ) : ℕ := p

/-- The address of `next`, after `count`. -/
def nextAt (p : ℕ) : ℕ := countAt p + 8

/-- The address of `parity`, after `next`. -/
def parityAt (p : ℕ) : ℕ := nextAt p + 8

/-- The address of an account. The accounts are after `parity`. -/
def accountAt (p i : ℕ) : ℕ := parityAt p + 8 + 8 * i

/-- Get the segment size for a given number of accounts. -/
def size (nbaccounts : ℕ) : ℕ := 24 + nbaccounts * 8

end AccountSegment

open AccountSegment

/-- The pointer in a word. -/
def ptrOf (v : Balance) : Option Ptr := if v = 0 then none else some v.toNat

/-- The word of a pointer. -/
def ofPtr : Option Ptr → Balance
  | none => 0
  | some p => p

namespace BankProgram

open WordProgram

/-- Read the number of accounts of a segment. -/
def loadCount (p : Ptr) : BankProgram ℕ := do
  let count ← load (countAt p)
  return count.toNat

/-- Read the pointer to the next segment. -/
def loadNext (p : Ptr) : BankProgram (Option Ptr) := do
  let next ← load (nextAt p)
  return ptrOf next

/-- Read the parity of a segment. -/
def loadParity (p : Ptr) : BankProgram Balance := load (parityAt p)

/-- Read an account. -/
def loadAccount (p : Ptr) (i : ℕ) : BankProgram Balance := load (accountAt p i)

/-- Write the number of accounts of a segment. -/
def storeCount (p : Ptr) (count : ℕ) : BankProgram Unit := store (countAt p) count

/-- Write the pointer to the next segment. -/
def storeNext (p : Ptr) (next : Option Ptr) : BankProgram Unit := store (nextAt p) (ofPtr next)

/-- Write the parity of a segment. -/
def storeParity (p : Ptr) (parity : Balance) : BankProgram Unit := store (parityAt p) parity

/-- Write an account. -/
def storeAccount (p : Ptr) (i : ℕ) (balance : Balance) : BankProgram Unit :=
  store (accountAt p i) balance

/-! ## The closures -/

variable (bank : WorkloadBank)

/-- The loop of `init` over the accounts, from index `i` on. -/
def initLoop : ℕ → ℕ → BankProgram Unit
  | 0, _ => return
  | todo + 1, i => do
    storeAccount bank.start i bank.initBalance
    initLoop todo (i + 1)

/-- The first closure of `init`. -/
def initTx : BankProgram Unit := do
  storeCount bank.start bank.nbaccounts
  initLoop bank bank.nbaccounts 0

/-- The second closure of `init`. -/
def initCheck : BankProgram Bool := do
  let first ← loadAccount bank.start 0
  return first == bank.initBalance

/-- The loop of `long_tx` over the accounts of a segment, from index `i` on. -/
def sumAccounts (start : Ptr) : ℕ → ℕ → Balance → BankProgram (Option Balance)
  | 0, _, sum => return some sum
  | todo + 1, i, sum => do
    let balance ← loadAccount start i
    if balance < 0 then return none else sumAccounts start todo (i + 1) (sum + balance)

/-- The loop of `long_tx` over the segments. -/
def longLoop : ℕ → Option Ptr → ℕ → Balance → BankProgram (Option (ℕ × Balance))
  | _, none, count, sum => return some (count, sum)
  | 0, some _, _, _ => cut
  | fuel + 1, some start, count, sum => do
    let segmentCount ← loadCount start
    let parity ← loadParity start
    match ← sumAccounts start segmentCount 0 (sum + parity) with
    | none => return none
    | some sum =>
      let next ← loadNext start
      longLoop fuel next (count + segmentCount) sum

/-- The closure of `long_tx`: what it returns, and the new value of `nbaccounts`. -/
def longTx (fuel nbaccounts : ℕ) : BankProgram (Bool × ℕ) := do
  match ← longLoop fuel (some bank.start) 0 0 with
  | none => return (false, nbaccounts)
  | some (count, sum) => return (sum == bank.initBalance * count, count)

/-- The loop of `short_tx`. -/
def shortLoop : ℕ → Ptr → ℕ × Option WorkloadBank.Slot → ℕ × Option WorkloadBank.Slot →
    BankProgram (Option (WorkloadBank.Slot × WorkloadBank.Slot))
  | 0, _, _, _ => cut
  | fuel + 1, start, send, recv => do
    let segmentCount ← loadCount start
    let send := WorkloadBank.resolve start segmentCount send
    let recv := WorkloadBank.resolve start segmentCount recv
    match send.2, recv.2 with
    | some sender, some recver => return some (sender, recver)
    | _, _ =>
      match ← loadNext start with
      | none => return none
      | some next => shortLoop fuel next send recv

/-- The closure of `short_tx`. -/
def shortTx (fuel sendId recvId : ℕ) : BankProgram Bool := do
  match ← shortLoop fuel bank.start (sendId, none) (recvId, none) with
  | none => return false
  | some (sender, recver) =>
    let sendVal ← loadAccount sender.1 sender.2
    if sendVal > 0 then
      storeAccount sender.1 sender.2 (sendVal - 1)
      let recvVal ← loadAccount recver.1 recver.2
      storeAccount recver.1 recver.2 (recvVal + 1)
      return true
    else return true

/-- The body of `alloc_tx` at the last segment. -/
def changeLast (trigger : ℕ) (block : Ptr) (prev : Option Ptr) (start : Ptr)
    (segmentCount count : ℕ) : BankProgram Unit :=
  if count > trigger ∧ count > 2 then
    match segmentCount with
    -- the count wraps around, and the accesses are out of bounds
    | 0 => cut
    | segmentCount + 1 => do
      let parity ← loadParity start
      let balance ← loadAccount start segmentCount
      let newParity := parity + balance - bank.initBalance
      if segmentCount > 0 then
        storeCount start segmentCount
        storeParity start newParity
      else
        match prev with
        -- a null pointer is accessed
        | none => cut
        | some prev =>
          -- `free` reads the pointer that it passes to `tm_free`, which accesses no word
          let _ ← loadNext prev
          storeNext prev none
          let prevParity ← loadParity prev
          storeParity prev (prevParity + newParity)
  else if segmentCount < bank.nbaccounts then do
    storeAccount start segmentCount bank.initBalance
    storeCount start (segmentCount + 1)
  else do
    -- the block is zeroed already
    storeNext start (some block)
    storeCount block 1
    storeAccount block 0 bank.initBalance

/-- The loop of `alloc_tx`. -/
def allocLoop (trigger : ℕ) (block : Ptr) : ℕ → Option Ptr → Ptr → ℕ → BankProgram Unit
  | 0, _, _, _ => cut
  | fuel + 1, prev, start, count => do
    let segmentCount ← loadCount start
    match ← loadNext start with
    | none => changeLast bank trigger block prev start segmentCount (count + segmentCount)
    | some next => allocLoop trigger block fuel (some start) next (count + segmentCount)

/-- The closure of `alloc_tx`, with the block that `tm_alloc` would return. -/
def allocTx (fuel trigger : ℕ) (block : Ptr) : BankProgram Unit :=
  allocLoop bank trigger block fuel none bank.start 0

end BankProgram

/-! ## What the words represent -/

variable {bank : WorkloadBank} {mem mem' : Memory} {m m' : Addr → Balance} {p q a : ℕ}
  {n n' : AccountSegment} {v : Balance} {used : Set ℕ}

/-- The words of a segment are those of a record. -/
structure Holds (bank : WorkloadBank) (m : Addr → Balance) (p : Ptr) (n : AccountSegment) :
    Prop where
  count : m (countAt p) = n.count
  next : ptrOf (m (nextAt p)) = n.next
  parity : m (parityAt p) = n.parity
  account : ∀ i < bank.nbaccounts, m (accountAt p i) = n.accounts i

/-- The address is one of a segment. -/
def Within (bank : WorkloadBank) (p a : ℕ) : Prop :=
  p ≤ a ∧ a < p + size bank.nbaccounts

/-- Two segments do not overlap. -/
def Apart (bank : WorkloadBank) (p q : ℕ) : Prop :=
  p + size bank.nbaccounts ≤ q ∨ q + size bank.nbaccounts ≤ p

/-- The words represent the segments of a memory. All segments so far, freed or not, are at the
addresses `used`, and the words outside of them are still zero. -/
structure Represents (bank : WorkloadBank) (used : Set ℕ) (mem : Memory) (m : Addr → Balance) :
    Prop where
  holds : ∀ p n, mem.lookup p = some n → Holds bank m p n
  used_of_mem : ∀ p ∈ mem, p ∈ used
  apart : ∀ p ∈ used, ∀ q ∈ used, p ≠ q → Apart bank p q
  fresh : ∀ a, (∀ p ∈ used, ¬ Within bank p a) → m a = 0

/-- Being apart is symmetric. -/
theorem Apart.symm (h : Apart bank p q) : Apart bank q p := Or.symm h

/-- Segments that are apart have no word in common. -/
theorem Apart.not_within (h : Apart bank p q) (ha : Within bank p a) : ¬ Within bank q a := by
  simp only [Apart, Within] at *
  omega

/-- The word `count` is in its segment. -/
theorem within_countAt : Within bank p (countAt p) := by
  simp only [Within, countAt, size]
  omega

/-- The word `next` is in its segment. -/
theorem within_nextAt : Within bank p (nextAt p) := by
  simp only [Within, nextAt, countAt, size]
  omega

/-- The word `parity` is in its segment. -/
theorem within_parityAt : Within bank p (parityAt p) := by
  simp only [Within, parityAt, nextAt, countAt, size]
  omega

/-- The accounts of a segment are in it. -/
theorem within_accountAt {i : ℕ} (hi : i < bank.nbaccounts) : Within bank p (accountAt p i) := by
  simp only [Within, accountAt, parityAt, nextAt, countAt, size]
  omega

/-- The fields of a segment have different addresses. -/
theorem fields_ne (p i : ℕ) : nextAt p ≠ countAt p ∧ parityAt p ≠ countAt p ∧
    parityAt p ≠ nextAt p ∧ accountAt p i ≠ countAt p ∧ accountAt p i ≠ nextAt p ∧
    accountAt p i ≠ parityAt p := by
  simp only [accountAt, parityAt, nextAt, countAt]
  omega

/-- Different accounts are different words. -/
theorem accountAt_inj {i j : ℕ} (h : accountAt p i = accountAt p j) : i = j := by
  simp only [accountAt] at h
  omega

/-- What a segment holds depends on its words. -/
theorem Holds.congr (h : Holds bank m p n) (hsame : ∀ a, Within bank p a → m' a = m a) :
    Holds bank m' p n where
  count := (hsame _ within_countAt).trans h.count
  next := by rw [hsame _ within_nextAt, h.next]
  parity := (hsame _ within_parityAt).trans h.parity
  account i hi := (hsame _ (within_accountAt hi)).trans (h.account i hi)

namespace Represents

/-- A word of a segment is written. -/
theorem write (h : Represents bank used mem m) (hp : mem.lookup p = some n)
    (ha : Within bank p a) (hself : Holds bank (Function.update m a v) p n') :
    Represents bank used (mem.insert p n') (Function.update m a v) := by
  have hmem : p ∈ used := h.used_of_mem p (AList.lookup_isSome.1 (by rw [hp]; rfl))
  refine ⟨fun q k hq => ?_, fun q hq => ?_, h.apart, fun b hb => ?_⟩
  · by_cases hqp : q = p
    · subst hqp
      rw [AList.lookup_insert, Option.some.injEq] at hq
      rwa [← hq]
    · rw [AList.lookup_insert_ne hqp] at hq
      have hqmem := h.used_of_mem q (AList.lookup_isSome.1 (by rw [hq]; rfl))
      refine (h.holds q k hq).congr fun b hb => Function.update_of_ne ?_ _ _
      rintro rfl
      exact (h.apart p hmem q hqmem (Ne.symm hqp)).not_within ha hb
  · rcases (AList.mem_insert _).1 hq with rfl | hq
    · exact hmem
    · exact h.used_of_mem q hq
  · rw [Function.update_of_ne, h.fresh b hb]
    rintro rfl
    exact hb p hmem ha

/-- A new `count` is represented. -/
theorem storeCount (h : Represents bank used mem m) (hp : mem.lookup p = some n) (count : ℕ) :
    Represents bank used (mem.insert p { n with count })
      (Function.update m (countAt p) count) := by
  have hold := h.holds p n hp
  obtain ⟨hnext, hparity, -⟩ := fields_ne p 0
  refine h.write hp within_countAt ⟨Function.update_self _ _ _, ?_, ?_, fun i hi => ?_⟩
  · rw [Function.update_of_ne hnext]
    exact hold.next
  · rw [Function.update_of_ne hparity]
    exact hold.parity
  · rw [Function.update_of_ne (fields_ne p i).2.2.2.1]
    exact hold.account i hi

/-- A new link is represented. -/
theorem storeNext (h : Represents bank used mem m) (hp : mem.lookup p = some n) {next : Option Ptr}
    (hnull : next ≠ some 0) :
    Represents bank used (mem.insert p { n with next })
      (Function.update m (nextAt p) (ofPtr next)) := by
  have hold := h.holds p n hp
  obtain ⟨hcount, -, hparity, -⟩ := fields_ne p 0
  refine h.write hp within_nextAt ⟨?_, ?_, ?_, fun i hi => ?_⟩
  · rw [Function.update_of_ne hcount.symm]
    exact hold.count
  · rw [Function.update_self]
    cases next with
    | none => rfl
    | some q =>
      have hq : (q : Balance) ≠ 0 := fun hzero => hnull (by rw [Int.natCast_eq_zero.1 hzero])
      rw [ofPtr, ptrOf, if_neg hq, Int.toNat_natCast]
  · rw [Function.update_of_ne hparity]
    exact hold.parity
  · rw [Function.update_of_ne (fields_ne p i).2.2.2.2.1]
    exact hold.account i hi

/-- A new `parity` is represented. -/
theorem storeParity (h : Represents bank used mem m) (hp : mem.lookup p = some n)
    (parity : Balance) : Represents bank used (mem.insert p { n with parity })
      (Function.update m (parityAt p) parity) := by
  have hold := h.holds p n hp
  obtain ⟨-, hcount, hnext, -⟩ := fields_ne p 0
  refine h.write hp within_parityAt ⟨?_, ?_, Function.update_self _ _ _, fun i hi => ?_⟩
  · rw [Function.update_of_ne hcount.symm]
    exact hold.count
  · rw [Function.update_of_ne hnext.symm]
    exact hold.next
  · rw [Function.update_of_ne (fields_ne p i).2.2.2.2.2]
    exact hold.account i hi

/-- A new balance is represented. -/
theorem storeAccount (h : Represents bank used mem m) (hp : mem.lookup p = some n) {i : ℕ}
    (hi : i < bank.nbaccounts) (balance : Balance) :
    Represents bank used (mem.insert p { n with accounts := Function.update n.accounts i balance })
      (Function.update m (accountAt p i) balance) := by
  have hold := h.holds p n hp
  obtain ⟨-, -, -, hcount, hnext, hparity⟩ := fields_ne p i
  refine h.write hp (within_accountAt hi) ⟨?_, ?_, ?_, fun j hj => ?_⟩
  · rw [Function.update_of_ne hcount.symm]
    exact hold.count
  · rw [Function.update_of_ne hnext.symm]
    exact hold.next
  · rw [Function.update_of_ne hparity.symm]
    exact hold.parity
  · by_cases hij : j = i
    · subst hij
      simp
    · dsimp only
      rw [Function.update_of_ne fun heq => hij (accountAt_inj heq), Function.update_of_ne hij]
      exact hold.account j hj

/-- A block is set aside. -/
theorem reserve (h : Represents bank used mem m) (hapart : ∀ q ∈ used, Apart bank p q) :
    Represents bank (insert p used) mem m where
  holds := h.holds
  used_of_mem q hq := Set.mem_insert_of_mem p (h.used_of_mem q hq)
  apart q hq r hr hne := by
    rw [Set.mem_insert_iff] at hq hr
    rcases hq with rfl | hq
    · exact hapart r (hr.resolve_left (Ne.symm hne))
    · rcases hr with rfl | hr
      · exact (hapart q hq).symm
      · exact h.apart q hq r hr hne
  fresh a ha := h.fresh a fun q hq => ha q (Set.mem_insert_of_mem p hq)

/-- A zeroed block becomes a segment. -/
theorem alloc (h : Represents bank used mem m) (hp : p ∈ used)
    (hzero : ∀ a, Within bank p a → m a = 0) :
    Represents bank used (mem.insert p .zeroed) m where
  holds q k hq := by
    by_cases hqp : q = p
    · subst hqp
      rw [AList.lookup_insert, Option.some.injEq] at hq
      subst hq
      exact ⟨hzero _ within_countAt, by rw [hzero _ within_nextAt]; rfl,
        hzero _ within_parityAt, fun i hi => hzero _ (within_accountAt hi)⟩
    · rw [AList.lookup_insert_ne hqp] at hq
      exact h.holds q k hq
  used_of_mem q hq := by
    rcases (AList.mem_insert _).1 hq with rfl | hq
    · exact hp
    · exact h.used_of_mem q hq
  apart := h.apart
  fresh := h.fresh

/-- A segment is freed. -/
theorem free (h : Represents bank used mem m) (q : Ptr) :
    Represents bank used (mem.erase q) m where
  holds p n hp := by
    have hne : p ≠ q := by
      rintro rfl
      rw [AList.lookup_erase] at hp
      cases hp
    rw [AList.lookup_erase_ne hne] at hp
    exact h.holds p n hp
  used_of_mem p hp := h.used_of_mem p (AList.mem_erase.1 hp).2
  apart := h.apart
  fresh := h.fresh

end Represents

end TransactionalMemory.Grading
