import TransactionalMemory.Grading.BankPrograms

/-!
# The closures of the bank, executed alone

On words that represent a memory on which an atomic transaction does not fault, its closure returns
what the transaction returns and leaves words that represent the memory that it leaves:
`exec_initTx`, `exec_longTx`, `exec_shortTx` and `exec_allocTx`. A loop that was not unrolled far
enough is cut, so the last three are about executions that come to an end.
-/

namespace TransactionalMemory.Grading

open AccountSegment
open WordProgram (exec_bind)

variable {bank : WorkloadBank} {used : Set ℕ} {mem mem' : Memory} {m m' : Addr → Balance}
  {p q : ℕ} {n n' : AccountSegment} {v : Balance} {i : ℕ} {R : Type}

/-! ## Transactions that do not fault -/

/-- A computation without a fault consists of two. -/
theorem bind_eq_ok {α β : Type} {x : Except Fault α} {f : α → Except Fault β} {b : β} :
    (x >>= f) = .ok b ↔ ∃ a, x = .ok a ∧ f a = .ok b := by
  cases x with
  | error e => simp [bind, Except.bind]
  | ok a => simp [bind, Except.bind]

/-- A segment is found only where there is one. -/
theorem segmentAt_eq_ok : segmentAt mem p = .ok n ↔ mem.lookup p = some n := by
  unfold segmentAt
  split <;> simp_all

/-- Only a segment that is there is modified. -/
theorem modifySegment_eq_ok {f : AccountSegment → AccountSegment} :
    modifySegment mem p f = .ok mem' ↔ ∃ n, mem.lookup p = some n ∧ mem.insert p (f n) = mem' := by
  simp only [modifySegment, bind_eq_ok, segmentAt_eq_ok, pure, Except.pure, Except.ok.injEq]

/-- Only an account that is there is read. -/
theorem readAccount_eq_ok : bank.readAccount mem p i = .ok v ↔
    ∃ n, mem.lookup p = some n ∧ i < bank.nbaccounts ∧ n.accounts i = v := by
  simp only [WorkloadBank.readAccount, bind_eq_ok, segmentAt_eq_ok]
  refine exists_congr fun n => and_congr_right fun _ => ?_
  split <;> simp_all [pure, Except.pure, throw, throwThe, MonadExceptOf.throw]

/-- Only an account that is there is written. -/
theorem writeAccount_eq_ok : bank.writeAccount mem p i v = .ok mem' ↔
    ∃ n, mem.lookup p = some n ∧ i < bank.nbaccounts ∧
      mem.insert p { n with accounts := Function.update n.accounts i v } = mem' := by
  unfold WorkloadBank.writeAccount
  split
  next hi => simp [modifySegment_eq_ok, hi]
  next hi => simp [hi, throw, throwThe, MonadExceptOf.throw]

/-! ## Single accesses -/

namespace Represents

/-- The program reads the count of the segment. -/
theorem exec_loadCount (h : Represents bank used mem m) (hp : mem.lookup p = some n)
    (f : ℕ → BankProgram R) : (BankProgram.loadCount p >>= f).exec m = (f n.count).exec m := by
  show (f (m (countAt p)).toNat).exec m = _
  rw [(h.holds p n hp).count, Int.toNat_natCast]

/-- The program reads the link of the segment. -/
theorem exec_loadNext (h : Represents bank used mem m) (hp : mem.lookup p = some n)
    (f : Option Ptr → BankProgram R) :
    (BankProgram.loadNext p >>= f).exec m = (f n.next).exec m := by
  show (f (ptrOf (m (nextAt p)))).exec m = _
  rw [(h.holds p n hp).next]

/-- The program reads the parity of the segment. -/
theorem exec_loadParity (h : Represents bank used mem m) (hp : mem.lookup p = some n)
    (f : Balance → BankProgram R) :
    (BankProgram.loadParity p >>= f).exec m = (f n.parity).exec m := by
  show (f (m (parityAt p))).exec m = _
  rw [(h.holds p n hp).parity]

/-- The program reads the balance of the account. -/
theorem exec_loadAccount (h : Represents bank used mem m) (hp : mem.lookup p = some n)
    (hi : i < bank.nbaccounts) (f : Balance → BankProgram R) :
    (BankProgram.loadAccount p i >>= f).exec m = (f (n.accounts i)).exec m := by
  show (f (m (accountAt p i))).exec m = _
  rw [(h.holds p n hp).account i hi]

end Represents

/-! ## `init` -/

/-- The program of the loop of `init` does what the loop does. -/
theorem exec_initLoop (h : Represents bank used mem m) {todo : ℕ}
    (habs : bank.initLoop mem todo i = .ok mem') :
    ∃ m', (BankProgram.initLoop bank todo i).exec m = some ((), m') ∧
      Represents bank used mem' m' := by
  induction todo generalizing mem m i with
  | zero =>
    obtain rfl : mem = mem' := Except.ok.inj habs
    exact ⟨m, rfl, h⟩
  | succ todo ih =>
    rw [WorkloadBank.initLoop, bind_eq_ok] at habs
    obtain ⟨mem₁, hwrite, hrest⟩ := habs
    obtain ⟨n, hn, hi, rfl⟩ := writeAccount_eq_ok.1 hwrite
    exact ih (h.storeAccount hn hi _) hrest

/-- The first closure of `init`. -/
theorem exec_initTx (h : Represents bank used mem m) {correct : Bool}
    (habs : bank.initTx mem = .ok (correct, mem')) :
    ∃ m', (BankProgram.initTx bank).exec m = some ((), m') ∧ Represents bank used mem' m' := by
  simp only [WorkloadBank.initTx, bind_eq_ok, modifySegment_eq_ok] at habs
  obtain ⟨_, ⟨n, hn, rfl⟩, mem₁, hloop, first, -, hret⟩ := habs
  obtain ⟨-, rfl⟩ := Prod.mk.inj (Except.ok.inj hret)
  exact exec_initLoop (h.storeCount hn bank.nbaccounts) hloop

/-! ## `long_tx` -/

/-- The program sums up the balances of a segment. -/
theorem exec_sumAccounts (h : Represents bank used mem m) {todo : ℕ} {sum : Balance}
    {r : Option Balance} (habs : bank.sumAccounts mem p todo i sum = .ok r) :
    (BankProgram.sumAccounts p todo i sum).exec m = some (r, m) := by
  induction todo generalizing i sum with
  | zero =>
    obtain rfl : some sum = r := Except.ok.inj habs
    rfl
  | succ todo ih =>
    rw [WorkloadBank.sumAccounts, bind_eq_ok] at habs
    obtain ⟨balance, hread, hrest⟩ := habs
    obtain ⟨n, hn, hi, rfl⟩ := readAccount_eq_ok.1 hread
    rw [BankProgram.sumAccounts, h.exec_loadAccount hn hi]
    split at hrest
    next hneg =>
      obtain rfl : none = r := Except.ok.inj hrest
      rw [if_pos hneg]
      rfl
    next hpos =>
      rw [if_neg hpos]
      exact ih hrest

/-- The program of the loop of `long_tx` does what the loop does. -/
theorem exec_longLoop (h : Represents bank used mem m) {g fuel count : ℕ} {start : Option Ptr}
    {sum : Balance} {r : Option (ℕ × Balance)} {x : Option (ℕ × Balance) × (Addr → Balance)}
    (habs : bank.longLoop mem g start count sum = .ok r)
    (hx : (BankProgram.longLoop fuel start count sum).exec m = some x) : x = (r, m) := by
  induction fuel generalizing g start count sum with
  | zero =>
    cases start with
    | none =>
      cases g <;> cases habs <;> exact (Option.some.inj hx).symm
    | some start => cases hx
  | succ fuel ih =>
    cases start with
    | none =>
      cases g <;> cases habs <;> exact (Option.some.inj hx).symm
    | some start =>
      cases g with
      | zero => cases habs
      | succ g =>
        rw [WorkloadBank.longLoop, bind_eq_ok] at habs
        obtain ⟨n, hn, hsum⟩ := habs
        rw [segmentAt_eq_ok] at hn
        obtain ⟨s, hs, hrest⟩ := bind_eq_ok.1 hsum
        rw [BankProgram.longLoop, h.exec_loadCount hn, h.exec_loadParity hn, exec_bind,
          exec_sumAccounts h hs] at hx
        cases s with
        | none =>
          obtain rfl : none = r := Except.ok.inj hrest
          exact (Option.some.inj hx).symm
        | some s =>
          rw [Option.bind_some, h.exec_loadNext hn] at hx
          exact ih hrest hx

/-- The closure of `long_tx`. -/
theorem exec_longTx (h : Represents bank used mem m) {fuel nbaccounts : ℕ} {r : Bool × ℕ}
    {x : (Bool × ℕ) × (Addr → Balance)} (habs : bank.longTx mem nbaccounts = .ok r)
    (hx : (BankProgram.longTx bank fuel nbaccounts).exec m = some x) : x = (r, m) := by
  rw [WorkloadBank.longTx, bind_eq_ok] at habs
  obtain ⟨s, hs, hret⟩ := habs
  rw [BankProgram.longTx, exec_bind] at hx
  obtain ⟨y, hy, hx⟩ := Option.bind_eq_some_iff.1 hx
  obtain rfl := exec_longLoop h hs hy
  cases s with
  | none =>
    obtain rfl := Except.ok.inj hret
    exact (Option.some.inj hx).symm
  | some s =>
    obtain rfl := Except.ok.inj hret
    exact (Option.some.inj hx).symm

/-! ## `short_tx` -/

/-- The program of the loop of `short_tx` does what the loop does. -/
theorem exec_shortLoop (h : Represents bank used mem m) {g fuel : ℕ} {start : Ptr}
    {send recv : ℕ × Option WorkloadBank.Slot}
    {r : Option (WorkloadBank.Slot × WorkloadBank.Slot)}
    {x : Option (WorkloadBank.Slot × WorkloadBank.Slot) × (Addr → Balance)}
    (habs : WorkloadBank.shortLoop mem g start send recv = .ok r)
    (hx : (BankProgram.shortLoop fuel start send recv).exec m = some x) : x = (r, m) := by
  induction fuel generalizing g start send recv with
  | zero => cases hx
  | succ fuel ih =>
    cases g with
    | zero => cases habs
    | succ g =>
      rw [WorkloadBank.shortLoop, bind_eq_ok] at habs
      obtain ⟨n, hn, hrest⟩ := habs
      rw [segmentAt_eq_ok] at hn
      rw [BankProgram.shortLoop, h.exec_loadCount hn] at hx
      dsimp only at hrest hx
      -- both accounts are found, or the search goes on
      generalize WorkloadBank.resolve start n.count send = send' at hrest hx
      generalize WorkloadBank.resolve start n.count recv = recv' at hrest hx
      split at hrest
      next sender recver hsend hrecv =>
        obtain rfl := Except.ok.inj hrest
        rw [hsend, hrecv] at hx
        exact (Option.some.inj hx).symm
      next hnot =>
        split at hx
        next sender recver hsend hrecv => exact absurd hrecv (hnot sender recver hsend)
        next =>
          rw [h.exec_loadNext hn] at hx
          split at hrest
          next hnext =>
            obtain rfl := Except.ok.inj hrest
            rw [hnext] at hx
            exact (Option.some.inj hx).symm
          next next hnext =>
            rw [hnext] at hx
            exact ih hrest hx

/-- The closure of `short_tx`. -/
theorem exec_shortTx (h : Represents bank used mem m) {fuel sendId recvId : ℕ} {done : Bool}
    {x : Bool × (Addr → Balance)} (habs : bank.shortTx mem sendId recvId = .ok (done, mem'))
    (hx : (BankProgram.shortTx bank fuel sendId recvId).exec m = some x) :
    x.1 = done ∧ Represents bank used mem' x.2 := by
  rw [WorkloadBank.shortTx, bind_eq_ok] at habs
  obtain ⟨s, hs, hrest⟩ := habs
  rw [BankProgram.shortTx, exec_bind] at hx
  obtain ⟨y, hy, hx⟩ := Option.bind_eq_some_iff.1 hx
  obtain rfl := exec_shortLoop h hs hy
  cases s with
  | none =>
    obtain ⟨rfl, rfl⟩ := Prod.mk.inj (Except.ok.inj hrest)
    obtain rfl := Option.some.inj hx
    exact ⟨rfl, h⟩
  | some slots =>
    obtain ⟨sender, recver⟩ := slots
    obtain ⟨sendVal, hread, hrest⟩ := bind_eq_ok.1 hrest
    obtain ⟨n, hn, hi, rfl⟩ := readAccount_eq_ok.1 hread
    dsimp only at hx
    rw [h.exec_loadAccount hn hi] at hx
    split at hrest
    next hpos =>
      -- the transfer
      obtain ⟨mem₁, hwrite, hrest⟩ := bind_eq_ok.1 hrest
      obtain ⟨k, hk, hi', rfl⟩ := writeAccount_eq_ok.1 hwrite
      obtain ⟨recvVal, hread', hrest⟩ := bind_eq_ok.1 hrest
      obtain ⟨n', hn', hj, rfl⟩ := readAccount_eq_ok.1 hread'
      obtain ⟨mem₂, hwrite', hret⟩ := bind_eq_ok.1 hrest
      obtain ⟨k', hk', hj', rfl⟩ := writeAccount_eq_ok.1 hwrite'
      obtain ⟨rfl, rfl⟩ := Prod.mk.inj (Except.ok.inj hret)
      have hsent := h.storeAccount hk hi' (n.accounts sender.2 - 1)
      rw [if_pos hpos] at hx
      change (BankProgram.loadAccount recver.1 recver.2 >>= _).exec _ = _ at hx
      rw [hsent.exec_loadAccount hn' hj] at hx
      obtain rfl := Option.some.inj hx
      exact ⟨rfl, hsent.storeAccount hk' hj' _⟩
    next hnot =>
      obtain ⟨rfl, rfl⟩ := Prod.mk.inj (Except.ok.inj hrest)
      rw [if_neg hnot] at hx
      obtain rfl := Option.some.inj hx
      exact ⟨rfl, h⟩

/-! ## `alloc_tx` -/

/-- The last segment is freed. -/
theorem exec_drop (h : Represents bank used mem m) {prev : Ptr} {newParity : Balance}
    (habs : (do
      let mem ← bank.freeNext mem prev
      modifySegment mem prev fun segment =>
        { segment with parity := segment.parity + newParity }) = .ok mem')
    {x : Unit × (Addr → Balance)} (hx : (do
      let _ ← BankProgram.loadNext prev
      BankProgram.storeNext prev none
      let prevParity ← BankProgram.loadParity prev
      BankProgram.storeParity prev (prevParity + newParity)).exec m = some x) :
    Represents bank used mem' x.2 := by
  obtain ⟨mem₁, hfree, hparity⟩ := bind_eq_ok.1 habs
  rw [WorkloadBank.freeNext, bind_eq_ok] at hfree
  obtain ⟨n, hn, hfree⟩ := hfree
  rw [segmentAt_eq_ok] at hn
  split at hfree
  next => cases hfree
  next q hq =>
    split at hfree
    next => cases hfree
    next =>
      obtain ⟨k, hk, rfl⟩ := modifySegment_eq_ok.1 hfree
      obtain ⟨k', hk', rfl⟩ := modifySegment_eq_ok.1 hparity
      have hnone : (none : Option Ptr) ≠ some 0 := fun heq => by cases heq
      have hfreed := (h.free q).storeNext hk hnone
      rw [h.exec_loadNext hn] at hx
      change (BankProgram.loadParity prev >>= _).exec _ = _ at hx
      rw [hfreed.exec_loadParity hk'] at hx
      obtain rfl := Option.some.inj hx
      exact hfreed.storeParity hk' _

/-- The body of `alloc_tx` at the last segment. -/
theorem exec_changeLast (h : Represents bank used mem m) {trigger block start count : ℕ}
    {prev : Option Ptr} (hblock : block ∈ used) (hnull : block ≠ 0)
    (hzero : ∀ a, Within bank block a → m a = 0) (hn : mem.lookup start = some n)
    (habs : bank.changeLast mem trigger block prev start count = .ok mem')
    {x : Unit × (Addr → Balance)}
    (hx : (BankProgram.changeLast bank trigger block prev start n.count count).exec m = some x) :
    Represents bank used mem' x.2 := by
  rw [WorkloadBank.changeLast, bind_eq_ok] at habs
  obtain ⟨n', hn', habs⟩ := habs
  obtain rfl : n' = n := Option.some.inj ((segmentAt_eq_ok.1 hn').symm.trans hn)
  unfold BankProgram.changeLast at hx
  split at habs
  next hmany =>
    rw [if_pos hmany] at hx
    split at habs
    next => cases habs
    next k hk =>
      rw [hk] at hx
      obtain ⟨balance, hread, habs⟩ := bind_eq_ok.1 habs
      obtain ⟨n₁, hn₁, hi, rfl⟩ := readAccount_eq_ok.1 hread
      obtain rfl : n₁ = n' := Option.some.inj (hn₁.symm.trans hn)
      dsimp only at hx habs
      rw [h.exec_loadParity hn, h.exec_loadAccount hn hi] at hx
      split at habs
      next hpos =>
        -- the segment keeps other accounts
        rw [if_pos hpos] at hx
        obtain ⟨mem₁, hcount, hparity⟩ := bind_eq_ok.1 habs
        obtain ⟨n₂, hn₂, rfl⟩ := modifySegment_eq_ok.1 hcount
        obtain ⟨n₃, hn₃, rfl⟩ := modifySegment_eq_ok.1 hparity
        obtain rfl := Option.some.inj hx
        exact (h.storeCount hn₂ k).storeParity hn₃ _
      next hzero' =>
        rw [if_neg hzero'] at hx
        split at habs
        next => cases habs
        next prev => exact exec_drop h habs hx
  next hfew =>
    rw [if_neg hfew] at hx
    split at habs
    next hlt =>
      rw [if_pos hlt] at hx
      obtain ⟨mem₁, hwrite, hcount⟩ := bind_eq_ok.1 habs
      obtain ⟨n₁, hn₁, hi, rfl⟩ := writeAccount_eq_ok.1 hwrite
      obtain ⟨n₂, hn₂, rfl⟩ := modifySegment_eq_ok.1 hcount
      obtain rfl := Option.some.inj hx
      exact (h.storeAccount hn₁ hi _).storeCount hn₂ _
    next hge =>
      -- the block is linked behind the last segment
      rw [if_neg hge] at hx
      obtain ⟨mem₁, hlink, habs⟩ := bind_eq_ok.1 habs
      obtain ⟨n₁, hn₁, rfl⟩ := modifySegment_eq_ok.1 hlink
      obtain ⟨mem₂, hcount, habs⟩ := bind_eq_ok.1 habs
      obtain ⟨n₂, hn₂, rfl⟩ := modifySegment_eq_ok.1 hcount
      obtain ⟨n₃, hn₃, hi, rfl⟩ := writeAccount_eq_ok.1 habs
      obtain rfl := Option.some.inj hx
      have hsome : some block ≠ some 0 := fun heq => hnull (Option.some.inj heq)
      have hlinked := (h.alloc hblock hzero).storeNext hn₁ hsome
      exact (hlinked.storeCount hn₂ 1).storeAccount hn₃ hi _

/-- The program of the loop of `alloc_tx` does what the loop does. -/
theorem exec_allocLoop (h : Represents bank used mem m) {trigger block start count g fuel : ℕ}
    {prev : Option Ptr} (hblock : block ∈ used) (hnull : block ≠ 0)
    (hzero : ∀ a, Within bank block a → m a = 0)
    (habs : bank.allocLoop mem trigger block g prev start count = .ok mem')
    {x : Unit × (Addr → Balance)}
    (hx : (BankProgram.allocLoop bank trigger block fuel prev start count).exec m = some x) :
    Represents bank used mem' x.2 := by
  induction fuel generalizing g prev start count with
  | zero => cases hx
  | succ fuel ih =>
    cases g with
    | zero => cases habs
    | succ g =>
      rw [WorkloadBank.allocLoop, bind_eq_ok] at habs
      obtain ⟨n, hn, hrest⟩ := habs
      rw [segmentAt_eq_ok] at hn
      rw [BankProgram.allocLoop, h.exec_loadCount hn, h.exec_loadNext hn] at hx
      dsimp only at hrest
      split at hrest
      next hnext =>
        rw [hnext] at hx
        exact exec_changeLast h hblock hnull hzero hn hrest hx
      next next hnext =>
        rw [hnext] at hx
        exact ih hrest hx

/-- The closure of `alloc_tx`. -/
theorem exec_allocTx (h : Represents bank used mem m) {trigger block fuel : ℕ} (hnull : block ≠ 0)
    (hapart : ∀ q ∈ used, Apart bank block q) (habs : bank.allocTx mem trigger block = .ok mem')
    {x : Unit × (Addr → Balance)}
    (hx : (BankProgram.allocTx bank fuel trigger block).exec m = some x) :
    Represents bank (insert block used) mem' x.2 :=
  exec_allocLoop (h.reserve hapart) (Set.mem_insert block used) hnull
    (fun a ha => h.fresh a fun q hq => (hapart q hq).not_within ha) habs hx

end TransactionalMemory.Grading
