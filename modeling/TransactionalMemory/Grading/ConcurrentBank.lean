import TransactionalMemory.Atomic.Programs
import TransactionalMemory.Grading.BankRefinement
import TransactionalMemory.Grading.Run

/-!
# The bank on the library

The closures of the bank as concurrent transactions of the library (`394984/tm.cpp`), whose atomic
accesses interleave in any way. The bank is initialized first, by as many concurrent transactions as
there are threads, and then shared by any number of concurrent transactions that sum up the
balances, transfer money, and add or remove accounts.

`bankServed` puts the levels together: in an undisturbed run, the transactions that commit are, in
some order, a run of the atomic transactions of the bank, on which no money is lost; and whatever
the interleaving, no transaction gets to see balances that do not sum up, not even one that is going
to be refused.
-/

namespace TransactionalMemory.Grading

open AccountSegment

/-- A transaction of the bank. A loop is unrolled `fuel` times, and `block` is what the allocator
would return. -/
inductive BankTx where
  | init
  | initCheck
  | long (fuel nbaccounts : ℕ)
  | short (fuel sendId recvId : ℕ)
  | alloc (fuel trigger : ℕ) (block : Ptr)
  deriving DecidableEq

/-- What a closure returns. -/
inductive BankReply where
  | done
  /-- Whether the first account has the initial balance. -/
  | correct (found : Bool)
  /-- Whether no inconsistency has been found, and the number of accounts. -/
  | summed (consistent : Bool) (count : ℕ)
  /-- Whether both accounts exist. -/
  | transferred (found : Bool)

/-- No violation is reported. -/
def BankReply.Passes : BankReply → Prop
  | .correct found => found = true
  | .summed consistent _ => consistent = true
  | _ => True

namespace BankTx

/-- The closure of a transaction. -/
def program (bank : WorkloadBank) : BankTx → BankProgram BankReply
  | init => do
    BankProgram.initTx bank
    return .done
  | initCheck => do
    let found ← BankProgram.initCheck bank
    return .correct found
  | long fuel nbaccounts => do
    let result ← BankProgram.longTx bank fuel nbaccounts
    return .summed result.1 result.2
  | short fuel sendId recvId => do
    let found ← BankProgram.shortTx bank fuel sendId recvId
    return .transferred found
  | alloc fuel trigger block => do
    BankProgram.allocTx bank fuel trigger block
    return .done

/-- The atomic transaction, if it changes the memory. -/
def call : BankTx → Option BankCall
  | init => some .init
  | short _ sendId recvId => some (.shortTx sendId recvId)
  | alloc _ trigger block => some (.allocTx trigger block)
  | initCheck | long _ _ => none

/-- The transaction is one of `init`. -/
def Opens : BankTx → Prop
  | init | initCheck => True
  | _ => False

instance : DecidablePred Opens
  | init | initCheck => isTrue trivial
  | long .. | short .. | alloc .. => isFalse not_false

end BankTx

/-! ## The hypotheses on a run -/

variable {bank : WorkloadBank} {txs : Tid → BankTx} {S : Setup Balance} {w : Recorded Balance}
  {order l l' : List Tid} {t u : Tid} {mem : Memory} {m : Addr → Balance} {used : Set ℕ}

/-- `init` runs first, as `measure` makes sure of. -/
structure InitFirst (txs : Tid → BankTx) (w : Recorded Balance) : Prop where
  /-- The other transactions begin after some initialization has committed. -/
  opened : ∀ t, w.Begun t → txs t ≠ .init →
    ∃ u, txs u = .init ∧ (w.state.tx u).decided = true ∧ w.decided u < w.began t
  /-- The transactions of the workers begin after the last ones of `init`. -/
  closed : ∀ t u, w.Begun t → w.Begun u → (txs t).Opens → ¬ (txs u).Opens →
    w.settled t < w.began u

/-- The blocks of the transactions that commit do not overlap with each other, nor with the first
segment: they are freed with the region only. -/
structure BlocksApart (bank : WorkloadBank) (txs : Tid → BankTx) (w : Recorded Balance) : Prop where
  nonnull : ∀ t fuel trigger block, txs t = .alloc fuel trigger block →
    (w.state.tx t).decided = true → block ≠ 0
  start : ∀ t fuel trigger block, txs t = .alloc fuel trigger block →
    (w.state.tx t).decided = true → Apart bank block bank.start
  apart : ∀ t fuel trigger block u fuel' trigger' block', t ≠ u →
    txs t = .alloc fuel trigger block → (w.state.tx t).decided = true →
    txs u = .alloc fuel' trigger' block' → (w.state.tx u).decided = true →
      Apart bank block block'

/-- What the bank is promised. -/
structure BankServed (bank : WorkloadBank) (txs : Tid → BankTx) (w : Recorded Balance) : Prop where
  /-- The transactions that commit are a run of the atomic transactions, and the memory represents
  where it ends. If the bank has been initialized, it is consistent. -/
  refines : ∃ order m used mem,
    RunsAlone (fun t => (txs t).program bank) w order m ∧
    (bankRuns bank).Run LabelledSystem.always (bankRuns bank).init
      ((w.committed order).filterMap fun t => (txs t).call) (.ok mem) ∧
    Represents bank used mem m ∧
    ((∃ t, txs t = .init ∧ (w.state.tx t).decided = true) → ∃ l, BankConsistent bank mem l)
  /-- No transaction, whatever becomes of it, returns a violation. -/
  passes : ∀ t reply, w.Begun t → w.rest (fun t => (txs t).program bank) t = some (.ret reply) →
    reply.Passes

/-! ## The order of the transactions -/

/-- A transaction other than an initialization comes after one that has committed. -/
theorem InitFirst.exists_init (h : InitFirst txs w) (hserial : Serializes w w.Begun order m)
    (horder : order = l ++ t :: l') (ht : txs t ≠ .init) :
    ∃ u ∈ w.committed l, txs u = .init := by
  subst horder
  obtain ⟨u, hinit, hdecided, hlt⟩ := h.opened t ((hserial.mem t).1 (by simp)) ht
  have hbegun : w.Begun u := fun hpc => by simp [Tx.decided, hpc] at hdecided
  have hmem := (hserial.mem u).2 hbegun
  refine ⟨u, List.mem_filter.2 ⟨?_, hdecided⟩, hinit⟩
  rcases List.mem_append.1 hmem with hl | hl'
  · exact hl
  · rcases List.mem_cons.1 hl' with rfl | hl'
    · exact absurd hinit ht
    · -- it was decided before `t` began
      have hle := (List.pairwise_cons.1 (List.pairwise_append.1 hserial.realTime).2.1).1 u hl'
      rw [Recorded.settled, if_pos hdecided] at hle
      omega

/-- Only transactions of `init` come before a transaction of `init`. -/
theorem InitFirst.opens_before (h : InitFirst txs w) (hserial : Serializes w w.Begun order m)
    (horder : order = l ++ t :: l') (ht : (txs t).Opens) : ∀ u ∈ l, (txs u).Opens := by
  subst horder
  intro u hu
  by_contra hnot
  have hle := (List.pairwise_append.1 hserial.realTime).2.2 u hu t List.mem_cons_self
  have hlt := h.closed t u ((hserial.mem t).1 (by simp)) ((hserial.mem u).1 (by simp [hu])) ht hnot
  omega

/-! ## The transactions one after another -/

/-- What the committed transactions among the first ones of the order have led to. -/
structure Served (bank : WorkloadBank) (txs : Tid → BankTx) (w : Recorded Balance) (l : List Tid)
    (used : Set ℕ) (mem : Memory) (m : Addr → Balance) : Prop where
  run : (bankRuns bank).Run LabelledSystem.always (bankRuns bank).init
    ((w.committed l).filterMap fun t => (txs t).call) (.ok mem)
  represents : Represents bank used mem m
  used_cases : ∀ q ∈ used, q = bank.start ∨
    ∃ t ∈ w.committed l, ∃ fuel trigger, txs t = .alloc fuel trigger q
  /-- Until the workers run, there is only the first segment. -/
  single : (∀ t ∈ l, (txs t).Opens) →
    ∃ n, mem.lookup bank.start = some n ∧ n.next = none ∧ n.parity = 0
  /-- Then its first account has the initial balance. -/
  first : (∀ t ∈ l, (txs t).Opens) → (∃ t ∈ w.committed l, txs t = .init) →
    ∃ n, mem.lookup bank.start = some n ∧ n.accounts 0 = bank.initBalance
  books : (∃ t ∈ w.committed l, txs t = .init) → mem.InOrder bank

/-- One more transaction in the order. -/
theorem committed_concat (w : Recorded Balance) (l : List Tid) (t : Tid) :
    w.committed (l ++ [t]) = w.committed l ++ if (w.state.tx t).decided then [t] else [] := by
  rw [Recorded.committed, List.filter_append, List.filter_singleton, Bool.cond_eq_ite]
  rfl

/-- The committed transactions after one more. -/
theorem mem_committed_concat : u ∈ w.committed (l ++ [t]) ↔
    u ∈ w.committed l ∨ u = t ∧ (w.state.tx t).decided = true := by
  rw [committed_concat, List.mem_append]
  split <;> simp_all

namespace Served

/-- Before all transactions only the zeroed first segment is there. -/
theorem nil : Served bank txs w [] {bank.start} (AList.singleton bank.start .zeroed)
    fun _ => 0 where
  run := .nil _
  represents := by
    rw [← AList.insert_empty]
    refine ⟨fun p n hp => ?_, fun p hp => ?_, fun p hp q hq hne => ?_, fun _ _ => rfl⟩
    · by_cases heq : p = bank.start
      · subst heq
        rw [AList.lookup_insert, Option.some.injEq] at hp
        subst hp
        exact ⟨rfl, rfl, rfl, fun _ _ => rfl⟩
      · rw [AList.lookup_insert_ne heq] at hp
        cases hp
    · exact ((AList.mem_insert _).1 hp).resolve_right (AList.notMem_empty p)
    · rw [Set.mem_singleton_iff.1 hp, Set.mem_singleton_iff.1 hq] at hne
      exact absurd rfl hne
  used_cases q hq := .inl hq
  single _ := ⟨_, AList.lookup_insert ∅, rfl, rfl⟩
  first _ := fun ⟨t, ht, _⟩ => by cases ht
  books := fun ⟨t, ht, _⟩ => by cases ht

/-- A transaction that does not commit, or that only reads. -/
theorem skip (h : Served bank txs w l used mem m)
    (ht : (w.state.tx t).decided = true → (txs t).call = none) :
    Served bank txs w (l ++ [t]) used mem m := by
  have hinit : (∃ u ∈ w.committed (l ++ [t]), txs u = .init) →
      ∃ u ∈ w.committed l, txs u = .init := by
    rintro ⟨u, hu, hinit⟩
    rcases mem_committed_concat.1 hu with hu | ⟨rfl, hdecided⟩
    · exact ⟨u, hu, hinit⟩
    · have hnone := ht hdecided
      rw [hinit] at hnone
      cases hnone
  refine ⟨?_, h.represents, fun q hq => ?_, fun hopens => h.single fun u hu =>
    hopens u (List.mem_append_left _ hu), fun hopens hex => h.first (fun u hu =>
    hopens u (List.mem_append_left _ hu)) (hinit hex), fun hex => h.books (hinit hex)⟩
  · have hnone : (if (w.state.tx t).decided then [t] else []).filterMap
        (fun u => (txs u).call) = [] := by
      split <;> simp_all
    rw [committed_concat, List.filterMap_append, hnone, List.append_nil]
    exact h.run
  · exact (h.used_cases q hq).imp_right fun ⟨u, hu, halloc⟩ =>
      ⟨u, mem_committed_concat.2 (.inl hu), halloc⟩

/-- A transaction that commits and changes the memory. -/
theorem update (h : Served bank txs w l used mem m) (hdecided : (w.state.tx t).decided = true)
    {c : BankCall} (hcall : (txs t).call = some c) {mem' : Memory} {m' : Addr → Balance}
    {used' : Set ℕ} (hstep : bankStep bank (.ok mem) c = some (.ok mem'))
    (hrepresents : Represents bank used' mem' m') (hbooks : mem'.InOrder bank)
    (hused : ∀ q ∈ used', q ∈ used ∨ ∃ fuel trigger, txs t = .alloc fuel trigger q)
    (hopens : (txs t).Opens → ∃ n, mem'.lookup bank.start = some n ∧ n.next = none ∧
      n.parity = 0 ∧ n.accounts 0 = bank.initBalance) :
    Served bank txs w (l ++ [t]) used' mem' m' := by
  have hlast : (∀ u ∈ l ++ [t], (txs u).Opens) → ∃ n, mem'.lookup bank.start = some n ∧
      n.next = none ∧ n.parity = 0 ∧ n.accounts 0 = bank.initBalance :=
    fun hall => hopens (hall t (by simp))
  refine ⟨?_, hrepresents, fun q hq => ?_, fun hall => ?_, fun hall _ => ?_, fun _ => hbooks⟩
  · have hsome : [t].filterMap (fun u => (txs u).call) = [c] := by
      simp [hcall]
    rw [committed_concat, if_pos hdecided, List.filterMap_append, hsome]
    exact h.run.snoc hstep trivial
  · rcases hused q hq with hq | halloc
    · exact (h.used_cases q hq).imp_right fun ⟨u, hu, halloc⟩ =>
        ⟨u, mem_committed_concat.2 (.inl hu), halloc⟩
    · exact .inr ⟨t, mem_committed_concat.2 (.inr ⟨rfl, hdecided⟩), halloc⟩
  · obtain ⟨n, hn, hnext, hparity, -⟩ := hlast hall
    exact ⟨n, hn, hnext, hparity⟩
  · obtain ⟨n, hn, -, -, hfirst⟩ := hlast hall
    exact ⟨n, hn, hfirst⟩

end Served

/-! ## Every transaction -/

/-- What `init` leaves in the first account. -/
theorem first_of_initTx {mem' : Memory} (h : bank.initTx mem = .ok (true, mem')) :
    ∃ n, mem'.lookup bank.start = some n ∧ n.accounts 0 = bank.initBalance := by
  simp only [WorkloadBank.initTx, bind_eq_ok, modifySegment_eq_ok, readAccount_eq_ok] at h
  obtain ⟨-, -, mem₁, -, first, ⟨n, hn, -, rfl⟩, hret⟩ := h
  obtain ⟨hfirst, rfl⟩ := Prod.mk.inj (Except.ok.inj hret)
  exact ⟨n, hn, by simpa using hfirst⟩

variable {reply : BankReply} {m' : Addr → Balance}

/-- The result of a closure that is part of a transaction. -/
theorem exec_map {R R' : Type} {p : BankProgram R} {f : R → R'} {result : R'}
    (h : (do
      let r ← p
      return f r).exec m = some (result, m')) : ∃ r, p.exec m = some (r, m') ∧ f r = result := by
  rw [WordProgram.exec_bind] at h
  obtain ⟨⟨r, m₁⟩, hr, hret⟩ := Option.bind_eq_some_iff.1 h
  obtain ⟨rfl, rfl⟩ := Prod.mk.inj (Option.some.inj hret)
  exact ⟨r, hr, rfl⟩

namespace Served

/-- The first closure of `init`. -/
theorem init (h : Served bank txs w l used mem m) (hinit : 0 ≤ bank.initBalance)
    (hnb : 0 < bank.nbaccounts) (ht : txs t = .init) (hdecided : (w.state.tx t).decided = true)
    (hopens : ∀ u ∈ l, (txs u).Opens)
    (hexec : ((txs t).program bank).exec m = some (reply, m')) :
    ∃ used' mem', Served bank txs w (l ++ [t]) used' mem' m' := by
  obtain ⟨n, hn, hnext, hparity⟩ := h.single hopens
  obtain ⟨mem', last, htx, hbooks, hbalanced, hnext', hparity'⟩ :=
    initTx_books hinit hnb hn hnext hparity
  obtain ⟨m₁, hm₁, hrep⟩ := exec_initTx h.represents htx
  rw [ht] at hexec
  obtain ⟨_, hy, -⟩ := exec_map hexec
  obtain ⟨-, rfl⟩ := Prod.mk.inj (Option.some.inj (hm₁.symm.trans hy))
  refine ⟨used, mem', h.update hdecided (c := .init) (by rw [ht]; rfl)
    (by rw [bankStep, htx]; rfl) hrep ⟨[], _, hbooks, hbalanced⟩ (fun q hq => .inl hq)
    fun _ => ?_⟩
  obtain ⟨n', hn', hfirst⟩ := first_of_initTx htx
  obtain rfl : last = n' := Option.some.inj (hbooks.lookup_last.symm.trans hn')
  exact ⟨last, hn', hnext', hparity', hfirst⟩

/-- The closure of `short_tx`. -/
theorem short (h : Served bank txs w l used mem m) {fuel sendId recvId : ℕ}
    (ht : txs t = .short fuel sendId recvId) (hdecided : (w.state.tx t).decided = true)
    (hbooks : mem.InOrder bank) (hexec : ((txs t).program bank).exec m = some (reply, m')) :
    ∃ used' mem', Served bank txs w (l ++ [t]) used' mem' m' := by
  obtain ⟨front, last, hbooks, hbalanced⟩ := hbooks
  obtain ⟨mem', front', last', htx, hbooks', hbalanced'⟩ := hbooks.shortTx hbalanced sendId recvId
  rw [ht] at hexec
  obtain ⟨_, hy, -⟩ := exec_map hexec
  obtain ⟨-, hrep⟩ := exec_shortTx h.represents htx hy
  refine ⟨used, mem', h.update hdecided (c := .shortTx sendId recvId) (by rw [ht]; rfl)
    (by rw [bankStep, htx]; rfl) hrep ⟨front', last', hbooks', hbalanced'⟩
    (fun q hq => .inl hq) fun hopens => ?_⟩
  rw [ht] at hopens
  exact hopens.elim

/-- The closure of `alloc_tx`. -/
theorem alloc (h : Served bank txs w l used mem m) (hinit : 0 ≤ bank.initBalance)
    (hnb : 0 < bank.nbaccounts) {fuel trigger : ℕ} {block : Ptr}
    (ht : txs t = .alloc fuel trigger block) (hdecided : (w.state.tx t).decided = true)
    (hnull : block ≠ 0) (hapart : ∀ q ∈ used, Apart bank block q) (hbooks : mem.InOrder bank)
    (hexec : ((txs t).program bank).exec m = some (reply, m')) :
    ∃ used' mem', Served bank txs w (l ++ [t]) used' mem' m' := by
  obtain ⟨front, last, hbooks, hbalanced⟩ := hbooks
  have hblock : block ∉ mem := fun hmem =>
    (hapart block (h.represents.used_of_mem block hmem)).not_within within_countAt within_countAt
  obtain ⟨mem', front', last', htx, hbooks', hbalanced'⟩ :=
    hbooks.allocTx hbalanced hinit hnb hblock trigger
  rw [ht] at hexec
  obtain ⟨_, hy, -⟩ := exec_map hexec
  have hrep := exec_allocTx h.represents hnull hapart htx hy
  refine ⟨insert block used, mem', h.update hdecided (c := .allocTx trigger block)
    (by rw [ht]; rfl) (by rw [bankStep, if_neg hblock, htx]) hrep
    ⟨front', last', hbooks', hbalanced'⟩ (fun q hq => ?_) fun hopens => ?_⟩
  · rcases Set.mem_insert_iff.1 hq with rfl | hq
    · exact .inr ⟨fuel, trigger, ht⟩
    · exact .inl hq
  · rw [ht] at hopens
    exact hopens.elim

/-- What `long_tx` and the check of `init` return. -/
theorem reads (h : Served bank txs w l used mem m) (hnb : 0 < bank.nbaccounts)
    (hcall : (txs t).call = none) (hopens : (txs t).Opens → ∀ u ∈ l, (txs u).Opens)
    (hex : ∃ u ∈ w.committed l, txs u = .init)
    (hexec : ((txs t).program bank).exec m = some (reply, m')) : reply.Passes ∧ m' = m := by
  cases htx : txs t with
  | init | short fuel sendId recvId | alloc fuel trigger block =>
    rw [htx] at hcall
    cases hcall
  | initCheck =>
    rw [htx] at hexec hopens
    obtain ⟨n, hn, hfirst⟩ := h.first (hopens trivial) hex
    obtain ⟨found, hfound, rfl⟩ := exec_map hexec
    rw [BankProgram.initCheck, h.represents.exec_loadAccount hn hnb] at hfound
    obtain ⟨rfl, rfl⟩ := Prod.mk.inj (Option.some.inj hfound)
    exact ⟨by simpa [BankReply.Passes] using hfirst, rfl⟩
  | long fuel nbaccounts =>
    obtain ⟨front, last, hbooks, hbalanced⟩ := h.books hex
    rw [htx] at hexec
    obtain ⟨result, hresult, rfl⟩ := exec_map hexec
    obtain ⟨rfl, rfl⟩ :=
      Prod.mk.inj (exec_longTx h.represents (hbooks.longTx hbalanced nbaccounts) hresult)
    exact ⟨rfl, rfl⟩

/-- The next transaction of the order. -/
theorem concat (h : Served bank txs w l used mem m) (hinit : 0 ≤ bank.initBalance)
    (hnb : 0 < bank.nbaccounts) (hblocks : BlocksApart bank txs w) (hnodup : t ∉ l)
    (hopens : (txs t).Opens → ∀ u ∈ l, (txs u).Opens)
    (hex : txs t ≠ .init → ∃ u ∈ w.committed l, txs u = .init)
    (hdecided : (w.state.tx t).decided = true)
    (hexec : ((txs t).program bank).exec m = some (reply, m')) :
    ∃ used' mem', Served bank txs w (l ++ [t]) used' mem' m' := by
  cases htx : txs t with
  | init => exact h.init hinit hnb htx hdecided (hopens (by rw [htx]; trivial)) hexec
  | short fuel sendId recvId =>
    exact h.short htx hdecided (h.books (hex (by rw [htx]; exact BankTx.noConfusion))) hexec
  | alloc fuel trigger block =>
    refine h.alloc hinit hnb htx hdecided (hblocks.nonnull t _ _ _ htx hdecided) (fun q hq => ?_)
      (h.books (hex (by rw [htx]; exact BankTx.noConfusion))) hexec
    rcases h.used_cases q hq with rfl | ⟨u, hu, fuel', trigger', hu'⟩
    · exact hblocks.start t _ _ _ htx hdecided
    · obtain ⟨hul, hudecided⟩ := List.mem_filter.1 hu
      have hne : t ≠ u := fun heq => hnodup (heq ▸ hul)
      exact hblocks.apart t _ _ _ u _ _ _ hne htx hdecided hu' hudecided
  | initCheck | long fuel nbaccounts =>
    have hcall : (txs t).call = none := by rw [htx]; rfl
    obtain ⟨-, rfl⟩ := h.reads hnb hcall hopens (hex (by rw [htx]; exact BankTx.noConfusion)) hexec
    exact ⟨used, mem, h.skip fun _ => hcall⟩

end Served

/-- The transactions of the order, up to any of them. -/
theorem exists_served (hinit : 0 ≤ bank.initBalance) (hnb : 0 < bank.nbaccounts)
    (hfirst : InitFirst txs w) (hblocks : BlocksApart bank txs w)
    (halone : RunsAlone (fun t => (txs t).program bank) w order m) (horder : order = l ++ l') :
    ∃ used mem m₁, WordProgram.execAll (fun t => (txs t).program bank) (w.committed l)
      (fun _ => 0) = some m₁ ∧ Served bank txs w l used mem m₁ := by
  induction l using List.reverseRecOn generalizing l' with
  | nil => exact ⟨_, _, _, rfl, .nil⟩
  | append_singleton l t ih =>
    have hsplit : order = l ++ t :: l' := by rw [horder, List.append_assoc]; rfl
    obtain ⟨used, mem, m₁, hexecAll, hserved⟩ := ih hsplit
    obtain ⟨m₁', m₂, hexecAll', -, hresult⟩ := halone.alone l t l' hsplit
    obtain rfl : m₁ = m₁' := Option.some.inj (hexecAll.symm.trans hexecAll')
    cases hdecided : (w.state.tx t).decided with
    | false =>
      refine ⟨used, mem, m₁, ?_, hserved.skip fun h => by simp [hdecided] at h⟩
      rw [committed_concat, hdecided]
      simpa using hexecAll
    | true =>
      obtain ⟨reply, hreply⟩ := halone.ended t hdecided
      have hexec := hresult reply hreply
      have hnodup := halone.serializes.nodup
      rw [hsplit, List.nodup_middle, List.nodup_cons, List.mem_append, not_or] at hnodup
      obtain ⟨used', mem', hserved'⟩ := hserved.concat hinit hnb hblocks hnodup.1.1
        (hfirst.opens_before halone.serializes hsplit)
        (hfirst.exists_init halone.serializes hsplit) hdecided hexec
      refine ⟨used', mem', m₂, ?_, hserved'⟩
      rw [committed_concat, if_pos hdecided, WordProgram.execAll_append, hexecAll]
      simp [WordProgram.execAll, hexec]

/-- What a transaction returns, wherever it is in the order. -/
theorem passes_of_runsAlone (hinit : 0 ≤ bank.initBalance) (hnb : 0 < bank.nbaccounts)
    (hfirst : InitFirst txs w) (hblocks : BlocksApart bank txs w)
    (halone : RunsAlone (fun t => (txs t).program bank) w order m) (ht : t ∈ order)
    (hret : w.rest (fun t => (txs t).program bank) t = some (.ret reply)) : reply.Passes := by
  obtain ⟨l, l', horder⟩ := List.append_of_mem ht
  obtain ⟨used, mem, m₁, hexecAll, hserved⟩ := exists_served hinit hnb hfirst hblocks halone horder
  obtain ⟨m₁', m₂, hexecAll', -, hresult⟩ := halone.alone l t l' horder
  obtain rfl : m₁ = m₁' := Option.some.inj (hexecAll.symm.trans hexecAll')
  have hexec := hresult reply hret
  cases htx : txs t with
  | init | short fuel sendId recvId | alloc fuel trigger block =>
    -- nothing is checked
    rw [htx] at hexec
    obtain ⟨_, -, rfl⟩ := exec_map hexec
    trivial
  | initCheck | long fuel nbaccounts =>
    have hcall : (txs t).call = none := by rw [htx]; rfl
    have hex := hfirst.exists_init halone.serializes horder (by rw [htx]; exact BankTx.noConfusion)
    exact (hserved.reads hnb hcall (hfirst.opens_before halone.serializes horder) hex hexec).1

/-- The concurrent bank: in every undisturbed run in which transactions execute the closures of the
bank, `init` first, the transactions that commit are a run of the atomic transactions of the bank,
and none reports a violation. -/
theorem bankServed (hinit : 0 ≤ bank.initBalance) (hnb : 1 ≤ bank.nbaccounts)
    (h : (recording S).Reachable (undisturbedPrograms S fun t => (txs t).program bank) w)
    (hfirst : InitFirst txs w) (hblocks : BlocksApart bank txs w) : BankServed bank txs w := by
  obtain ⟨order, m, hserial⟩ := exists_serializes_of_undisturbed h
  have halone := hserial.runsAlone (executing_of_reachable (h.mono fun _ _ _ hok => hok.2))
  refine ⟨?_, fun t reply hbegun hret =>
    passes_of_runsAlone hinit hnb hfirst hblocks halone ((hserial.mem t).2 hbegun) hret⟩
  obtain ⟨used, mem, m₁, hexecAll, hserved⟩ :=
    exists_served hinit hnb hfirst hblocks halone (List.append_nil order).symm
  obtain rfl : m = m₁ := Option.some.inj (halone.memory.symm.trans hexecAll)
  refine ⟨order, m, used, mem, halone, hserved.run, hserved.represents, ?_⟩
  rintro ⟨t, ht, hdecided⟩
  have hbegun : w.Begun t := fun hpc => by simp [Tx.decided, hpc] at hdecided
  obtain ⟨front, last, hbooks, hbalanced⟩ :=
    hserved.books ⟨t, List.mem_filter.2 ⟨(hserial.mem t).2 hbegun, hdecided⟩, ht⟩
  exact ⟨_, hbooks.consistent hbalanced hinit hnb⟩

/-- `init` runs first if its transactions are settled at some time, and the others begin later. -/
theorem InitFirst.of_time {k : ℕ} (time : ℕ) (hborn : ∀ u, k ≤ u → (w.state.tx u).pc = .unborn)
    (hopened : ∀ t < k, (w.state.tx t).pc ≠ .unborn → txs t ≠ .init →
      ∃ u < k, txs u = .init ∧ (w.state.tx u).decided = true ∧ w.decided u < w.began t)
    (hclosed : ∀ t < k, (w.state.tx t).pc ≠ .unborn → (txs t).Opens → w.settled t < time)
    (hlater : ∀ u < k, (w.state.tx u).pc ≠ .unborn → ¬ (txs u).Opens → time ≤ w.began u) :
    InitFirst txs w := by
  have hlt : ∀ t, w.Begun t → t < k := fun t hbegun => by
    by_contra hge
    exact hbegun (hborn t (Nat.le_of_not_lt hge))
  refine ⟨fun t hbegun ht => ?_, fun t u ht hu hopens hnot =>
    Nat.lt_of_lt_of_le (hclosed t (hlt t ht) ht hopens) (hlater u (hlt u hu) hu hnot)⟩
  obtain ⟨u, -, hu⟩ := hopened t (hlt t hbegun) hbegun ht
  exact ⟨u, hu⟩

/-- A bank with two accounts per segment. -/
def sharedBank : WorkloadBank where
  nbaccounts := 2
  initBalance := 10
  start := 8

/-- `init` and the transactions of five workers. -/
def sharingTxs : Tid → BankTx
  | 1 => .init
  | 2 => .initCheck
  | 3 => .long 1 2
  | 4 => .short 1 0 1
  | 5 => .alloc 1 2 48
  | _ => .long 2 2

/-- Calls of `tm_read` that accept their words. -/
def readsOf (t : Tid) (addrs : List Addr) : List (Label Balance) :=
  addrs.flatMap fun a => .tx t (.read [a]) :: accesses Balance t 6

/-- Calls of `tm_write`. -/
def writesOf (t : Tid) (entries : List (Addr × Balance)) : List (Label Balance) :=
  entries.map fun e => .tx t (.write e.1 e.2)

/-- A transfer commits while the balances are summed up, and this transaction is refused. Then an
account is added while they are summed up. -/
def sharingRun : List (Label Balance) :=
  .tx 1 (.begin false) :: writesOf 1 [(8, 2), (32, 10), (40, 10)] ++
  .tx 1 .endTx :: accesses Balance 1 14 ++
  .tx 2 (.begin true) :: readsOf 2 [32] ++ [.tx 2 .endTx] ++
  .tx 3 (.begin true) :: readsOf 3 [8, 24, 32] ++
  .tx 4 (.begin false) :: readsOf 4 [8, 32] ++ writesOf 4 [(32, 9)] ++
  readsOf 4 [40] ++ writesOf 4 [(40, 11)] ++ .tx 4 .endTx :: accesses Balance 4 10 ++
  .tx 3 (.read [40]) :: accesses Balance 3 2 ++
  .tx 5 (.begin false) :: readsOf 5 [8, 16] ++
  writesOf 5 [(16, 48), (48, 1), (72, 10)] ++ [.tx 5 .endTx] ++
  .tx 6 (.begin true) :: readsOf 6 [8, 24, 32, 40, 16] ++
  accesses Balance 5 14 ++ [.tx 6 .endTx]

theorem sharingRun_isSome : ((recording (Setup.direct Balance)).exec
    (checkPrograms 7 fun t => (sharingTxs t).program sharedBank)
    (recording (Setup.direct Balance)).init sharingRun).isSome := by
  decide +kernel

/-- Where the run ends. -/
def sharedState : Recorded Balance :=
  ((recording (Setup.direct Balance)).exec
    (checkPrograms 7 fun t => (sharingTxs t).program sharedBank)
    (recording (Setup.direct Balance)).init sharingRun).get sharingRun_isSome

/-- There is one transaction that may allocate. -/
theorem sharingTxs_alloc {fuel trigger : ℕ} {block : Ptr}
    (h : sharingTxs t = .alloc fuel trigger block) : t = 5 ∧ block = 48 := by
  unfold sharingTxs at h
  split at h <;> simp_all

theorem exec_sharingRun : (recording (Setup.direct Balance)).exec
    (checkPrograms 7 fun t => (sharingTxs t).program sharedBank)
    (recording (Setup.direct Balance)).init sharingRun = some sharedState :=
  Option.eq_some_of_isSome sharingRun_isSome

theorem bankServed_sharing : BankServed sharedBank sharingTxs sharedState := by
  obtain ⟨hreach, hborn⟩ := reachable_of_checkPrograms exec_sharingRun
  refine bankServed (by decide) (by decide) hreach
    (.of_time 28 hborn (by decide +kernel) (by decide +kernel) (by decide +kernel))
    ⟨?_, ?_, ?_⟩
  · intro t fuel trigger block ht _
    rw [(sharingTxs_alloc ht).2]
    decide
  · intro t fuel trigger block ht _
    rw [(sharingTxs_alloc ht).2]
    exact .inr (by decide)
  · intro t _ _ _ u _ _ _ hne ht _ hu _
    exact absurd ((sharingTxs_alloc ht).1.trans (sharingTxs_alloc hu).1.symm) hne

end TransactionalMemory.Grading
