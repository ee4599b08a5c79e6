import Mathlib.Algebra.BigOperators.Intervals
import Mathlib.Tactic.LinearCombination
import Mathlib.Tactic.Ring
import TransactionalMemory.Foundations.LinkedList
import TransactionalMemory.Grading.Bank

/-!
# The bank check never blames a correct transactional memory

The books of the bank: the segment list starting at the first segment ends, its segments are full
except the last one, no balance is negative, and the balances together with the parities amount to
`initBalance` for each account (`Books`). A loop over the segment list is described by what it
computes on the list (`longLoop_eq`, `shortLoop_eq`, `allocLoop_eq`), and every transaction keeps
the books (`Books.shortTx`, `Books.allocTx`).
-/

namespace TransactionalMemory.Grading

open WorkloadBank

variable {bank : WorkloadBank} {mem mem' : Memory} {front l : List (Ptr × AccountSegment)}
  {last e : Ptr × AccountSegment} {p q : Ptr} {n n' : AccountSegment} {slot : Slot}

/-- A computation that has not failed goes on. -/
theorem ok_bind {α β : Type} (a : α) (f : α → Except Fault β) : (Except.ok a >>= f) = f a := rfl

/-! ## The segment list -/

/-- The segment list from an address on. -/
abbrev Walk (mem : Memory) : Option Ptr → List (Ptr × AccountSegment) → Option Ptr → Prop :=
  Links (fun p => mem.lookup p) AccountSegment.next

/-- The number of accounts. -/
def total (l : List (Ptr × AccountSegment)) : ℕ := (l.map fun e => e.2.count).sum

/-- The balances and the parity of a segment. -/
def AccountSegment.worth (segment : AccountSegment) : Balance :=
  segment.parity + ∑ i ∈ Finset.range segment.count, segment.accounts i

/-- The balances and the parities of all segments. -/
def worth (l : List (Ptr × AccountSegment)) : Balance := (l.map fun e => e.2.worth).sum

/-- There are no accounts without segments. -/
@[simp] theorem total_nil : total [] = 0 := rfl

/-- The accounts of a segment are added. -/
@[simp] theorem total_cons : total (e :: l) = e.2.count + total l := rfl

/-- Numbers of accounts add up. -/
@[simp] theorem total_append (l' : List (Ptr × AccountSegment)) :
    total (l ++ l') = total l + total l' := by simp [total]

/-- There is no money without segments. -/
@[simp] theorem worth_nil : worth [] = 0 := rfl

/-- The money in a segment is added. -/
@[simp] theorem worth_cons : worth (e :: l) = e.2.worth + worth l := rfl

/-- Amounts of money add up. -/
@[simp] theorem worth_append (l' : List (Ptr × AccountSegment)) :
    worth (l ++ l') = worth l + worth l' := by simp [worth]

/-- A segment that is there is found. -/
theorem segmentAt_eq (h : mem.lookup p = some n) : segmentAt mem p = .ok n := by
  rw [segmentAt, h]

/-- A segment that is there can be modified. -/
theorem modifySegment_eq (h : mem.lookup p = some n) (f : AccountSegment → AccountSegment) :
    modifySegment mem p f = .ok (mem.insert p (f n)) := by
  rw [modifySegment, segmentAt_eq h]
  rfl

/-- An account that is there can be read. -/
theorem readAccount_eq (h : mem.lookup p = some n) {i : ℕ} (hi : i < bank.nbaccounts) :
    bank.readAccount mem p i = .ok (n.accounts i) := by
  rw [readAccount, segmentAt_eq h, ok_bind, if_pos hi]
  rfl

/-- An account that is there can be written. -/
theorem writeAccount_eq (h : mem.lookup p = some n) {i : ℕ} (hi : i < bank.nbaccounts)
    (v : Balance) : bank.writeAccount mem p i v =
      .ok (mem.insert p { n with accounts := Function.update n.accounts i v }) := by
  rw [writeAccount, if_pos hi, modifySegment_eq h]

/-- A walk is not longer than the memory. -/
theorem Walk.length_le {p : Option Ptr} (h : Walk mem p l none) : l.length ≤ mem.keys.length := by
  apply Links.length_le h
  intro a ha
  rw [AList.lookup_isSome] at ha
  exact AList.mem_keys.1 ha

/-- The segments on a walk are in memory. -/
theorem Walk.lookup {p q : Option Ptr} (h : Walk mem p l q) (he : e ∈ l) :
    mem.lookup e.1 = some e.2 := by
  have hnode := Links.node_of_mem h he
  exact hnode

/-- A walk finds one segment at an address. -/
theorem Walk.node_unique {p q : Option Ptr} {a : Ptr} (h : Walk mem p l q) (hn : (a, n) ∈ l)
    (hn' : (a, n') ∈ l) : n = n' :=
  Option.some.inj ((h.lookup hn).symm.trans (h.lookup hn'))

/-! ## What the loops compute -/

/-- Every account of a segment exists and has a nonnegative balance. -/
def Sound (bank : WorkloadBank) (l : List (Ptr × AccountSegment)) : Prop :=
  ∀ e ∈ l, e.2.count ≤ bank.nbaccounts ∧ ∀ i < e.2.count, 0 ≤ e.2.accounts i

/-- The loop over the accounts of a segment sums up their balances. -/
theorem sumAccounts_eq (h : mem.lookup p = some n) {todo i : ℕ} (hi : i + todo ≤ bank.nbaccounts)
    (hnonneg : ∀ j < i + todo, 0 ≤ n.accounts j) (sum : Balance) :
    bank.sumAccounts mem p todo i sum =
      .ok (some (sum + ∑ j ∈ Finset.range todo, n.accounts (i + j))) := by
  induction todo generalizing i sum with
  | zero => simp [sumAccounts, pure, Except.pure]
  | succ todo ih =>
    -- the account at index `i` exists and is not negative
    rw [sumAccounts, readAccount_eq h (by omega), ok_bind,
      if_neg (not_lt.2 (hnonneg i (by omega))),
      ih (by omega) (fun j hj => hnonneg j (by omega)), Finset.sum_range_succ']
    simp only [Nat.add_zero, Nat.add_assoc, Nat.add_comm 1]
    congr 2
    ring

/-- The loop of `long_tx` sums up the list. -/
theorem longLoop_eq {p : Option Ptr} (h : Walk mem p l none) (hsound : Sound bank l) {fuel : ℕ}
    (hfuel : l.length ≤ fuel) (count : ℕ) (sum : Balance) :
    bank.longLoop mem fuel p count sum = .ok (some (count + total l, sum + worth l)) := by
  induction l generalizing p fuel count sum with
  | nil =>
    obtain rfl := links_nil.1 h
    cases fuel <;> simp [longLoop, pure, Except.pure]
  | cons e l ih =>
    obtain ⟨rfl, hnode, hrest⟩ := links_cons.1 h
    obtain ⟨hcount, hnonneg⟩ := hsound e List.mem_cons_self
    -- there is fuel for one segment more
    obtain ⟨fuel, rfl⟩ : ∃ k, fuel = k + 1 := ⟨fuel - 1, by simp at hfuel; omega⟩
    rw [longLoop, segmentAt_eq hnode, ok_bind,
      sumAccounts_eq hnode (by simpa using hcount) (by simpa using hnonneg), ok_bind]
    simp only [Nat.zero_add]
    rw [ih hrest (fun e' he' => hsound e' (List.mem_cons_of_mem _ he')) (by simpa using hfuel)]
    simp only [total_cons, worth_cons, AccountSegment.worth, add_assoc]

/-- The slot of the account with a given index. -/
def locate : List (Ptr × AccountSegment) → ℕ → Option Slot
  | [], _ => none
  | e :: l, id => if id < e.2.count then some (e.1, id) else locate l (id - e.2.count)

/-- The slot that `short_tx` ends up with for one of its two accounts. -/
def found (l : List (Ptr × AccountSegment)) : ℕ × Option Slot → Option Slot
  | (_, some slot) => some slot
  | (id, none) => locate l id

/-- An account is looked for in one segment after the other. -/
theorem found_cons (x : ℕ × Option Slot) :
    found (e :: l) x = found l (resolve e.1 e.2.count x) := by
  obtain ⟨id, slot | slot⟩ := x
  · simp only [found, locate, resolve]
    split <;> rfl
  · rfl

/-- After the last segment the account has been found or not. -/
theorem found_nil (x : ℕ × Option Slot) : found [] x = x.2 := by
  obtain ⟨id, slot | slot⟩ := x <;> rfl

/-- The loop of `short_tx` finds both accounts or neither. -/
theorem shortLoop_eq (h : Walk mem (some p) l none) {fuel : ℕ} (hfuel : l.length ≤ fuel)
    (send recv : ℕ × Option Slot) :
    shortLoop mem fuel p send recv =
      .ok (match found l send, found l recv with
        | some sender, some recver => some (sender, recver)
        | _, _ => none) := by
  induction l generalizing p fuel send recv with
  | nil => cases links_nil.1 h
  | cons e l ih =>
    obtain ⟨heq, hnode, hrest⟩ := links_cons.1 h
    obtain rfl := Option.some.inj heq
    obtain ⟨fuel, rfl⟩ : ∃ k, fuel = k + 1 := ⟨fuel - 1, by simp at hfuel; omega⟩
    rw [shortLoop, segmentAt_eq hnode, ok_bind, found_cons, found_cons]
    generalize resolve e.1 e.2.count send = send'
    generalize resolve e.1 e.2.count recv = recv'
    -- an account is missing: go on to the next segment, or stop at the last one
    have hmissing : send'.2 = none ∨ recv'.2 = none →
        e.2.next.elim (return none) (fun next => shortLoop mem fuel next send' recv') =
          .ok (match found l send', found l recv' with
            | some sender, some recver => some (sender, recver)
            | _, _ => none) := by
      intro hor
      cases hnext : e.2.next with
      | none =>
        rw [hnext] at hrest
        cases l with
        | nil =>
          rw [found_nil, found_nil]
          rcases hor with h | h <;> rw [h]
          · rfl
          · cases send'.2 <;> rfl
        | cons e' l => cases hrest.1
      | some next =>
        rw [hnext] at hrest
        exact ih hrest (by simpa using hfuel) send' recv'
    -- the loop goes on unless both accounts have been found
    obtain ⟨sendId, sender | sender⟩ := send'
    · refine Eq.trans ?_ (hmissing (.inl rfl))
      cases e.2.next <;> rfl
    · obtain ⟨recvId, recver | recver⟩ := recv'
      · refine Eq.trans ?_ (hmissing (.inr rfl))
        cases e.2.next <;> rfl
      · rfl

/-- The slot found is one of an account. -/
theorem exists_of_locate {id : ℕ} (h : locate l id = some slot) :
    ∃ n, (slot.1, n) ∈ l ∧ slot.2 < n.count := by
  induction l generalizing id with
  | nil => cases h
  | cons e l ih =>
    rw [locate] at h
    -- the account is in the first segment, or among the rest
    split at h
    next hlt =>
      obtain rfl := Option.some.inj h
      exact ⟨e.2, List.mem_cons_self, hlt⟩
    next =>
      obtain ⟨n, hmem, hlt⟩ := ih h
      exact ⟨n, List.mem_cons_of_mem _ hmem, hlt⟩

/-- An account is found exactly if there are that many. -/
theorem locate_isSome {id : ℕ} : (locate l id).isSome = decide (id < total l) := by
  induction l generalizing id with
  | nil => simp [locate]
  | cons e l ih =>
    rw [locate, total_cons]
    split
    next hlt => simp [Nat.lt_add_right _ hlt]
    next hge =>
      rw [ih]
      congr 1
      rw [eq_iff_iff]
      omega

/-- The address of the last segment of a list, or `prev` if there is none. -/
def lastAddr (prev : Option Ptr) : List (Ptr × AccountSegment) → Option Ptr
  | [] => prev
  | e :: l => lastAddr (some e.1) l

/-- The last address of a walk. -/
theorem lastAddr_concat (prev : Option Ptr) : lastAddr prev (l ++ [e]) = some e.1 := by
  induction l generalizing prev with
  | nil => rfl
  | cons e' l ih => exact ih _

/-- The loop of `alloc_tx` walks to the last segment. -/
theorem allocLoop_eq (h : Walk mem (some p) (front ++ [last]) none) {fuel : ℕ}
    (hfuel : (front ++ [last]).length ≤ fuel) (trigger : ℕ) (block : Ptr) (prev : Option Ptr)
    (count : ℕ) :
    bank.allocLoop mem trigger block fuel prev p count =
      bank.changeLast mem trigger block (lastAddr prev front) last.1
        (count + total (front ++ [last])) := by
  induction front generalizing p fuel prev count with
  | nil =>
    obtain ⟨heq, hnode, hrest⟩ := links_cons.1 h
    obtain rfl := Option.some.inj heq
    obtain ⟨fuel, rfl⟩ : ∃ k, fuel = k + 1 := ⟨fuel - 1, by simp at hfuel; omega⟩
    rw [allocLoop, segmentAt_eq hnode, ok_bind, links_nil.1 hrest]
    rfl
  | cons e front ih =>
    obtain ⟨heq, hnode, hrest⟩ := links_cons.1 h
    obtain rfl := Option.some.inj heq
    obtain ⟨fuel, rfl⟩ : ∃ k, fuel = k + 1 := ⟨fuel - 1, by simp at hfuel; omega⟩
    -- there is a next segment, since the last one is still to come
    obtain ⟨next, hnext⟩ : ∃ next, e.2.next = some next := by
      cases front with
      | nil => exact ⟨_, hrest.1⟩
      | cons e' front => exact ⟨_, hrest.1⟩
    rw [hnext] at hrest
    rw [allocLoop, segmentAt_eq hnode, ok_bind, hnext]
    show bank.allocLoop mem trigger block fuel (some e.1) next (count + e.2.count) = _
    rw [ih hrest (by simpa using hfuel), List.cons_append, total_cons, Nat.add_assoc]
    rfl

/-! ## The books -/

/-- The segment list ends, all segments but the last are full, the last one has an account, and no
account has a negative balance. -/
structure Books (bank : WorkloadBank) (mem : Memory) (front : List (Ptr × AccountSegment))
    (last : Ptr × AccountSegment) : Prop where
  walk : Walk mem (some bank.start) (front ++ [last]) none
  full : ∀ e ∈ front, e.2.count = bank.nbaccounts
  last_pos : 0 < last.2.count
  last_le : last.2.count ≤ bank.nbaccounts
  nonneg : ∀ e ∈ front ++ [last], ∀ i < e.2.count, 0 ≤ e.2.accounts i

/-- The balances and the parities amount to `initBalance` for each account. -/
def Balanced (bank : WorkloadBank) (l : List (Ptr × AccountSegment)) : Prop :=
  worth l = bank.initBalance * total l

/-- What replacing one summand does to a sum. -/
theorem sum_range_update {c i : ℕ} (hi : i < c) (f : ℕ → Balance) (v : Balance) :
    ∑ j ∈ Finset.range c, Function.update f i v j = ∑ j ∈ Finset.range c, f j + (v - f i) := by
  have hmem := Finset.mem_range.2 hi
  rw [Finset.sum_update_of_mem hmem, ← Finset.add_sum_erase _ f hmem,
    Finset.sdiff_singleton_eq_erase]
  ring

namespace Books

/-- No segment has more accounts than there is room for. -/
theorem count_le (h : Books bank mem front last) (he : e ∈ front ++ [last]) :
    e.2.count ≤ bank.nbaccounts := by
  rcases List.mem_append.1 he with he | he
  · exact (h.full e he).le
  · rw [List.mem_singleton.1 he]
    exact h.last_le

/-- The segments of the books are sound. -/
theorem sound (h : Books bank mem front last) : Sound bank (front ++ [last]) :=
  fun _ he => ⟨h.count_le he, h.nonneg _ he⟩

/-- The last segment is in memory. -/
theorem lookup_last (h : Books bank mem front last) : mem.lookup last.1 = some last.2 :=
  h.walk.lookup (by simp)

/-- The last segment has no next one. -/
theorem next_last (h : Books bank mem front last) : last.2.next = none := by
  obtain ⟨_, -, -, -, hnext⟩ := links_append.1 h.walk
  exact hnext

/-- The previous segment links to the last one. -/
theorem next_prev {prev : Ptr × AccountSegment} (h : Books bank mem (front ++ [prev]) last) :
    prev.2.next = some last.1 := by
  have hwalk := h.walk
  -- the link of a node leads to the start of what follows it
  rw [List.append_assoc] at hwalk
  obtain ⟨_, -, -, -, hnext, -⟩ := links_append.1 hwalk
  exact hnext

/-- The other segments are at other addresses. -/
theorem ne_last (h : Books bank mem front last) : ∀ e ∈ front, e.1 ≠ last.1 := by
  intro e he
  have hnodup := Links.nodup h.walk
  rw [List.map_append] at hnodup
  exact (List.nodup_append.1 hnodup).2.2 _ (List.mem_map_of_mem he) _ (by simp)

/-- With another segment before it, the last segment is not the first one. -/
theorem last_ne_start {prev : Ptr × AccountSegment} (h : Books bank mem (front ++ [prev]) last) :
    last.1 ≠ bank.start := by
  intro heq
  -- the first segment of the list is the one at `bank.start`
  cases front with
  | nil =>
    apply h.ne_last prev (by simp)
    rw [heq]
    exact (Option.some.inj h.walk.1).symm
  | cons e front =>
    apply h.ne_last e (by simp)
    rw [heq]
    exact (Option.some.inj h.walk.1).symm

/-- An account can be read. -/
theorem read (h : Books bank mem front last) (hmem : (slot.1, n) ∈ front ++ [last])
    (hi : slot.2 < n.count) :
    bank.readAccount mem slot.1 slot.2 = .ok (n.accounts slot.2) ∧ 0 ≤ n.accounts slot.2 :=
  ⟨readAccount_eq (h.walk.lookup hmem) (hi.trans_le (h.count_le hmem)),
    h.nonneg _ hmem _ hi⟩

/-- A segment may be rewritten, as long as its link and its number of accounts stay. -/
theorem replace (h : Books bank mem front last) (hmem : (q, n) ∈ front ++ [last])
    (hnext : n'.next = n.next) (hcount : n'.count = n.count)
    (hnonneg : ∀ i < n'.count, 0 ≤ n'.accounts i) :
    ∃ front' last', front' ++ [last'] = replaceNode q n' (front ++ [last]) ∧
      Books bank (mem.insert q n') front' last' := by
  have hlist : replaceNode q n' (front ++ [last]) =
      replaceNode q n' front ++ [if last.1 = q then (q, n') else last] := List.map_append
  refine ⟨_, _, hlist.symm, ⟨?_, ?_, ?_, ?_, ?_⟩⟩
  · rw [← hlist]
    refine Links.replace h.walk (fun m hm => ?_) (AList.lookup_insert mem) fun b hb =>
      AList.lookup_insert_ne hb
    rw [hnext, ← Option.some.inj ((h.walk.lookup hmem).symm.trans hm)]
  · intro e he
    rcases mem_replaceNode.1 he with ⟨rfl, hq⟩ | ⟨he, -⟩
    · obtain ⟨⟨q, m⟩, hm, rfl⟩ := List.mem_map.1 hq
      obtain rfl : m = n := h.walk.node_unique (List.mem_append_left _ hm) hmem
      exact hcount.trans (h.full _ hm)
    · exact h.full e he
  · split
    next heq =>
      obtain rfl : last.2 = n := h.walk.node_unique (by simp) (heq ▸ hmem)
      exact hcount.symm ▸ h.last_pos
    next => exact h.last_pos
  · split
    next heq =>
      obtain rfl : last.2 = n := h.walk.node_unique (by simp) (heq ▸ hmem)
      exact hcount.le.trans h.last_le
    next => exact h.last_le
  · rw [← hlist]
    intro e he
    rcases mem_replaceNode.1 he with ⟨rfl, -⟩ | ⟨he, -⟩
    · exact hnonneg
    · exact h.nonneg e he

/-- An account can be written. The books are kept, and the worth changes by the difference. -/
theorem write (h : Books bank mem front last) (hmem : (slot.1, n) ∈ front ++ [last])
    (hi : slot.2 < n.count) {v : Balance} (hv : 0 ≤ v) :
    ∃ mem' front' last', bank.writeAccount mem slot.1 slot.2 v = .ok mem' ∧
      Books bank mem' front' last' ∧ total (front' ++ [last']) = total (front ++ [last]) ∧
      worth (front' ++ [last']) = worth (front ++ [last]) + (v - n.accounts slot.2) ∧
      ∀ q m, (q, m) ∈ front ++ [last] →
        ∃ m', (q, m') ∈ front' ++ [last'] ∧ m'.count = m.count := by
  obtain ⟨q, i⟩ := slot
  dsimp only at *
  have hcount : ∀ m, (q, m) ∈ front ++ [last] → m.count = n.count := by
    intro m hm
    rw [h.walk.node_unique hm hmem]
  have hnonneg : ∀ j < n.count, 0 ≤ Function.update n.accounts i v j := by
    intro j hj
    by_cases hji : j = i
    · rw [hji, Function.update_self]
      exact hv
    · rw [Function.update_of_ne hji]
      exact h.nonneg _ hmem j hj
  have hnext : { n with accounts := Function.update n.accounts i v }.next = n.next := rfl
  obtain ⟨front', last', hlist, hbooks⟩ := h.replace hmem hnext rfl hnonneg
  refine ⟨_, front', last', writeAccount_eq (h.walk.lookup hmem)
    (hi.trans_le (h.count_le hmem)) v, hbooks, ?_, ?_, fun q' m hm => ?_⟩
  · rw [hlist]
    exact congrArg List.sum (map_replaceNode AccountSegment.count hcount)
  · rw [hlist]
    apply (sum_replaceNode AccountSegment.worth (Links.nodup h.walk) hmem).trans
    congr 1
    show n.parity + ∑ j ∈ Finset.range n.count, Function.update n.accounts i v j -
      (n.parity + ∑ j ∈ Finset.range n.count, n.accounts j) = _
    rw [sum_range_update hi]
    ring
  · rw [hlist]
    by_cases hq : q' = q
    · subst hq
      exact ⟨_, mem_replaceNode.2 (.inl ⟨rfl, List.mem_map_of_mem hmem⟩), (hcount m hm).symm⟩
    · exact ⟨m, mem_replaceNode.2 (.inr ⟨hm, hq⟩), rfl⟩

/-- `long_tx` finds the books in order. -/
theorem longTx (h : Books bank mem front last) (hbalanced : Balanced bank (front ++ [last]))
    (nbaccounts : ℕ) :
    bank.longTx mem nbaccounts = .ok (true, total (front ++ [last])) := by
  rw [WorkloadBank.longTx, longLoop_eq h.walk h.sound (Walk.length_le h.walk), ok_bind]
  simp only [zero_add]
  rw [hbalanced, beq_self_eq_true]
  rfl

/-- `short_tx` keeps the books. -/
theorem shortTx (h : Books bank mem front last) (hbalanced : Balanced bank (front ++ [last]))
    (sendId recvId : ℕ) :
    ∃ mem' front' last', bank.shortTx mem sendId recvId =
        .ok (decide (sendId < total (front ++ [last]) ∧ recvId < total (front ++ [last])), mem') ∧
      Books bank mem' front' last' ∧ Balanced bank (front' ++ [last']) := by
  have hsend : (locate (front ++ [last]) sendId).isSome = _ := locate_isSome
  have hrecv : (locate (front ++ [last]) recvId).isSome = _ := locate_isSome
  rw [WorkloadBank.shortTx, shortLoop_eq h.walk (Walk.length_le h.walk), ok_bind, found, found,
    Bool.decide_and, ← hsend, ← hrecv]
  cases hsender : locate (front ++ [last]) sendId with
  | none => exact ⟨mem, front, last, rfl, h, hbalanced⟩
  | some sender =>
    cases hrecver : locate (front ++ [last]) recvId with
    | none => exact ⟨mem, front, last, rfl, h, hbalanced⟩
    | some recver =>
      obtain ⟨n, hn, hi⟩ := exists_of_locate hsender
      obtain ⟨m, hm, hj⟩ := exists_of_locate hrecver
      obtain ⟨hread, -⟩ := h.read hn hi
      simp only [hread, ok_bind]
      -- nothing is transferred from an account with balance zero
      by_cases hpos : n.accounts sender.2 > 0
      · -- both writes may be to one account, so the second balance is read after the first
        rw [if_pos hpos]
        obtain ⟨mem₁, front₁, last₁, hwrite₁, h₁, htotal₁, hworth₁, hslots₁⟩ :=
          h.write hn hi (Int.le_sub_one_of_lt hpos)
        obtain ⟨m', hm', hcount⟩ := hslots₁ _ m hm
        rw [← hcount] at hj
        obtain ⟨hread', hnonneg⟩ := h₁.read hm' hj
        obtain ⟨mem₂, front₂, last₂, hwrite₂, h₂, htotal₂, hworth₂, -⟩ :=
          h₁.write hm' hj (add_nonneg hnonneg zero_le_one)
        refine ⟨mem₂, front₂, last₂, ?_, h₂, ?_⟩
        · simp only [hwrite₁, ok_bind, hread', hwrite₂]
          rfl
        · -- what the sender loses, the receiver gains
          rw [Balanced, htotal₂, htotal₁, hworth₂, hworth₁, ← hbalanced]
          ring
      · rw [if_neg hpos]
        exact ⟨mem, front, last, rfl, h, hbalanced⟩

/-- The last segment is replaced. -/
theorem replaceLast (h : Books bank mem front last) {back : List (Ptr × AccountSegment)}
    (hfront : ∀ e ∈ front, mem'.lookup e.1 = mem.lookup e.1)
    (hback : Walk mem' (some last.1) back none) :
    Walk mem' (some bank.start) (front ++ back) none :=
  Links.splice h.walk hfront hback

/-- A record written to the address of the last segment is not in the front of the list. -/
theorem lookup_front (h : Books bank mem front last) (he : e ∈ front) :
    (mem.insert last.1 n).lookup e.1 = mem.lookup e.1 :=
  AList.lookup_insert_ne (h.ne_last e he)

/-- The last account is removed from a segment that keeps others. -/
theorem shrink (h : Books bank mem front last) (hbalanced : Balanced bank (front ++ [last]))
    {k : ℕ} (hk : last.2.count = k + 1) (hpos : 0 < k) {parity : Balance}
    (hparity : parity = last.2.parity + last.2.accounts k - bank.initBalance) :
    Books bank (mem.insert last.1 { last.2 with count := k, parity }) front
        (last.1, { last.2 with count := k, parity }) ∧
      Balanced bank (front ++ [(last.1, { last.2 with count := k, parity })]) := by
  refine ⟨⟨?_, h.full, hpos, ?_, ?_⟩, ?_⟩
  · refine h.replaceLast (fun e he => h.lookup_front he) ?_
    exact ⟨rfl, AList.lookup_insert mem, h.next_last⟩
  · have := h.last_le
    dsimp only
    omega
  · intro e he j hj
    rcases List.mem_append.1 he with he | he
    · exact h.nonneg e (List.mem_append_left _ he) j hj
    · rw [List.mem_singleton.1 he] at hj ⊢
      exact h.nonneg last (by simp) j (by dsimp only at hj; omega)
  · unfold Balanced at *
    simp only [worth_append, worth_cons, worth_nil, total_append, total_cons, total_nil,
      AccountSegment.worth, hk, Finset.sum_range_succ] at hbalanced ⊢
    rw [hparity]
    push_cast at hbalanced ⊢
    linear_combination hbalanced

/-- An account is added to a segment that has room. -/
theorem grow (h : Books bank mem front last) (hbalanced : Balanced bank (front ++ [last]))
    (hinit : 0 ≤ bank.initBalance) (hlt : last.2.count < bank.nbaccounts)
    (hrecord : n = { last.2 with
      accounts := Function.update last.2.accounts last.2.count bank.initBalance
      count := last.2.count + 1 }) :
    Books bank (mem.insert last.1 n) front (last.1, n) ∧
      Balanced bank (front ++ [(last.1, n)]) := by
  subst hrecord
  refine ⟨⟨?_, h.full, Nat.succ_pos _, hlt, ?_⟩, ?_⟩
  · refine h.replaceLast (fun e he => h.lookup_front he) ?_
    exact ⟨rfl, AList.lookup_insert mem, h.next_last⟩
  · intro e he j hj
    rcases List.mem_append.1 he with he | he
    · exact h.nonneg e (List.mem_append_left _ he) j hj
    · rw [List.mem_singleton.1 he] at hj ⊢
      show 0 ≤ Function.update last.2.accounts last.2.count bank.initBalance j
      by_cases hj' : j = last.2.count
      · rw [hj', Function.update_self]
        exact hinit
      · rw [Function.update_of_ne hj']
        exact h.nonneg last (by simp) j (Nat.lt_of_le_of_ne (Nat.lt_succ_iff.1 hj) hj')
  · have hsum : ∑ j ∈ Finset.range last.2.count,
        Function.update last.2.accounts last.2.count bank.initBalance j =
        ∑ j ∈ Finset.range last.2.count, last.2.accounts j :=
      Finset.sum_congr rfl fun j hj => Function.update_of_ne (Finset.mem_range.1 hj).ne _ _
    unfold Balanced at *
    simp only [worth_append, worth_cons, worth_nil, total_append, total_cons, total_nil,
      AccountSegment.worth, Finset.sum_range_succ, hsum, Function.update_self] at hbalanced ⊢
    push_cast at hbalanced ⊢
    linear_combination hbalanced

/-- A new segment with one account is appended to a list of full segments. -/
theorem append (h : Books bank mem front last) (hbalanced : Balanced bank (front ++ [last]))
    (hinit : 0 ≤ bank.initBalance) (hnb : 0 < bank.nbaccounts)
    (hfull : last.2.count = bank.nbaccounts) {block : Ptr} (hblock : block ∉ mem)
    (hlinked : n = { last.2 with next := some block })
    (hrecord : n' = { AccountSegment.zeroed with
      count := 1
      accounts := Function.update AccountSegment.zeroed.accounts 0 bank.initBalance })
    (mem' : Memory) (hself : mem'.lookup last.1 = some n) (hnew : mem'.lookup block = some n')
    (hother : ∀ p, p ≠ last.1 → p ≠ block → mem'.lookup p = mem.lookup p) :
    Books bank mem' (front ++ [(last.1, n)]) (block, n') ∧
      Balanced bank (front ++ [(last.1, n)] ++ [(block, n')]) := by
  subst hlinked hrecord
  -- the allocator returns a block that is not in use
  have hne : ∀ e ∈ front, e.1 ≠ block := by
    rintro e he rfl
    refine hblock (AList.lookup_isSome.1 ?_)
    rw [h.walk.lookup (List.mem_append_left _ he)]
    rfl
  refine ⟨⟨?_, ?_, Nat.one_pos, hnb, ?_⟩, ?_⟩
  · rw [List.append_assoc]
    refine h.replaceLast (fun e he => hother _ (h.ne_last e he) (hne e he)) ?_
    exact ⟨rfl, hself, rfl, hnew, rfl⟩
  · intro e he
    rcases List.mem_append.1 he with he | he
    · exact h.full e he
    · rw [List.mem_singleton.1 he]
      exact hfull
  · intro e he j hj
    rcases List.mem_append.1 he with he | he
    · rcases List.mem_append.1 he with he | he
      · exact h.nonneg e (List.mem_append_left _ he) j hj
      · rw [List.mem_singleton.1 he] at hj ⊢
        exact h.nonneg last (by simp) j hj
    · rw [List.mem_singleton.1 he] at hj ⊢
      obtain rfl := Nat.lt_one_iff.1 hj
      exact hinit
  · unfold Balanced at *
    simp only [worth_append, worth_cons, worth_nil, total_append, total_cons, total_nil,
      AccountSegment.worth, AccountSegment.zeroed, Finset.sum_range_one,
      Function.update_self] at hbalanced ⊢
    push_cast at hbalanced ⊢
    linear_combination hbalanced

/-- The last segment, which has one account, is dropped and its parity pushed to the previous
one. -/
theorem drop (h : Books bank mem front last) (hbalanced : Balanced bank (front ++ [last]))
    (hnb : 0 < bank.nbaccounts) {front' : List (Ptr × AccountSegment)}
    {prev : Ptr × AccountSegment} (hfront : front = front' ++ [prev])
    (hone : last.2.count = 1) (hrecord : n = { prev.2 with
      next := none
      parity := prev.2.parity + (last.2.parity + last.2.accounts 0 - bank.initBalance) })
    (mem' : Memory) (hself : mem'.lookup prev.1 = some n)
    (hother : ∀ p, p ≠ last.1 → p ≠ prev.1 → mem'.lookup p = mem.lookup p) :
    Books bank mem' front' (prev.1, n) ∧ Balanced bank (front' ++ [(prev.1, n)]) := by
  subst hfront hrecord
  have hprev : prev.2.count = bank.nbaccounts := h.full prev (by simp)
  have hne : ∀ e ∈ front', e.1 ≠ prev.1 := by
    intro e he
    have hnodup := Links.nodup h.walk
    rw [List.append_assoc, List.map_append] at hnodup
    exact (List.nodup_append.1 hnodup).2.2 _ (List.mem_map_of_mem he) _ (by simp)
  refine ⟨⟨?_, fun e he => h.full e (List.mem_append_left _ he), ?_, hprev.le, ?_⟩, ?_⟩
  · have hwalk := h.walk
    rw [List.append_assoc] at hwalk
    refine Links.splice hwalk (fun e he => hother _ (h.ne_last e (by simp [he])) (hne e he)) ?_
    exact ⟨rfl, hself, rfl⟩
  · show 0 < prev.2.count
    rwa [hprev]
  · intro e he j hj
    rcases List.mem_append.1 he with he | he
    · exact h.nonneg e (by simp [he]) j hj
    · rw [List.mem_singleton.1 he] at hj ⊢
      exact h.nonneg prev (by simp) j hj
  · unfold Balanced at *
    simp only [worth_append, worth_cons, worth_nil, total_append, total_cons, total_nil,
      AccountSegment.worth, hone, Finset.sum_range_one] at hbalanced ⊢
    push_cast at hbalanced ⊢
    linear_combination hbalanced

/-- The last account is removed from a segment that keeps others. -/
theorem changeLast_shrink (h : Books bank mem front last)
    (hbalanced : Balanced bank (front ++ [last])) {trigger k : ℕ} {block : Ptr}
    (hmany : total (front ++ [last]) > trigger ∧ total (front ++ [last]) > 2)
    (hk : last.2.count = k + 1) (hpos : k > 0) :
    ∃ mem' front' last',
      bank.changeLast mem trigger block (lastAddr none front) last.1 (total (front ++ [last])) =
        .ok mem' ∧
      Books bank mem' front' last' ∧ Balanced bank (front' ++ [last']) := by
  have hle := h.last_le
  obtain ⟨hbooks, hbal⟩ := h.shrink hbalanced hk hpos rfl
  refine ⟨_, _, _, ?_, hbooks, hbal⟩
  rw [WorkloadBank.changeLast, segmentAt_eq h.lookup_last, ok_bind, if_pos hmany]
  simp only [hk]
  rw [readAccount_eq h.lookup_last (by omega), ok_bind, if_pos hpos,
    modifySegment_eq h.lookup_last, ok_bind, modifySegment_eq (AList.lookup_insert mem),
    AList.insert_insert]

/-- `Shared<Type*>::free` on the link to the last segment. -/
theorem freeNext_eq {prev : Ptr × AccountSegment} (h : Books bank mem (front ++ [prev]) last) :
    bank.freeNext mem prev.1 =
      .ok ((mem.erase last.1).insert prev.1 { prev.2 with next := none }) := by
  have hprev : mem.lookup prev.1 = some prev.2 := h.walk.lookup (by simp)
  have herase : (mem.erase last.1).lookup prev.1 = some prev.2 := by
    rw [AList.lookup_erase_ne (h.ne_last prev (by simp)), hprev]
  have hmem : last.1 ∈ mem := by
    rw [← AList.lookup_isSome, h.lookup_last]
    rfl
  rw [freeNext, segmentAt_eq hprev, ok_bind, h.next_prev]
  simp only [h.last_ne_start, hmem, not_true_eq_false, or_self, if_false]
  exact modifySegment_eq herase _

/-- The last account is removed together with its segment. -/
theorem changeLast_drop (h : Books bank mem front last)
    (hbalanced : Balanced bank (front ++ [last])) (hnb : 0 < bank.nbaccounts) {trigger : ℕ}
    {block : Ptr} (hmany : total (front ++ [last]) > trigger ∧ total (front ++ [last]) > 2)
    (hone : last.2.count = 1) :
    ∃ mem' front' last',
      bank.changeLast mem trigger block (lastAddr none front) last.1 (total (front ++ [last])) =
        .ok mem' ∧
      Books bank mem' front' last' ∧ Balanced bank (front' ++ [last']) := by
  -- more than two accounts do not fit in a single segment with one account
  obtain ⟨front', prev, rfl⟩ : ∃ front' prev, front = front' ++ [prev] := by
    apply List.eq_nil_or_concat' front |>.resolve_left
    rintro rfl
    have htwo := hmany.2
    simp only [List.nil_append, total_cons, total_nil, hone] at htwo
    omega
  obtain ⟨hbooks, hbal⟩ := h.drop hbalanced hnb rfl hone rfl
    (((mem.erase last.1).insert prev.1 { prev.2 with next := none }).insert prev.1 _)
    (AList.lookup_insert _) fun p hp hp' => by
      rw [AList.lookup_insert_ne hp', AList.lookup_insert_ne hp', AList.lookup_erase_ne hp]
  refine ⟨_, _, _, ?_, hbooks, hbal⟩
  rw [WorkloadBank.changeLast, segmentAt_eq h.lookup_last, ok_bind, if_pos hmany]
  simp only [hone]
  rw [readAccount_eq h.lookup_last hnb, ok_bind, if_neg (lt_irrefl 0), lastAddr_concat]
  dsimp only
  rw [h.freeNext_eq, ok_bind, modifySegment_eq (AList.lookup_insert _)]

/-- An account is added to a segment that has room. -/
theorem changeLast_grow (h : Books bank mem front last)
    (hbalanced : Balanced bank (front ++ [last])) (hinit : 0 ≤ bank.initBalance) {trigger : ℕ}
    {block : Ptr} (hfew : ¬ (total (front ++ [last]) > trigger ∧ total (front ++ [last]) > 2))
    (hlt : last.2.count < bank.nbaccounts) :
    ∃ mem' front' last',
      bank.changeLast mem trigger block (lastAddr none front) last.1 (total (front ++ [last])) =
        .ok mem' ∧
      Books bank mem' front' last' ∧ Balanced bank (front' ++ [last']) := by
  obtain ⟨hbooks, hbal⟩ := h.grow hbalanced hinit hlt rfl
  refine ⟨_, _, _, ?_, hbooks, hbal⟩
  rw [WorkloadBank.changeLast, segmentAt_eq h.lookup_last, ok_bind, if_neg hfew, if_pos hlt,
    writeAccount_eq h.lookup_last hlt, ok_bind, modifySegment_eq (AList.lookup_insert mem),
    AList.insert_insert]

/-- An account is added in a new segment. -/
theorem changeLast_append (h : Books bank mem front last)
    (hbalanced : Balanced bank (front ++ [last])) (hinit : 0 ≤ bank.initBalance)
    (hnb : 0 < bank.nbaccounts) {block : Ptr} (hblock : block ∉ mem) {trigger : ℕ}
    (hfew : ¬ (total (front ++ [last]) > trigger ∧ total (front ++ [last]) > 2))
    (hfull : last.2.count = bank.nbaccounts) :
    ∃ mem' front' last',
      bank.changeLast mem trigger block (lastAddr none front) last.1 (total (front ++ [last])) =
        .ok mem' ∧
      Books bank mem' front' last' ∧ Balanced bank (front' ++ [last']) := by
  -- the block is not in use
  have hne : last.1 ≠ block := by
    rintro rfl
    refine hblock (AList.lookup_isSome.1 ?_)
    rw [h.lookup_last]
    rfl
  have hlast : (mem.insert block .zeroed).lookup last.1 = some last.2 := by
    rw [AList.lookup_insert_ne hne, h.lookup_last]
  have hnew : ((mem.insert block .zeroed).insert last.1
      { last.2 with next := some block }).lookup block = some .zeroed := by
    rw [AList.lookup_insert_ne hne.symm, AList.lookup_insert]
  obtain ⟨hbooks, hbal⟩ := h.append hbalanced hinit hnb hfull hblock rfl rfl
    (((mem.insert block .zeroed).insert last.1 { last.2 with next := some block }).insert block _)
    (by rw [AList.lookup_insert_ne hne, AList.lookup_insert]) (AList.lookup_insert _)
    fun p hp hp' => by
      rw [AList.lookup_insert_ne hp', AList.lookup_insert_ne hp, AList.lookup_insert_ne hp']
  refine ⟨_, _, _, ?_, hbooks, hbal⟩
  rw [WorkloadBank.changeLast, segmentAt_eq h.lookup_last, ok_bind, if_neg hfew,
    if_neg hfull.not_lt, allocNext, modifySegment_eq hlast, ok_bind, modifySegment_eq hnew,
    ok_bind, writeAccount_eq (AList.lookup_insert _) hnb, AList.insert_insert]

/-- What `alloc_tx` does at the last segment keeps the books. -/
theorem changeLast (h : Books bank mem front last) (hbalanced : Balanced bank (front ++ [last]))
    (hinit : 0 ≤ bank.initBalance) (hnb : 0 < bank.nbaccounts) {block : Ptr} (hblock : block ∉ mem)
    (trigger : ℕ) :
    ∃ mem' front' last',
      bank.changeLast mem trigger block (lastAddr none front) last.1 (total (front ++ [last])) =
        .ok mem' ∧
      Books bank mem' front' last' ∧ Balanced bank (front' ++ [last']) := by
  by_cases hmany : total (front ++ [last]) > trigger ∧ total (front ++ [last]) > 2
  · obtain ⟨k, hk⟩ : ∃ k, last.2.count = k + 1 := Nat.exists_eq_add_one.2 h.last_pos
    -- the segment is freed with its last account
    rcases Nat.eq_zero_or_pos k with rfl | hpos
    · exact h.changeLast_drop hbalanced hnb hmany hk
    · exact h.changeLast_shrink hbalanced hmany hk hpos
  · rcases lt_or_eq_of_le h.last_le with hlt | hfull
    · exact h.changeLast_grow hbalanced hinit hmany hlt
    · exact h.changeLast_append hbalanced hinit hnb hblock hmany hfull

/-- `alloc_tx` keeps the books. -/
theorem allocTx (h : Books bank mem front last) (hbalanced : Balanced bank (front ++ [last]))
    (hinit : 0 ≤ bank.initBalance) (hnb : 0 < bank.nbaccounts) {block : Ptr} (hblock : block ∉ mem)
    (trigger : ℕ) :
    ∃ mem' front' last', bank.allocTx mem trigger block = .ok mem' ∧
      Books bank mem' front' last' ∧ Balanced bank (front' ++ [last']) := by
  rw [WorkloadBank.allocTx, allocLoop_eq h.walk (Walk.length_le h.walk), Nat.zero_add]
  exact h.changeLast hbalanced hinit hnb hblock trigger

end Books

/-! ## `init` -/

/-- The loop of `init` fills the accounts from index `i` on. -/
theorem initLoop_eq (h : mem.lookup bank.start = some n) {todo i : ℕ}
    (hi : i + todo = bank.nbaccounts) :
    ∃ mem' accounts, bank.initLoop mem todo i = .ok mem' ∧
      mem'.lookup bank.start = some { n with accounts } ∧
      (∀ j < i, accounts j = n.accounts j) ∧
      ∀ j, i ≤ j → j < bank.nbaccounts → accounts j = bank.initBalance := by
  induction todo generalizing mem n i with
  | zero => exact ⟨mem, n.accounts, rfl, h, fun _ _ => rfl, fun j hj hj' => by omega⟩
  | succ todo ih =>
    obtain ⟨mem', accounts, hloop, hlookup, hbelow, habove⟩ :=
      ih (i := i + 1) (AList.lookup_insert (b := { n with
        accounts := Function.update n.accounts i bank.initBalance }) mem) (by omega)
    refine ⟨mem', accounts, ?_, hlookup, fun j hj => ?_, fun j hj hj' => ?_⟩
    · rw [initLoop, writeAccount_eq h (by omega), ok_bind, hloop]
    · rw [hbelow j (Nat.lt_succ_of_lt hj)]
      exact Function.update_of_ne hj.ne _ _
    · rcases Nat.eq_or_lt_of_le hj with rfl | hlt
      · rw [hbelow i (Nat.lt_succ_self i)]
        exact Function.update_self _ _ _
      · exact habove j hlt hj'

/-- `init` opens the books, and finds what it has written. -/
theorem initTx_books (hinit : 0 ≤ bank.initBalance) (hnb : 0 < bank.nbaccounts)
    (h : mem.lookup bank.start = some n) (hnext : n.next = none) (hparity : n.parity = 0) :
    ∃ mem' last, bank.initTx mem = .ok (true, mem') ∧ Books bank mem' [] (bank.start, last) ∧
      Balanced bank [(bank.start, last)] ∧ last.next = none ∧ last.parity = 0 := by
  have hcounted : (mem.insert bank.start { n with count := bank.nbaccounts }).lookup bank.start =
      some { n with count := bank.nbaccounts } := AList.lookup_insert mem
  obtain ⟨mem', accounts, hloop, hlookup, -, hfilled⟩ :=
    initLoop_eq hcounted (Nat.zero_add bank.nbaccounts)
  have hfill : ∀ j < bank.nbaccounts, accounts j = bank.initBalance :=
    fun j hj => hfilled j (Nat.zero_le j) hj
  refine ⟨mem', _, ?_, ⟨⟨rfl, hlookup, hnext⟩, fun e he => (nomatch he), hnb, le_rfl, ?_⟩, ?_,
    hnext, hparity⟩
  · rw [initTx, modifySegment_eq h, ok_bind, hloop, ok_bind, readAccount_eq hlookup hnb, ok_bind]
    show Except.ok (accounts 0 == bank.initBalance, mem') = _
    rw [hfill 0 hnb, beq_self_eq_true]
  · intro e he j hj
    obtain rfl := List.mem_singleton.1 he
    show 0 ≤ accounts j
    rw [hfill j hj]
    exact hinit
  · have hsum : ∑ j ∈ Finset.range bank.nbaccounts, accounts j =
        ∑ _j ∈ Finset.range bank.nbaccounts, bank.initBalance :=
      Finset.sum_congr rfl fun j hj => hfill j (Finset.mem_range.1 hj)
    simp only [Balanced, worth_cons, worth_nil, total_cons, total_nil, AccountSegment.worth,
      hparity, hsum, Finset.sum_const, Finset.card_range, nsmul_eq_mul]
    push_cast
    ring

/-! ## All runs -/

/-- What the bank check relies on, after each run of transactions. -/
structure BankConsistent (bank : WorkloadBank) (mem : Memory) (l : List (Ptr × AccountSegment)) :
    Prop where
  /-- The segment list ends. -/
  walk : Walk mem (some bank.start) l none
  /-- Every segment but the last holds `nbaccounts` accounts, the last between one and that. -/
  filled : ∃ front last, l = front ++ [last] ∧ (∀ e ∈ front, e.2.count = bank.nbaccounts) ∧
    0 < last.2.count ∧ last.2.count ≤ bank.nbaccounts
  /-- No balance is negative. -/
  nonneg : ∀ e ∈ l, ∀ i < e.2.count, 0 ≤ e.2.accounts i
  /-- No money is created or destroyed. -/
  conserved : (l.map fun e => e.2.parity + ∑ i ∈ Finset.range e.2.count, e.2.accounts i).sum =
    bank.initBalance * (l.map fun e => e.2.count).sum
  /-- `long_tx` returns true. -/
  longTx : ∀ nbaccounts, bank.longTx mem nbaccounts = .ok (true, (l.map fun e => e.2.count).sum)
  /-- `short_tx` returns true exactly when both accounts exist. -/
  shortTx : ∀ sendId recvId, ∃ mem', bank.shortTx mem sendId recvId =
    .ok (decide (sendId < (l.map fun e => e.2.count).sum ∧
      recvId < (l.map fun e => e.2.count).sum), mem')
  /-- `alloc_tx` does not fault. -/
  allocTx : ∀ trigger block, block ∉ mem → ∃ mem', bank.allocTx mem trigger block = .ok mem'

/-- Balanced books make a consistent bank. -/
theorem Books.consistent (h : Books bank mem front last)
    (hbalanced : Balanced bank (front ++ [last])) (hinit : 0 ≤ bank.initBalance)
    (hnb : 0 < bank.nbaccounts) : BankConsistent bank mem (front ++ [last]) where
  walk := h.walk
  filled := ⟨front, last, rfl, h.full, h.last_pos, h.last_le⟩
  nonneg := h.nonneg
  conserved := hbalanced
  longTx := h.longTx hbalanced
  shortTx sendId recvId := by
    obtain ⟨mem', -, -, heq, -⟩ := h.shortTx hbalanced sendId recvId
    exact ⟨mem', heq⟩
  allocTx trigger block hblock := by
    obtain ⟨mem', -, -, heq, -⟩ := h.allocTx hbalanced hinit hnb hblock trigger
    exact ⟨mem', heq⟩

/-- Runs of `init` alone leave one segment. -/
theorem start_of_inits (hinit : 0 ≤ bank.initBalance) (hnb : 0 < bank.nbaccounts) (k : ℕ)
    {s : Except Fault Memory} (h : (bankRuns bank).Run LabelledSystem.always (bankRuns bank).init
      (List.replicate k .init) s) :
    ∃ mem n, s = .ok mem ∧ mem.lookup bank.start = some n ∧ n.next = none ∧ n.parity = 0 := by
  induction k generalizing s with
  | zero =>
    -- no transaction yet: the memory is zeroed
    have hnil : (bankRuns bank).Run LabelledSystem.always _ [] _ := .nil (bankRuns bank).init
    obtain rfl := h.eq_of_run hnil
    exact ⟨_, _, rfl, AList.lookup_insert ∅, rfl, rfl⟩
  | succ k ih =>
    rw [List.replicate_succ'] at h
    obtain ⟨s', hrun, hstep, -⟩ := h.of_concat
    obtain ⟨mem, n, rfl, hlookup, hnext, hparity⟩ := ih hrun
    obtain ⟨mem', last, htx, hbooks, -, hnext', hparity'⟩ :=
      initTx_books hinit hnb hlookup hnext hparity
    obtain rfl : .ok mem' = s := by
      change bankStep bank (.ok mem) .init = some s at hstep
      simpa [bankStep, htx] using hstep
    exact ⟨mem', last, rfl, hbooks.lookup_last, hnext', hparity'⟩

/-- After `init` has run at least once, the books are open. -/
theorem books_of_inits (hinit : 0 ≤ bank.initBalance) (hnb : 0 < bank.nbaccounts) (k : ℕ)
    {s : Except Fault Memory} (h : (bankRuns bank).Run LabelledSystem.always (bankRuns bank).init
      (List.replicate (k + 1) .init) s) :
    ∃ mem front last, s = .ok mem ∧ Books bank mem front last ∧
      Balanced bank (front ++ [last]) := by
  rw [List.replicate_succ'] at h
  obtain ⟨s', hrun, hstep, -⟩ := h.of_concat
  obtain ⟨mem, n, rfl, hlookup, hnext, hparity⟩ := start_of_inits hinit hnb k hrun
  obtain ⟨mem', last, htx, hbooks, hbalanced, -⟩ := initTx_books hinit hnb hlookup hnext hparity
  obtain rfl : .ok mem' = s := by
    change bankStep bank (.ok mem) .init = some s at hstep
    simpa [bankStep, htx] using hstep
  exact ⟨mem', [], _, rfl, hbooks, hbalanced⟩

/-- A transaction other than `init` keeps the books. -/
theorem books_of_step (hinit : 0 ≤ bank.initBalance) (hnb : 0 < bank.nbaccounts) {c : BankCall}
    {s : Except Fault Memory} (h : Books bank mem front last)
    (hbalanced : Balanced bank (front ++ [last])) (hc : c ≠ .init)
    (hstep : bankStep bank (.ok mem) c = some s) :
    ∃ mem' front' last', s = .ok mem' ∧ Books bank mem' front' last' ∧
      Balanced bank (front' ++ [last']) := by
  cases c with
  | init => exact absurd rfl hc
  | shortTx sendId recvId =>
    obtain ⟨mem', front', last', heq, hbooks, hbal⟩ := h.shortTx hbalanced sendId recvId
    simp only [bankStep, heq, Option.some.injEq] at hstep
    exact ⟨mem', front', last', hstep.symm, hbooks, hbal⟩
  | allocTx trigger block =>
    simp only [bankStep] at hstep
    split at hstep
    next => cases hstep
    next hblock =>
      obtain ⟨mem', front', last', heq, hbooks, hbal⟩ :=
        h.allocTx hbalanced hinit hnb hblock trigger
      rw [heq, Option.some.injEq] at hstep
      exact ⟨mem', front', last', hstep.symm, hbooks, hbal⟩

/-- After any positive number of runs of `init` and any number of further transactions, none of
which has faulted, the bank is consistent. -/
theorem bankCheck (hinit : 0 ≤ bank.initBalance) (hnb : 1 ≤ bank.nbaccounts) (k : ℕ)
    {cs : List BankCall} (hcs : ∀ c ∈ cs, c ≠ .init) {s : Except Fault Memory}
    (h : (bankRuns bank).Run LabelledSystem.always (bankRuns bank).init
      (List.replicate (k + 1) .init ++ cs) s) :
    ∃ mem l, s = .ok mem ∧ BankConsistent bank mem l := by
  obtain ⟨s₀, hinits, hrun⟩ := h.split
  have hbooks : ∃ mem front last, s = .ok mem ∧ Books bank mem front last ∧
      Balanced bank (front ++ [last]) := by
    -- no transaction after the runs of `init` is one of `init`, along all prefixes of the run
    refine hrun.history (P := fun cs s => (∀ c ∈ cs, c ≠ .init) → ∃ mem front last, s = .ok mem ∧
      Books bank mem front last ∧ Balanced bank (front ++ [last]))
      (fun _ => books_of_inits hinit hnb k hinits) (fun cs u c v _ ih hstep _ hcs => ?_) hcs
    obtain ⟨mem, front, last, rfl, hbooks, hbalanced⟩ :=
      ih fun c hc => hcs c (List.mem_append_left _ hc)
    exact books_of_step hinit hnb hbooks hbalanced (hcs c (by simp)) hstep
  obtain ⟨mem, front, last, rfl, hbooks, hbalanced⟩ := hbooks
  exact ⟨mem, _, rfl, hbooks.consistent hbalanced hinit hnb⟩

/-- Segments of two accounts: the list grows, money moves, and the list shrinks again. -/
def bankCalls : List BankCall :=
  [.allocTx 9 5, .shortTx 0 2, .shortTx 1 1, .allocTx 9 6, .allocTx 0 7, .allocTx 0 7,
    .shortTx 3 0]

theorem bankCalls_isSome : ((bankRuns ⟨2, 10, 1⟩).exec (fun _ _ _ => true)
    (bankRuns ⟨2, 10, 1⟩).init (List.replicate (1 + 1) .init ++ bankCalls)).isSome := by decide

theorem bankCheck_bankCalls : ∃ mem l,
    ((bankRuns ⟨2, 10, 1⟩).exec (fun _ _ _ => true) (bankRuns ⟨2, 10, 1⟩).init
      (List.replicate (1 + 1) .init ++ bankCalls)).get bankCalls_isSome = .ok mem ∧
      BankConsistent ⟨2, 10, 1⟩ mem l :=
  bankCheck (by decide) (by decide) 1 (fun c hc => by
      rintro rfl
      simp [bankCalls] at hc)
    (LabelledSystem.run_of_exec (fun _ _ _ _ => trivial)
      (Option.eq_some_of_isSome bankCalls_isSome))

end TransactionalMemory.Grading
