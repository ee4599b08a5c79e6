import Mathlib.Algebra.BigOperators.Fin
import Mathlib.Algebra.Order.BigOperators.Group.Finset
import TransactionalMemory.Grading.BankCheck

/-!
# The workers of the bank

The function `WorkloadBank::run` (`grading/workload.hpp`) in `n` threads that share the bank. Every
transaction is atomic, and the threads take turns between transactions in any order. The random
draws are part of the labels, so nothing is assumed about them but their ranges.

A worker keeps the number of accounts that its last long transaction has seen, from which it draws
the accounts of its short transactions. Other workers change that number, so an account may be gone
when it is drawn, and the draw is repeated. `runPasses` shows that nevertheless no worker reports a
violation, none faults, and none has to repeat its draws forever.
-/

namespace TransactionalMemory.Grading

/-- The control points of `run`. -/
inductive RunPc where
  /-- The loop over the transactions. -/
  | loop (cntr count : ℕ)
  /-- The loop that repeats a short transaction. -/
  | retry (cntr count : ℕ)
  /-- Last long transaction. -/
  | last
  /-- `run` has returned. -/
  | returned (error : Option String)
  deriving DecidableEq

/-- The transaction that a worker draws, with the block that the allocator would return. -/
inductive Draw where
  | long
  | alloc (trigger : ℕ) (block : Ptr)
  | short (sendId recvId : ℕ)

/-- The parameters of `run`. -/
structure RunArgs where
  /-- The bank. -/
  bank : WorkloadBank
  /-- Number of transactions per worker. -/
  nbtxperwrk : ℕ

/-- Where a worker is before iteration `cntr`. -/
def RunArgs.iteration (args : RunArgs) (cntr count : ℕ) : RunPc :=
  if cntr < args.nbtxperwrk then .loop cntr count else .last

/-- The range of the distribution from 0 to `count - 1`, which wraps around. -/
def InAccounts (count id : ℕ) : Prop := count = 0 ∨ id < count

instance (count id : ℕ) : Decidable (InAccounts count id) := inferInstanceAs (Decidable (_ ∨ _))

/-- The bank and the workers. -/
structure RunState (n : ℕ) where
  /-- The shared memory, unless a transaction has faulted. -/
  mem : Except Fault Memory
  /-- The workers. -/
  pc : Fin n → RunPc

namespace RunState

variable {n : ℕ}

/-- The transaction of a worker in memory `mem`: the new memory and where the worker is next. -/
def perform (args : RunArgs) (mem : Memory) : RunPc → Draw → Option (Except Fault (Memory × RunPc))
  | .loop cntr count, .long => some do
    let (consistent, count) ← args.bank.longTx mem count
    return (mem, if consistent then args.iteration (cntr + 1) count
      else .returned (some "Violated isolation or atomicity"))
  | .loop cntr count, .alloc trigger block =>
    if block ∈ mem then none
    else some do
      let mem ← args.bank.allocTx mem trigger block
      return (mem, args.iteration (cntr + 1) count)
  | .loop cntr count, .short sendId recvId | .retry cntr count, .short sendId recvId =>
    if InAccounts count sendId ∧ InAccounts count recvId then some do
      let (done, mem) ← args.bank.shortTx mem sendId recvId
      return (mem, if done then args.iteration (cntr + 1) count else .retry cntr count)
    else none
  | .last, .long => some do
    let (consistent, _) ← args.bank.longTx mem 0
    return (mem, .returned (if consistent then none else some "Violated isolation or atomicity"))
  | _, _ => none

/-- The next transaction of a worker. -/
def step (args : RunArgs) (s : RunState n) (i : Fin n) (draw : Draw) : Option (RunState n) :=
  match s.mem with
  | .error _ => none
  | .ok mem => (perform args mem (s.pc i) draw).map fun result =>
    match result with
    | .error fault => { s with mem := .error fault }
    | .ok (mem, pc) => { mem := .ok mem, pc := Function.update s.pc i pc }

end RunState

/-- `n` workers on a bank. -/
def runSystem (args : RunArgs) (n : ℕ) (mem : Memory) :
    LabelledSystem (RunState n) (Fin n × Draw) where
  init := { mem := .ok mem, pc := fun _ => args.iteration 0 args.bank.nbaccounts }
  step s lab := s.step args lab.1 lab.2

variable {n : ℕ} {args : RunArgs} {mem mem' : Memory} {pc : RunPc} {draw : Draw}
  {s t : RunState n} {i : Fin n}

/-! ## One transaction -/

/-- The books of the bank are in order. -/
def Memory.InOrder (bank : WorkloadBank) (mem : Memory) : Prop :=
  ∃ front last, Books bank mem front last ∧ Balanced bank (front ++ [last])

/-- A control point that is reached while the books are in order. -/
def RunPc.Fits (args : RunArgs) : RunPc → Prop
  | .loop cntr count | .retry cntr count => cntr < args.nbtxperwrk ∧ 0 < count
  | .last => True
  | .returned error => error = none

/-- How many transactions a worker has left, not counting repeated draws. -/
def RunPc.left (args : RunArgs) : RunPc → ℕ
  | .loop cntr _ | .retry cntr _ => args.nbtxperwrk - cntr + 1
  | .last => 1
  | .returned _ => 0

/-- A draw that is repeated if an account is gone. -/
def Draw.isShort : Draw → Bool
  | .short _ _ => true
  | _ => false

/-- The next iteration is one of the loop. -/
theorem RunArgs.fits_iteration {cntr count : ℕ} (hcount : 0 < count) :
    (args.iteration cntr count).Fits args := by
  unfold iteration
  split
  next hlt => exact ⟨hlt, hcount⟩
  next => trivial

/-- The iterations that are left before an iteration. -/
theorem RunArgs.left_iteration {cntr count : ℕ} :
    (args.iteration cntr count).left args = args.nbtxperwrk - cntr + 1 := by
  unfold iteration
  split
  next => rfl
  next hge =>
    rw [Nat.sub_eq_zero_of_le (Nat.le_of_not_lt hge)]
    rfl

/-- After a finished iteration, one transaction less is left. -/
theorem RunArgs.left_iteration_succ {cntr count : ℕ} (hlt : cntr < args.nbtxperwrk) :
    (args.iteration (cntr + 1) count).left args + 1 = args.nbtxperwrk - cntr + 1 := by
  rw [left_iteration, Nat.sub_succ', Nat.sub_add_cancel (Nat.sub_pos_of_lt hlt)]

/-- There is always an account. -/
theorem Books.total_pos {front : List (Ptr × AccountSegment)} {last : Ptr × AccountSegment}
    (h : Books args.bank mem front last) : 0 < total (front ++ [last]) := by
  rw [total_append, total_cons]
  exact Nat.add_pos_right _ (Nat.add_pos_left h.last_pos _)

/-- What a transaction does to a worker that was at `pc` when the books were in order. -/
structure Transacted (args : RunArgs) (pc : RunPc) (draw : Draw) (mem' : Memory) (pc' : RunPc) :
    Prop where
  inOrder : mem'.InOrder args.bank
  fits : pc'.Fits args
  left_eq : pc'.left args + 1 = pc.left args ∨ draw.isShort ∧ pc'.left args = pc.left args

namespace RunState

/-- The short transactions of the loop and the repeated ones. -/
theorem perform_short (h : mem.InOrder args.bank) {cntr count sendId recvId : ℕ}
    (hpc : pc = .loop cntr count ∨ pc = .retry cntr count) (hfits : pc.Fits args)
    {result : Except Fault (Memory × RunPc)}
    (hperform : perform args mem pc (.short sendId recvId) = some result) :
    ∃ mem' pc', result = .ok (mem', pc') ∧ Transacted args pc (.short sendId recvId) mem' pc' := by
  obtain ⟨front, last, hbooks, hbalanced⟩ := h
  obtain ⟨mem', front', last', heq, hbooks', hbalanced'⟩ :=
    hbooks.shortTx hbalanced sendId recvId
  have hlt : cntr < args.nbtxperwrk ∧ 0 < count := by
    rcases hpc with rfl | rfl <;> exact hfits
  have hleft : pc.left args = args.nbtxperwrk - cntr + 1 := by
    rcases hpc with rfl | rfl <;> rfl
  have hunfold : perform args mem pc (.short sendId recvId) =
      if InAccounts count sendId ∧ InAccounts count recvId then some do
        let (done, mem) ← args.bank.shortTx mem sendId recvId
        return (mem, if done then args.iteration (cntr + 1) count else .retry cntr count)
      else none := by
    rcases hpc with rfl | rfl <;> rfl
  rw [hunfold] at hperform
  split at hperform
  next =>
    rw [heq, ok_bind, Option.some.injEq] at hperform
    refine ⟨mem', _, hperform.symm, ⟨front', last', hbooks', hbalanced'⟩, ?_, ?_⟩
    · split
      next => exact RunArgs.fits_iteration hlt.2
      next => exact hlt
    · rw [hleft]
      split
      next => exact .inl (RunArgs.left_iteration_succ hlt.1)
      next => exact .inr ⟨rfl, rfl⟩
  next => cases hperform

/-- A transaction does not fault and keeps the books in order. Unless it is a short one whose draw
is repeated, it takes the worker on. -/
theorem perform_eq (hinit : 0 ≤ args.bank.initBalance) (hnb : 0 < args.bank.nbaccounts)
    (h : mem.InOrder args.bank) (hpc : pc.Fits args) {result : Except Fault (Memory × RunPc)}
    (hperform : perform args mem pc draw = some result) :
    ∃ mem' pc', result = .ok (mem', pc') ∧ Transacted args pc draw mem' pc' := by
  have horder := h
  obtain ⟨front, last, hbooks, hbalanced⟩ := h
  cases pc with
  | loop cntr count =>
    cases draw with
    | long =>
      simp only [perform, hbooks.longTx hbalanced, ok_bind, Option.some.injEq] at hperform
      exact ⟨mem, _, hperform.symm, horder, RunArgs.fits_iteration hbooks.total_pos,
        .inl (RunArgs.left_iteration_succ hpc.1)⟩
    | alloc trigger block =>
      rw [perform] at hperform
      split at hperform
      next => cases hperform
      next hblock =>
        -- a new account, or one account less
        obtain ⟨mem', front', last', heq, hbooks', hbalanced'⟩ :=
          hbooks.allocTx hbalanced hinit hnb hblock trigger
        rw [heq, ok_bind, Option.some.injEq] at hperform
        exact ⟨mem', _, hperform.symm, ⟨front', last', hbooks', hbalanced'⟩,
          RunArgs.fits_iteration hpc.2, .inl (RunArgs.left_iteration_succ hpc.1)⟩
    | short sendId recvId => exact perform_short horder (.inl rfl) hpc hperform
  | retry cntr count =>
    cases draw with
    | short sendId recvId => exact perform_short horder (.inr rfl) hpc hperform
    | long => cases hperform
    | alloc trigger block => cases hperform
  | last =>
    cases draw with
    | long =>
      simp only [perform, hbooks.longTx hbalanced, ok_bind, Option.some.injEq] at hperform
      exact ⟨mem, _, hperform.symm, horder, rfl, .inl rfl⟩
    | short sendId recvId => cases hperform
    | alloc trigger block => cases hperform
  | returned error => cases draw <;> cases hperform

/-- A worker that has not returned has a transaction that takes it on. -/
theorem exists_perform (hinit : 0 ≤ args.bank.initBalance) (hnb : 0 < args.bank.nbaccounts)
    (h : mem.InOrder args.bank) (hpc : pc.Fits args) (hleft : 0 < pc.left args) :
    ∃ draw mem' pc', perform args mem pc draw = some (.ok (mem', pc')) ∧
      Transacted args pc draw mem' pc' ∧ pc'.left args + 1 = pc.left args := by
  -- a long transaction always takes the worker on
  have hlong {result} (hperform : perform args mem pc .long = some result) :
      ∃ draw mem' pc', perform args mem pc draw = some (.ok (mem', pc')) ∧
        Transacted args pc draw mem' pc' ∧ pc'.left args + 1 = pc.left args := by
    obtain ⟨mem', pc', rfl, hout⟩ := perform_eq hinit hnb h hpc hperform
    exact ⟨.long, mem', pc', hperform, hout, hout.left_eq.resolve_right (by rintro ⟨⟨⟩, -⟩)⟩
  cases pc with
  | loop cntr count => exact hlong rfl
  | retry cntr count =>
    -- account 0 exists, so a transfer from it to itself takes the worker on
    have horder := h
    obtain ⟨front, last, hbooks, hbalanced⟩ := h
    obtain ⟨mem', -, -, heq, -, -⟩ := hbooks.shortTx hbalanced 0 0
    have hperform : perform args mem (.retry cntr count) (.short 0 0) =
        some (.ok (mem', args.iteration (cntr + 1) count)) := by
      rw [perform, if_pos ⟨.inr hpc.2, .inr hpc.2⟩, heq, ok_bind,
        decide_eq_true ⟨hbooks.total_pos, hbooks.total_pos⟩]
      rfl
    obtain ⟨_, _, hok, hout⟩ := perform_eq hinit hnb horder hpc hperform
    cases hok
    exact ⟨_, _, _, hperform, hout, RunArgs.left_iteration_succ hpc.1⟩
  | last => exact hlong rfl
  | returned error => exact absurd hleft (lt_irrefl 0)

end RunState

/-! ## All runs -/

/-- The invariant of the workers. -/
structure Working (args : RunArgs) (s : RunState n) : Prop where
  inOrder : ∃ mem, s.mem = .ok mem ∧ mem.InOrder args.bank
  fits : ∀ i, (s.pc i).Fits args

/-- What a transaction of worker `i` does to the workers. -/
structure Performed (args : RunArgs) (s : RunState n) (i : Fin n) (draw : Draw) (t : RunState n) :
    Prop where
  working : Working args t
  left_eq : (t.pc i).left args + 1 = (s.pc i).left args ∨
    draw.isShort ∧ (t.pc i).left args = (s.pc i).left args
  other : ∀ j ≠ i, t.pc j = s.pc j

namespace Working

/-- The state after a transaction of worker `i`. -/
theorem performed (h : Working args s) {mem' : Memory} {pc' : RunPc}
    (hout : Transacted args (s.pc i) draw mem' pc') :
    Performed args s i draw { mem := .ok mem', pc := Function.update s.pc i pc' } where
  working := by
    refine ⟨⟨mem', rfl, hout.inOrder⟩, fun j => ?_⟩
    dsimp only
    rcases eq_or_ne j i with rfl | hne
    · rw [Function.update_self]
      exact hout.fits
    · rw [Function.update_of_ne hne]
      exact h.fits j
  left_eq := by
    dsimp only
    rw [Function.update_self]
    exact hout.left_eq
  other j hne := Function.update_of_ne hne _ _

/-- What a step of a thread does to a bank in order. -/
theorem step (hinit : 0 ≤ args.bank.initBalance) (hnb : 0 < args.bank.nbaccounts)
    (h : Working args s) (hstep : s.step args i draw = some t) : Performed args s i draw t := by
  obtain ⟨mem, hmem, horder⟩ := h.inOrder
  simp only [RunState.step, hmem, Option.map_eq_some_iff] at hstep
  obtain ⟨result, hperform, rfl⟩ := hstep
  obtain ⟨mem', pc', rfl, hout⟩ := RunState.perform_eq hinit hnb horder (h.fits i) hperform
  exact h.performed hout

/-- A worker that has not returned can go on. -/
theorem exists_step (hinit : 0 ≤ args.bank.initBalance) (hnb : 0 < args.bank.nbaccounts)
    (h : Working args s) (hleft : 0 < (s.pc i).left args) :
    ∃ draw t, s.step args i draw = some t ∧ Performed args s i draw t ∧
      (t.pc i).left args + 1 = (s.pc i).left args := by
  obtain ⟨mem, hmem, horder⟩ := h.inOrder
  obtain ⟨draw, mem', pc', hperform, hout, hless⟩ :=
    RunState.exists_perform hinit hnb horder (h.fits i) hleft
  refine ⟨draw, _, ?_, h.performed hout, ?_⟩
  · simp only [RunState.step, hmem, hperform, Option.map_some]
  · dsimp only
    rw [Function.update_self]
    exact hless

/-- A worker that has nothing left has returned, without an error. -/
theorem returned (h : Working args s) (hleft : (s.pc i).left args = 0) :
    s.pc i = .returned none := by
  have hfits := h.fits i
  cases hpc : s.pc i with
  | returned error => rw [show error = none by simpa [hpc, RunPc.Fits] using hfits]
  | loop cntr count => simp [hpc, RunPc.left] at hleft
  | retry cntr count => simp [hpc, RunPc.left] at hleft
  | last => simp [hpc, RunPc.left] at hleft

/-- All workers can still return. -/
theorem exists_run (hinit : 0 ≤ args.bank.initBalance) (hnb : 0 < args.bank.nbaccounts)
    (h : Working args s) : ∃ labels t, (runSystem args n mem).Run LabelledSystem.always s labels t ∧
      ∀ i, t.pc i = .returned none := by
  induction hsum : ∑ i, (s.pc i).left args using Nat.strong_induction_on generalizing s with
  | _ sum ih =>
    by_cases hdone : ∀ i, (s.pc i).left args = 0
    · exact ⟨[], s, .nil s, fun i => h.returned (hdone i)⟩
    · obtain ⟨i, hi⟩ := not_forall.1 hdone
      obtain ⟨draw, t, hstep, hperf, hless⟩ := h.exists_step hinit hnb (Nat.pos_of_ne_zero hi)
      have hlt : ∑ j, (t.pc j).left args < sum := by
        rw [← hsum]
        refine Finset.sum_lt_sum (fun j _ => ?_) ⟨i, Finset.mem_univ i, by omega⟩
        rcases eq_or_ne j i with rfl | hne
        · omega
        · rw [hperf.other j hne]
      obtain ⟨labels, u, hrun, hall⟩ := ih _ hlt hperf.working rfl
      exact ⟨(i, draw) :: labels, u, .cons hstep trivial hrun, hall⟩

end Working

/-- What holds after every run of the workers. -/
structure RunPasses (args : RunArgs) (n : ℕ) (mem : Memory) (labels : List (Fin n × Draw))
    (s : RunState n) : Prop where
  /-- No transaction has faulted, and the bank is consistent. -/
  consistent : ∃ mem l, s.mem = .ok mem ∧ BankConsistent args.bank mem l
  /-- No worker has reported a violation. -/
  noError : ∀ i error, s.pc i = .returned error → error = none
  /-- A worker never draws an account from an empty range. -/
  accounts : ∀ i cntr count, s.pc i = .loop cntr count ∨ s.pc i = .retry cntr count → 0 < count
  /-- A worker makes at most `nbtxperwrk + 1` transactions other than transfers. -/
  bounded : ∀ i, labels.countP (fun lab => lab.1 = i ∧ ¬ lab.2.isShort) ≤ args.nbtxperwrk + 1
  /-- All workers can still return. -/
  live : ∃ labels' t, (runSystem args n mem).Run LabelledSystem.always s labels' t ∧
    ∀ i, t.pc i = .returned none

/-- The transactions of a worker so far, except for short ones, and those that it has left. -/
theorem countP_add_left (hinit : 0 ≤ args.bank.initBalance) (hnb : 0 < args.bank.nbaccounts)
    (hmem : mem.InOrder args.bank) {labels : List (Fin n × Draw)}
    (h : (runSystem args n mem).Run LabelledSystem.always (runSystem args n mem).init labels s) :
    Working args s ∧ ∀ i, labels.countP (fun lab => lab.1 = i ∧ ¬ lab.2.isShort) +
      (s.pc i).left args ≤ args.nbtxperwrk + 1 := by
  refine h.history (P := fun labels s => Working args s ∧ ∀ i, labels.countP
    (fun lab => lab.1 = i ∧ ¬ lab.2.isShort) + (s.pc i).left args ≤ args.nbtxperwrk + 1)
    ⟨⟨⟨mem, rfl, hmem⟩, fun i => RunArgs.fits_iteration hnb⟩, fun i => ?_⟩ ?_
  · simp [runSystem, RunArgs.left_iteration]
  · rintro labels s ⟨i, draw⟩ t - ⟨hworking, hcount⟩ hstep -
    have hperf : Performed args s i draw t := hworking.step hinit hnb hstep
    refine ⟨hperf.working, fun j => ?_⟩
    have hj := hcount j
    rw [List.countP_append, List.countP_singleton]
    rcases eq_or_ne j i with rfl | hne
    · -- a transaction that counts takes the worker on
      rcases hperf.left_eq with hless | ⟨hshort, heq⟩
      · split <;> omega
      · simp only [hshort, not_true_eq_false, and_false, decide_false, Bool.false_eq_true,
          if_false]
        omega
    · rw [hperf.other j hne]
      simpa [hne.symm] using hj

/-- Workers that share a bank report no violation, do not fault and can always return, after any
positive number of runs of `init`. -/
theorem runPasses (hinit : 0 ≤ args.bank.initBalance) (hnb : 1 ≤ args.bank.nbaccounts) (k : ℕ)
    (hinits : (bankRuns args.bank).Run LabelledSystem.always (bankRuns args.bank).init
      (List.replicate (k + 1) .init) (.ok mem)) {labels : List (Fin n × Draw)}
    (h : (runSystem args n mem).Run LabelledSystem.always (runSystem args n mem).init labels s) :
    RunPasses args n mem labels s := by
  have hmem : mem.InOrder args.bank := by
    obtain ⟨_, front, last, heq, hbooks, hbalanced⟩ := books_of_inits hinit hnb k hinits
    cases heq
    exact ⟨front, last, hbooks, hbalanced⟩
  obtain ⟨hworking, hcount⟩ := countP_add_left hinit hnb hmem h
  refine ⟨?_, fun i error hpc => ?_, fun i cntr count hpc => ?_,
    fun i => (Nat.le_add_right _ _).trans (hcount i), hworking.exists_run hinit hnb⟩
  · obtain ⟨mem', hok, front, last, hbooks, hbalanced⟩ := hworking.inOrder
    exact ⟨mem', _, hok, hbooks.consistent hbalanced hinit hnb⟩
  · have hfits := hworking.fits i
    rwa [hpc] at hfits
  · have hfits := hworking.fits i
    rcases hpc with hpc | hpc <;>
    · rw [hpc] at hfits
      exact hfits.2

/-- Two transactions for each worker, and segments of two accounts. -/
def runArgs : RunArgs := ⟨⟨2, 10, 1⟩, 2⟩

/-- The bank after `init`. -/
def filled : Memory :=
  match (bankRuns runArgs.bank).exec (fun _ _ _ => true) (bankRuns runArgs.bank).init [.init] with
  | some (.ok mem) => mem
  | _ => ∅

theorem exec_filled : (bankRuns runArgs.bank).exec (fun _ _ _ => true)
    (bankRuns runArgs.bank).init (List.replicate (0 + 1) .init) = some (.ok filled) := rfl

/-- An account that worker 1 has seen is gone when it is drawn. -/
def runLabels : List (Fin 5 × Draw) :=
  [(0, .alloc 9 5), (1, .long), (0, .alloc 0 7), (1, .short 2 0), (1, .short 1 0), (1, .long),
    (0, .long)]

theorem runLabels_isSome : ((runSystem runArgs 5 filled).exec (fun _ _ _ => true)
    (runSystem runArgs 5 filled).init runLabels).isSome := by decide

theorem runPasses_runLabels : RunPasses runArgs 5 filled runLabels
    (((runSystem runArgs 5 filled).exec (fun _ _ _ => true) (runSystem runArgs 5 filled).init
      runLabels).get runLabels_isSome) :=
  runPasses (by decide) (by decide) 0
    (LabelledSystem.run_of_exec (fun _ _ _ _ => trivial) exec_filled)
    (LabelledSystem.run_of_exec (fun _ _ _ _ => trivial)
      (Option.eq_some_of_isSome runLabels_isSome))

end TransactionalMemory.Grading
