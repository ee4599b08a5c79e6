import Mathlib.Algebra.BigOperators.Fin
import Mathlib.Algebra.Order.BigOperators.Group.Finset
import TransactionalMemory.Grading.BarrierRounds
import TransactionalMemory.Grading.Check

/-!
# The check ends, and passes with an atomic library

Every path through `WorkloadBank::check` calls `barrier.sync` three times, also the paths of the
threads that have found a violation. So the barrier rounds of the threads stay aligned (`Aligned`):
whatever the library answers, the check ends in all threads unless an exception leaves it
(`checkEnds`). An exception is fatal, since the other threads wait for the one that is gone
(`check_stalls`).

With a library that executes every transaction atomically no thread reports an error, the counter
never wraps around, and it is zero in the end (`checkPasses`). The invariant `Accounted` says that,
once thread 0 has initialized it, the counter is the number of decrements still to come.
-/

namespace TransactionalMemory.Grading

open BarrierState

variable {w n : ℕ} {s t : CheckState n} {b : BarrierState n} {i j : Fin n} {answer : CheckAnswer}
  {next : CheckPc}

/-! ## Steps of the barrier -/

/-- How many steps of `sync` the thread has made that were not polling. -/
def ThreadPc.passed : ThreadPc → ℕ
  | .outside => 0
  | .setLeave | .waitLeave => 1
  | .fetchSub => 2
  | .setEnter | .waitEnter => 3

/-- A call of the barrier has three steps. -/
theorem ThreadPc.passed_le (pc : ThreadPc) : pc.passed ≤ 3 := by
  cases pc <;> decide

/-- A step of another thread of the barrier. -/
theorem sync_thread_of_ne (h : j ≠ i) : (b.sync w i).thread j = b.thread j := by
  unfold BarrierState.sync
  dsimp only
  split
  case h_3 | h_6 => split <;> simp [go, h]
  all_goals simp [go, h]

/-- A step of `sync` that does not poll is one of four, and `sync` returns with the last one. -/
theorem sync_thread_self (h : ¬ b.Spinning i) :
    (((b.sync w i).thread i).pc ≠ .outside ∧
      ((b.sync w i).thread i).completed = (b.thread i).completed ∧
      ((b.sync w i).thread i).pc.passed = (b.thread i).pc.passed + 1) ∨
    (((b.sync w i).thread i).pc = .outside ∧
      ((b.sync w i).thread i).completed = (b.thread i).completed + 1 ∧
      (b.thread i).pc.passed = 3) := by
  unfold BarrierState.sync
  dsimp only
  split
  case h_1 hpc =>
    refine .inl ?_
    simp only [go, Function.update_self, hpc]
    split <;> simp [ThreadPc.passed]
  case h_2 hpc => simp [go, hpc, ThreadPc.passed]
  case h_3 hpc =>
    have hmode : b.mode = .leave := by
      by_contra hmode
      exact h (.inl ⟨hpc, hmode⟩)
    simp [go, hpc, hmode, ThreadPc.passed]
  case h_4 hpc =>
    refine .inl ?_
    simp only [go, Function.update_self, hpc]
    split <;> simp [ThreadPc.passed]
  case h_5 hpc => simp [go, hpc, ThreadPc.passed]
  case h_6 hpc =>
    have hmode : b.mode = .enter := by
      by_contra hmode
      exact h (.inr ⟨hpc, hmode⟩)
    simp [go, hpc, hmode, ThreadPc.passed]

/-- The counts of a thread tell whether it is inside `sync`. -/
theorem BarrierPhase.entered_eq (h : BarrierPhase b) (i : Fin n) :
    (b.thread i).entered = (b.thread i).completed +
      if (b.thread i).pc = .outside then 0 else 1 := by
  cases h with
  | filling k h => obtain hi | hi | ⟨j, rfl, hi⟩ := h.thread i <;> simp [hi]
  | full k l h =>
    by_cases hi : i = l
    · simp [hi, h.last]
    · simp [h.others i hi]
  | draining k h => obtain hi | hi | hi := h.thread i <;> simp [hi]
  | emptied k l h =>
    by_cases hi : i = l
    · simp [hi, h.last]
    · simp [h.others i hi]

/-- Unless a thread inside `sync` can go on, some thread outside has to enter the round first. -/
theorem BarrierPhase.exists_ready (h : BarrierPhase b) (hin : (b.thread i).pc ≠ .outside) :
    ∃ j, ¬ b.Spinning j ∧ ((b.thread j).pc ≠ .outside ∨
      (b.thread j).completed ≤ (b.thread i).completed) := by
  cases h with
  | filling k h =>
    -- nobody polls for the end of the last round, whose mode has been set
    obtain hi | hi | ⟨m, rfl, hi⟩ := h.thread i
    · simp [hi] at hin
    · obtain ⟨j, hj⟩ := exists_not_of_countOf_lt
        (h.step ▸ h.lt.trans_eq (Fintype.card_fin n).symm)
      refine ⟨j, ?_⟩
      obtain hx | hx | ⟨m, rfl, hx⟩ := h.thread j
      · simp [Spinning, hx, hi]
      · simp [hx] at hj
      · simp [Spinning, hx, h.mode]
    · exact ⟨i, by simp [Spinning, hi, h.mode], .inl hin⟩
  | full k l h => exact ⟨l, by simp [Spinning, h.last], .inl (by simp [h.last])⟩
  | draining k h =>
    obtain ⟨j, hj⟩ : ∃ j, (b.thread j).Counted := by
      by_contra hnone
      exact h.pos.ne' (h.step.trans (countOf_eq_zero_iff.mpr (not_exists.mp hnone)))
    refine ⟨j, ?_⟩
    obtain hx | hx := hj <;> simp [Spinning, hx, h.mode]
  | emptied k l h => exact ⟨l, by simp [Spinning, h.last], .inl (by simp [h.last])⟩

/-! ## Alignment of the rounds -/

/-- How often a thread has called `barrier.sync` when it is at a control point. -/
def CheckPc.syncs : CheckPc → ℕ
  | .startSync | .threw => 0
  | .setInitial | .confirm | .giveUp | .openSync => 1
  | .giveUpAgain | .fetch _ | .decrease _ _ | .failSync | .closeSync => 2
  | .conclude | .returned _ => 3

/-- A return from the barrier is counted. -/
theorem CheckPc.syncs_afterSync {uid : ℕ} {pc : CheckPc} (h : pc.afterSync uid = some next) :
    next.syncs = pc.syncs + 1 ∧ pc ≠ .threw ∧ next ≠ .threw := by
  cases pc <;> simp only [afterSync, Option.some.injEq, reduceCtorEq] at h
  case startSync | closeSync =>
    subst h
    split <;> simp [syncs]
  all_goals
    subst h
    simp [syncs]

/-- There are three rounds. -/
theorem CheckPc.syncs_le (pc : CheckPc) : pc.syncs ≤ 3 := by
  cases pc <;> simp [syncs]

/-- Only an exception makes a transaction leave `check`. -/
theorem CheckPc.eq_exception_of_threw {pc : CheckPc} (h : pc.afterTx answer = some .threw) :
    answer = .exception := by
  unfold afterTx at h
  split at h
  case h_2 correct => cases correct <;> simp at h
  case h_4 correct =>
    cases correct
    · simp at h
    · simp only [if_true, Option.some.injEq] at h
      split at h <;> cases h
  all_goals simp_all

/-- A transaction does not synchronize, and neither does a thread about to run one. -/
theorem CheckPc.syncs_afterTx {pc : CheckPc} (h : pc.afterTx answer = some next) :
    (next ≠ .threw → next.syncs = pc.syncs) ∧ pc ≠ .threw ∧ ∀ uid, pc.afterSync uid = none := by
  unfold afterTx at h
  split at h
  case h_2 | h_4 | h_5 =>
    cases h
    refine ⟨fun _ => ?_, by simp, fun _ => rfl⟩
    split
    · try split
      all_goals rfl
    · rfl
  case h_11 => cases h
  all_goals
    cases h
    simp [syncs, afterSync]

/-- The barrier rounds follow the control points. -/
structure Aligned (s : CheckState n) : Prop where
  phase : BarrierPhase s.barrier
  /-- Threads that do not call `sync` are outside. -/
  outside : ∀ i, (s.pc i).afterSync i = none → (s.barrier.thread i).pc = .outside
  completed : ∀ i, s.pc i ≠ .threw → (s.barrier.thread i).completed = (s.pc i).syncs

/-- What a step of `sync` does: nothing if the thread polls; otherwise the thread has one step less
to make, and is at the next control point after the last one. -/
theorem CheckState.sync_cases (h : s.sync w i = some t) :
    ∃ next, (s.pc i).afterSync i = some next ∧ t.counter = s.counter ∧
      t.barrier = s.barrier.sync w i ∧
      ((s.barrier.Spinning i ∧ t.barrier = s.barrier ∧ t.pc = s.pc) ∨
        (¬ s.barrier.Spinning i ∧ (t.barrier.thread i).pc ≠ .outside ∧ t.pc = s.pc ∧
          (t.barrier.thread i).completed = (s.barrier.thread i).completed ∧
          (t.barrier.thread i).pc.passed = (s.barrier.thread i).pc.passed + 1) ∨
        (¬ s.barrier.Spinning i ∧ (t.barrier.thread i).pc = .outside ∧
          t.pc = Function.update s.pc i next ∧
          (t.barrier.thread i).completed = (s.barrier.thread i).completed + 1 ∧
          (s.barrier.thread i).pc.passed = 3)) := by
  obtain ⟨next, hnext, rfl⟩ := Option.map_eq_some_iff.1 h
  refine ⟨next, hnext, rfl, rfl, ?_⟩
  dsimp only
  by_cases hspin : s.barrier.Spinning i
  · have hpc : (s.barrier.thread i).pc ≠ .outside := by
      rcases hspin with ⟨hpc, -⟩ | ⟨hpc, -⟩ <;> simp [hpc]
    rw [sync_spinning hspin, if_neg hpc]
    exact .inl ⟨hspin, rfl, rfl⟩
  · rcases sync_thread_self (w := w) hspin with ⟨hpc, hrest⟩ | ⟨hpc, hrest⟩
    · rw [if_neg hpc]
      exact .inr (.inl ⟨hspin, hpc, rfl, hrest⟩)
    · rw [if_pos hpc]
      exact .inr (.inr ⟨hspin, hpc, rfl, hrest⟩)

/-- What a transaction of a thread changes. -/
theorem CheckState.tx_cases (h : s.tx i answer = some t) :
    ∃ next, (s.pc i).afterTx answer = some next ∧ t.barrier = s.barrier ∧
      t.pc = Function.update s.pc i next ∧
      t.counter = ((s.pc i).atomically n s.counter).2 := by
  obtain ⟨next, hnext, rfl⟩ := Option.map_eq_some_iff.1 h
  exact ⟨next, hnext, rfl, rfl, rfl⟩

namespace Aligned

/-- The rounds stay aligned in the barrier. -/
theorem sync (h : Aligned s) (hn : n < 2 ^ w) (hstep : s.sync w i = some t) : Aligned t := by
  obtain ⟨next, hnext, -, hbarrier, hcases⟩ := CheckState.sync_cases hstep
  have hphase : BarrierPhase t.barrier := hbarrier ▸ h.phase.sync hn i
  have hother : ∀ j, j ≠ i → t.barrier.thread j = s.barrier.thread j :=
    fun j hj => hbarrier ▸ sync_thread_of_ne hj
  obtain ⟨hsyncs, hthrew, -⟩ := CheckPc.syncs_afterSync hnext
  rcases hcases with ⟨-, hsame, hpc⟩ | ⟨-, -, hpc, hcompleted, -⟩ | ⟨-, hout, hpc, hcompleted, -⟩
  · exact ⟨hphase, by rw [hpc, hsame]; exact h.outside, by rw [hpc, hsame]; exact h.completed⟩
  · refine ⟨hphase, fun j hj => ?_, fun j hj => ?_⟩
    · rw [hpc] at hj
      have hji : j ≠ i := by
        rintro rfl
        rw [hnext] at hj
        cases hj
      rw [hother j hji]
      exact h.outside j hj
    · rw [hpc] at hj ⊢
      by_cases hji : j = i
      · subst hji
        rw [hcompleted]
        exact h.completed j hj
      · rw [hother j hji]
        exact h.completed j hj
  · refine ⟨hphase, fun j hj => ?_, fun j hj => ?_⟩
    · by_cases hji : j = i
      · rw [hji]
        exact hout
      · rw [hpc, Function.update_of_ne hji] at hj
        rw [hother j hji]
        exact h.outside j hj
    · by_cases hji : j = i
      · subst hji
        rw [hpc, Function.update_self, hcompleted, hsyncs, h.completed j hthrew]
      · rw [hpc, Function.update_of_ne hji] at hj ⊢
        rw [hother j hji]
        exact h.completed j hj

/-- The rounds stay aligned when a transaction is executed. -/
theorem tx (h : Aligned s) (hstep : s.tx i answer = some t) : Aligned t := by
  obtain ⟨next, hnext, hbarrier, hpc, -⟩ := CheckState.tx_cases hstep
  obtain ⟨hsyncs, hthrew, houtside⟩ := CheckPc.syncs_afterTx hnext
  refine ⟨hbarrier ▸ h.phase, fun j hj => ?_, fun j hj => ?_⟩
  · rw [hbarrier]
    by_cases hji : j = i
    · rw [hji]
      exact h.outside i (houtside i)
    · rw [hpc, Function.update_of_ne hji] at hj
      exact h.outside j hj
  · rw [hbarrier]
    by_cases hji : j = i
    · subst hji
      rw [hpc, Function.update_self] at hj ⊢
      rw [hsyncs hj]
      exact h.completed j hthrew
    · rw [hpc, Function.update_of_ne hji] at hj ⊢
      exact h.completed j hj

/-- The rounds are aligned in every reachable state. -/
theorem of_reachable {ok : CheckState n → CheckLabel n → CheckState n → Prop} (hpos : 1 ≤ n)
    (hn : n < 2 ^ w) (h : (checkSystem w n).Reachable ok s) : Aligned s := by
  refine h.invariant ⟨?_, fun _ _ => rfl, fun _ _ => rfl⟩ fun s lab t _ ih hstep _ => ?_
  · exact BarrierPhase.of_reachable hpos hn LabelledSystem.Reachable.init
  · cases lab with
    | sync i => exact ih.sync hn hstep
    | tx i answer => exact ih.tx hstep

end Aligned

/-! ## The check ends -/

/-- A bound on the steps a thread at a control point still has to make, apart from polling. -/
def CheckPc.left : CheckPc → ℕ
  | .startSync => 2 * nbtxperwrk + 15
  | .setInitial => 2 * nbtxperwrk + 11
  | .confirm => 2 * nbtxperwrk + 10
  | .openSync => 2 * nbtxperwrk + 9
  | .fetch i => 2 * (nbtxperwrk - 1 - i) + 7
  | .decrease i _ => 2 * (nbtxperwrk - 1 - i) + 6
  | .giveUp => 8
  | .giveUpAgain | .failSync => 4
  | .closeSync => 5
  | .conclude => 1
  | .returned _ | .threw => 0

/-- A return from the barrier brings the end closer. -/
theorem CheckPc.left_afterSync {uid : ℕ} {pc : CheckPc} (h : pc.afterSync uid = some next) :
    next.left + 4 ≤ pc.left := by
  cases pc <;> simp only [afterSync, Option.some.injEq, reduceCtorEq] at h
  case startSync | closeSync =>
    subst h
    split <;> simp [left]
  all_goals
    subst h
    simp [left, nbtxperwrk]

/-- A transaction brings the end closer. -/
theorem CheckPc.left_afterTx {pc : CheckPc} (h : pc.afterTx answer = some next) :
    next.left < pc.left := by
  unfold afterTx at h
  split at h
  case h_2 correct =>
    cases h
    cases correct <;> simp [left, nbtxperwrk]
  case h_4 k last correct =>
    cases h
    cases correct
    · simp only [left, Bool.false_eq_true, if_false]
      omega
    · simp only [if_true]
      split <;> simp only [left] <;> omega
  case h_11 => cases h
  all_goals
    cases h
    simp [left]

/-- A bound on the steps that are still to be made. -/
def CheckState.left (s : CheckState n) : ℕ :=
  ∑ i, ((s.pc i).left - (s.barrier.thread i).pc.passed)

/-- The bound decreases if it does for one thread and stays for the others. -/
theorem CheckState.left_lt
    (hi : (t.pc i).left - (t.barrier.thread i).pc.passed <
      (s.pc i).left - (s.barrier.thread i).pc.passed)
    (hother : ∀ j, j ≠ i → t.pc j = s.pc j ∧ t.barrier.thread j = s.barrier.thread j) :
    t.left < s.left := by
  refine Finset.sum_lt_sum (fun j _ => ?_) ⟨i, Finset.mem_univ i, hi⟩
  by_cases hji : j = i
  · rw [hji]
    exact hi.le
  · rw [(hother j hji).1, (hother j hji).2]

/-- A step of `sync` that does not poll makes the bound smaller. -/
theorem CheckState.left_sync (hstep : s.sync w i = some t) :
    t = s ∨ ¬ s.barrier.Spinning i ∧ t.left < s.left := by
  obtain ⟨next, hnext, hcounter, hbarrier, hcases⟩ := CheckState.sync_cases hstep
  have hleft := CheckPc.left_afterSync hnext
  have hother : ∀ j, j ≠ i → t.barrier.thread j = s.barrier.thread j :=
    fun j hj => hbarrier ▸ sync_thread_of_ne hj
  rcases hcases with ⟨-, hsame, hpc⟩ | ⟨hspin, -, hpc, -, hpassed⟩ | ⟨hspin, hout, hpc, -, hpassed⟩
  · cases s
    cases t
    simp_all
  · refine .inr ⟨hspin, left_lt (i := i) ?_ fun j hj => ⟨by rw [hpc], hother j hj⟩⟩
    have := (t.barrier.thread i).pc.passed_le
    rw [hpc]
    omega
  · refine .inr ⟨hspin, left_lt (i := i) ?_ fun j hj => ⟨?_, hother j hj⟩⟩
    · rw [hpc, Function.update_self, hout, hpassed]
      simp only [ThreadPc.passed]
      omega
    · rw [hpc, Function.update_of_ne hj]

/-- A transaction makes the bound smaller. -/
theorem CheckState.left_tx (h : Aligned s) (hstep : s.tx i answer = some t) :
    t.left < s.left := by
  obtain ⟨next, hnext, hbarrier, hpc, -⟩ := CheckState.tx_cases hstep
  obtain ⟨-, -, houtside⟩ := CheckPc.syncs_afterTx hnext
  have hout := h.outside i (houtside i)
  refine left_lt (i := i) ?_ fun j hj => ⟨?_, by rw [hbarrier]⟩
  · rw [hbarrier, hpc, Function.update_self, hout]
    simpa [ThreadPc.passed] using CheckPc.left_afterTx hnext
  · rw [hpc, Function.update_of_ne hj]

/-- The thread has returned from `check`. -/
def CheckPc.Returned (pc : CheckPc) : Prop := ∃ error, pc = .returned error

/-- The check cannot end otherwise than by returning in all threads. -/
structure CheckEnds (w : ℕ) (s : CheckState n) : Prop where
  /-- A thread that returns has called `barrier.sync` three times. -/
  syncs : ∀ i, (s.pc i).Returned → (s.barrier.thread i).completed = 3
  /-- A step that changes anything brings the end closer. -/
  closer : ∀ lab t, (checkSystem w n).step s lab = some t → t = s ∨ t.left < s.left
  /-- Unless all threads have returned, one of them can go on. -/
  live : (∃ i, ¬ (s.pc i).Returned) → ∃ lab t, (checkSystem w n).step s lab = some t ∧
    noException s lab t ∧ t.left < s.left

/-- A thread that has not returned and is not kept waiting can go on. -/
theorem Aligned.exists_step (h : Aligned s) (hopen : ¬ (s.pc i).Returned)
    (hthrew : s.pc i ≠ .threw) (hspin : ¬ s.barrier.Spinning i) :
    ∃ lab t, (checkSystem w n).step s lab = some t ∧ noException s lab t ∧
      atomicAnswers s lab t ∧ t.left < s.left := by
  cases hsync : (s.pc i).afterSync i with
  | some next =>
    have hstep : ∃ t, s.sync w i = some t := by simp [CheckState.sync, hsync]
    obtain ⟨t, ht⟩ := hstep
    rcases CheckState.left_sync ht with rfl | ⟨-, hlt⟩
    · -- the state is the same only if the thread polls
      obtain ⟨_, -, -, -, hcases⟩ := CheckState.sync_cases ht
      rcases hcases with ⟨hpoll, -⟩ | ⟨-, -, -, -, hpassed⟩ | ⟨-, -, -, hcompleted, -⟩
      · exact absurd hpoll hspin
      · omega
      · omega
    · exact ⟨.sync i, t, ht, fun _ => by simp, fun _ _ => by simp, hlt⟩
  | none =>
    -- the thread runs a transaction, which may be executed atomically
    obtain ⟨next, hanswer, hproper⟩ : ∃ next,
        (s.pc i).afterTx ((s.pc i).atomically n s.counter).1 = some next ∧
        ((s.pc i).atomically n s.counter).1 ≠ .exception := by
      cases hpc : s.pc i with
      | setInitial | confirm | fetch _ | conclude => exact ⟨_, rfl, by simp [CheckPc.atomically]⟩
      | decrease k last =>
        unfold CheckPc.atomically
        dsimp only
        split <;> exact ⟨_, rfl, by simp⟩
      | returned error => exact absurd ⟨error, hpc⟩ hopen
      | threw => exact absurd hpc hthrew
      | _ => simp [hpc, CheckPc.afterSync] at hsync
    obtain ⟨t, ht⟩ : ∃ t, s.tx i ((s.pc i).atomically n s.counter).1 = some t := by
      simp [CheckState.tx, hanswer]
    refine ⟨.tx i _, t, ht, ?_, ?_, CheckState.left_tx h ht⟩
    · rintro j hlab
      injection hlab with _ hexception
      exact hproper hexception
    · rintro j answer hlab
      injection hlab with hj hanswer
      rw [← hj, hanswer]

/-- Unless all threads have returned or thrown an exception, one of them can go on. -/
theorem Aligned.live (h : Aligned s) (hthrew : ∀ i, s.pc i ≠ .threw)
    (hopen : ∃ i, ¬ (s.pc i).Returned) :
    ∃ lab t, (checkSystem w n).step s lab = some t ∧ noException s lab t ∧
      atomicAnswers s lab t ∧ t.left < s.left := by
  obtain ⟨i, hi⟩ := hopen
  by_cases hin : (s.barrier.thread i).pc = .outside
  · -- a thread that is outside does not poll
    refine h.exists_step hi (hthrew i) fun hspin => ?_
    rcases hspin with ⟨hpc, -⟩ | ⟨hpc, -⟩ <;> simp [hin] at hpc
  · -- otherwise some thread lets it go on, which has not called `sync` three times
    obtain ⟨j, hspin, hj⟩ := h.phase.exists_ready hin
    refine h.exists_step (fun hreturned => ?_) (hthrew j) hspin
    obtain ⟨error, hpc⟩ := hreturned
    rcases hj with hj | hj
    · exact hj (h.outside j (by rw [hpc]; rfl))
    · rw [h.completed j (hthrew j), h.completed i (hthrew i), hpc] at hj
      cases hsync : (s.pc i).afterSync i with
      | none => exact hin (h.outside i hsync)
      | some next =>
        have hsyncs := (CheckPc.syncs_afterSync hsync).1
        have hle := next.syncs_le
        rw [show (CheckPc.returned error).syncs = 3 from rfl] at hj
        omega

/-- Without exceptions no thread is at `threw`. -/
theorem pc_ne_threw (h : (checkSystem w n).Reachable noException s) (i : Fin n) :
    s.pc i ≠ .threw := by
  refine h.invariant (I := fun s => ∀ i, s.pc i ≠ .threw) (fun _ => by simp [checkSystem])
    (fun s lab t _ ih hstep hok j => ?_) i
  cases lab with
  | sync i =>
    obtain ⟨next, hnext, -, -, hcases⟩ := CheckState.sync_cases hstep
    rcases hcases with ⟨-, -, hpc⟩ | ⟨-, -, hpc, -⟩ | ⟨-, -, hpc, -⟩
    · rw [hpc]
      exact ih j
    · rw [hpc]
      exact ih j
    · by_cases hji : j = i
      · rw [hpc, hji, Function.update_self]
        exact (CheckPc.syncs_afterSync hnext).2.2
      · rw [hpc, Function.update_of_ne hji]
        exact ih j
  | tx i answer =>
    obtain ⟨next, hnext, -, hpc, -⟩ := CheckState.tx_cases hstep
    by_cases hji : j = i
    · rw [hpc, hji, Function.update_self]
      rintro rfl
      exact hok i (by rw [CheckPc.eq_exception_of_threw hnext])
    · rw [hpc, Function.update_of_ne hji]
      exact ih j

/-- Whatever the library answers, the check ends in all threads, as long as no exception leaves
it. -/
theorem checkEnds (hpos : 1 ≤ n) (hn : n < 2 ^ w) (h : (checkSystem w n).Reachable noException s) :
    CheckEnds w s := by
  have haligned := Aligned.of_reachable hpos hn h
  have hthrew := pc_ne_threw h
  refine ⟨fun i hi => ?_, fun lab t hstep => ?_, ?_⟩
  · obtain ⟨error, hpc⟩ := hi
    rw [haligned.completed i (hthrew i), hpc]
    rfl
  · cases lab with
    | sync i => exact (CheckState.left_sync hstep).imp_right fun hlt => hlt.2
    | tx i answer => exact .inr (CheckState.left_tx haligned hstep)
  · rintro hopen
    obtain ⟨lab, t, hstep, hexception, -, hlt⟩ := haligned.live hthrew hopen
    exact ⟨lab, t, hstep, hexception, hlt⟩

/-- One round of the barrier among four threads. -/
def syncRound : List (CheckLabel 4) :=
  [.sync 0, .sync 1, .sync 2, .sync 3, .sync 3, .sync 0, .sync 1, .sync 2,
    .sync 3, .sync 0, .sync 1, .sync 2, .sync 2, .sync 0, .sync 1, .sync 3]

/-- Thread 0 finds a value that was not written, and goes on to the barrier. -/
def refutedInit : List (CheckLabel 4) :=
  syncRound ++ [.tx 0 .done, .tx 0 (.verdict false), .sync 0]

theorem refutedInit_isSome : ((checkSystem 32 4).exec checkNoException
    (checkSystem 32 4).init refutedInit).isSome := by decide

theorem checkEnds_refutedInit : CheckEnds 32 (((checkSystem 32 4).exec checkNoException
    (checkSystem 32 4).init refutedInit).get refutedInit_isSome) :=
  checkEnds (by decide) (by decide)
    (LabelledSystem.reachable_of_exec (fun _ _ _ => noException_of_check) refutedInit_isSome)

/-! ## An exception stops the others -/

/-- A thread that has thrown an exception takes no more steps. -/
theorem threw_step {lab : CheckLabel n} (hi : s.pc i = .threw)
    (hstep : (checkSystem w n).step s lab = some t) :
    t.pc i = .threw ∧ t.barrier.thread i = s.barrier.thread i := by
  cases lab with
  | sync j =>
    obtain ⟨next, hnext, -, hbarrier, hcases⟩ := CheckState.sync_cases hstep
    have hij : i ≠ j := by
      rintro rfl
      exact (CheckPc.syncs_afterSync hnext).2.1 hi
    refine ⟨?_, hbarrier ▸ sync_thread_of_ne hij⟩
    rcases hcases with ⟨-, -, hpc⟩ | ⟨-, -, hpc, -⟩ | ⟨-, -, hpc, -⟩ <;> simp [hpc, hij, hi]
  | tx j answer =>
    obtain ⟨next, hnext, hbarrier, hpc, -⟩ := CheckState.tx_cases hstep
    have hij : i ≠ j := by
      rintro rfl
      exact (CheckPc.syncs_afterTx hnext).2.1 hi
    exact ⟨by simp [hpc, hij, hi], by rw [hbarrier]⟩

/-- If an exception has left `check` in a thread before the last round of the barrier, then no
thread ever returns. -/
theorem check_stalls {labs : List (CheckLabel n)} (hpos : 1 ≤ n) (hn : n < 2 ^ w)
    (h : (checkSystem w n).Reachable LabelledSystem.always s) (hi : s.pc i = .threw)
    (hround : (s.barrier.thread i).completed < 3)
    (hrun : (checkSystem w n).Run LabelledSystem.always s labs t) (j : Fin n) :
    ¬ (t.pc j).Returned := by
  rintro ⟨error, hj⟩
  have haligned := Aligned.of_reachable hpos hn (h.run hrun)
  obtain ⟨hi', hsame⟩ : t.pc i = .threw ∧ t.barrier.thread i = s.barrier.thread i := by
    refine hrun.invariant (I := fun t => t.pc i = .threw ∧
      t.barrier.thread i = s.barrier.thread i) (fun u lab v ih hstep _ => ?_) ⟨hi, rfl⟩
    obtain ⟨hv, hthread⟩ := threw_step ih.1 hstep
    exact ⟨hv, hthread.trans ih.2⟩
  -- the thread that is gone has not entered the third round, so nobody has completed it
  have hout := haligned.outside i (by rw [hi']; rfl)
  have hentered := haligned.phase.entered_eq i
  obtain ⟨k, hk⟩ := haligned.phase.exists_counts
  have hle := (hk j).2.1.trans (hk i).1
  rw [haligned.completed j (by rw [hj]; simp), hj] at hle
  rw [hout, if_pos rfl, hsame] at hentered
  rw [hsame, show (CheckPc.returned error).syncs = 3 from rfl] at hle
  omega

/-- Thread 0 of four leaves by an exception in its first transaction. -/
def thrownInit : List (CheckLabel 4) := syncRound ++ [.tx 0 .exception]

theorem thrownInit_isSome : ((checkSystem 32 4).exec (fun _ _ _ => true)
    (checkSystem 32 4).init thrownInit).isSome := by decide

theorem check_stalls_thrownInit : ¬ ((((checkSystem 32 4).exec (fun _ _ _ => true)
    (checkSystem 32 4).init thrownInit).get thrownInit_isSome).pc 1).Returned :=
  check_stalls (i := 0) (by decide) (by decide)
    (LabelledSystem.reachable_of_exec (fun _ _ _ _ => trivial) thrownInit_isSome)
    (by decide) (by decide) (.nil _) 1

/-! ## With an atomic library the check passes -/

/-- A control point that is reached with an atomic library. -/
def CheckPc.Fine (uid : ℕ) : CheckPc → Prop
  | .setInitial | .confirm | .conclude => uid = 0
  | .fetch i | .decrease i _ => i < nbtxperwrk
  | .startSync | .openSync | .closeSync => True
  | .returned error => error = none
  | .giveUp | .giveUpAgain | .failSync | .threw => False

/-- How often a thread at a control point still decreases the counter. -/
def CheckPc.todo : CheckPc → ℕ
  | .startSync | .setInitial | .confirm | .openSync => nbtxperwrk
  | .fetch i | .decrease i _ => nbtxperwrk - i
  | _ => 0

/-- Thread 0 has written the initial value of the counter. -/
def CheckState.Opened (s : CheckState n) : Prop :=
  ∀ i : Fin n, i.val = 0 → s.pc i ≠ .startSync ∧ s.pc i ≠ .setInitial

/-- The invariant of the runs with an atomic library. -/
structure Accounted (s : CheckState n) : Prop where
  aligned : Aligned s
  fine : ∀ i, (s.pc i).Fine i
  /-- The counter has not increased since a thread fetched it. -/
  last : ∀ i k last, s.pc i = .decrease k last → s.counter.toNat ≤ last.toNat
  /-- The counter is the number of decrements to come. -/
  counter : s.Opened → s.counter.toNat = ∑ i, (s.pc i).todo

/-- A thread is at most one call of `barrier.sync` ahead of another one, and only of one that is
calling it. -/
theorem Aligned.syncs_le (h : Aligned s) (hi : s.pc i ≠ .threw) (hj : s.pc j ≠ .threw) :
    (s.pc i).syncs ≤ (s.pc j).syncs + if (s.pc j).afterSync j = none then 0 else 1 := by
  obtain ⟨k, hk⟩ := h.phase.exists_counts
  have hle := (hk i).2.1.trans (hk j).1
  rw [h.phase.entered_eq j, h.completed i hi, h.completed j hj] at hle
  cases hsync : (s.pc j).afterSync j with
  | none =>
    rw [h.outside j hsync, if_pos rfl] at hle
    simpa using hle
  | some next =>
    refine hle.trans ?_
    simp only [reduceCtorEq, if_false]
    split <;> omega

section Fine

variable {uid : ℕ} {pc : CheckPc}

/-- A thread that is fine has not thrown. -/
theorem CheckPc.Fine.ne_threw (h : pc.Fine uid) : pc ≠ .threw := by
  rintro rfl
  exact h

/-- Before the loops all decrements are to come. -/
theorem CheckPc.Fine.todo_of_le_one (h : pc.Fine uid) (hle : pc.syncs ≤ 1) :
    pc.todo = nbtxperwrk := by
  cases pc <;> simp [syncs] at hle <;> first | rfl | exact h.elim

/-- After the loops none are. -/
theorem CheckPc.Fine.todo_of_three_le (h : pc.Fine uid)
    (hle : 3 ≤ pc.syncs + if pc.afterSync uid = none then 0 else 1) : pc.todo = 0 := by
  cases pc <;> simp [syncs, afterSync] at hle <;> rfl

/-- A call of `barrier.sync` does not change what is to be done. -/
theorem CheckPc.Fine.afterSync (h : pc.Fine uid) (hnext : pc.afterSync uid = some next) :
    next.Fine uid ∧ next.todo = pc.todo ∧ (∀ k last, next ≠ .decrease k last) ∧
      (next = .startSync ∨ next = .setInitial ↔ pc = .startSync ∧ uid = 0) := by
  cases pc <;> simp only [CheckPc.afterSync, Option.some.injEq, reduceCtorEq] at hnext
  case startSync | closeSync =>
    subst hnext
    split <;> simp_all [Fine, todo]
  all_goals
    subst hnext
    simp_all [Fine, todo, nbtxperwrk]

end Fine

/-- What is to be done changes in one thread only. -/
theorem sum_todo_update (pc : Fin n → CheckPc) (i : Fin n) (next : CheckPc) :
    ∑ j, (Function.update pc i next j).todo + (pc i).todo = ∑ j, (pc j).todo + next.todo := by
  rw [← Finset.add_sum_erase _ _ (Finset.mem_univ i),
    ← Finset.add_sum_erase _ (fun j => (pc j).todo) (Finset.mem_univ i), Function.update_self]
  have hrest : ∑ j ∈ Finset.univ.erase i, (Function.update pc i next j).todo =
      ∑ j ∈ Finset.univ.erase i, (pc j).todo := by
    refine Finset.sum_congr rfl fun j hj => ?_
    rw [Function.update_of_ne (Finset.ne_of_mem_erase hj)]
  omega

namespace Accounted

/-- No thread is more than a round behind another. -/
theorem syncs_le (h : Accounted s) (i j : Fin n) :
    (s.pc i).syncs ≤ (s.pc j).syncs + if (s.pc j).afterSync j = none then 0 else 1 :=
  h.aligned.syncs_le (h.fine i).ne_threw (h.fine j).ne_threw

/-- While thread 0 is at one of its first control points, no thread has started its loop. -/
theorem todo_early (h : Accounted s) (hi : s.pc i = .startSync ∨ s.pc i = .setInitial ∨
    s.pc i = .confirm) (j : Fin n) : (s.pc j).syncs ≤ 1 ∧ (s.pc j).todo = nbtxperwrk := by
  have hle := h.syncs_le j i
  have hone : (s.pc j).syncs ≤ 1 := by
    rcases hi with hi | hi | hi <;> simpa [hi, CheckPc.syncs, CheckPc.afterSync] using hle
  exact ⟨hone, (h.fine j).todo_of_le_one hone⟩

/-- A thread in its loop finds the counter initialized. -/
theorem opened (h : Accounted s) (hi : (s.pc i).syncs = 2) : s.Opened := by
  intro j _
  have hle := h.syncs_le i j
  rw [hi] at hle
  constructor <;> intro hj <;> simp [hj, CheckPc.syncs, CheckPc.afterSync] at hle

/-- The books stay right in the barrier. -/
theorem sync (h : Accounted s) (hn : n < 2 ^ w) (hstep : s.sync w i = some t) : Accounted t := by
  have haligned := h.aligned.sync hn hstep
  obtain ⟨next, hnext, hcounter, -, hcases⟩ := CheckState.sync_cases hstep
  obtain ⟨hfine, htodo, hdecrease, hopen⟩ := (h.fine i).afterSync hnext
  rcases hcases with ⟨-, -, hpc⟩ | ⟨-, -, hpc, -⟩ | ⟨-, -, hpc, -⟩
  · exact ⟨haligned, by rw [hpc]; exact h.fine, by rw [hpc, hcounter]; exact h.last,
      by rw [CheckState.Opened, hpc, hcounter]; exact h.counter⟩
  · exact ⟨haligned, by rw [hpc]; exact h.fine, by rw [hpc, hcounter]; exact h.last,
      by rw [CheckState.Opened, hpc, hcounter]; exact h.counter⟩
  refine ⟨haligned, fun j => ?_, fun j k last hj => ?_, fun hopened => ?_⟩
  · rw [hpc]
    by_cases hji : j = i
    · subst hji
      rwa [Function.update_self]
    · rw [Function.update_of_ne hji]
      exact h.fine j
  · rw [hpc] at hj
    rw [hcounter]
    by_cases hji : j = i
    · subst hji
      rw [Function.update_self] at hj
      exact absurd hj (hdecrease k last)
    · rw [Function.update_of_ne hji] at hj
      exact h.last j k last hj
  · -- thread 0 is past its first transaction only if it was before
    have hbefore : s.Opened := by
      intro j hj
      have hj' := hopened j hj
      rw [hpc] at hj'
      by_cases hji : j = i
      · subst hji
        rw [Function.update_self] at hj'
        refine ⟨fun hstart => ?_, fun hset => ?_⟩
        · rcases hopen.2 ⟨hstart, hj⟩ with hnext' | hnext'
          · exact hj'.1 hnext'
          · exact hj'.2 hnext'
        · rw [hset] at hnext
          cases hnext
      · rwa [Function.update_of_ne hji] at hj'
    have hsum := sum_todo_update s.pc i next
    rw [hcounter, hpc, h.counter hbefore]
    omega

/-- A transaction after which thread `i` has `next.todo` decrements to come. -/
theorem tx_of (h : Accounted s) (haligned : Aligned t) (hpc : t.pc = Function.update s.pc i next)
    (hfine : next.Fine i)
    (hlast : ∀ j k last, t.pc j = .decrease k last → t.counter.toNat ≤ last.toNat)
    (hcounter : t.Opened → t.counter.toNat + (s.pc i).todo = ∑ j, (s.pc j).todo + next.todo) :
    Accounted t := by
  refine ⟨haligned, fun j => ?_, hlast, fun hopened => ?_⟩
  · rw [hpc]
    by_cases hji : j = i
    · subst hji
      rwa [Function.update_self]
    · rw [Function.update_of_ne hji]
      exact h.fine j
  · have hsum := sum_todo_update s.pc i next
    have hcount := hcounter hopened
    rw [hpc]
    omega

/-- The bounds of the other threads, if the counter has not increased. -/
theorem last_of (h : Accounted s) (hpc : t.pc = Function.update s.pc i next)
    (hle : t.counter.toNat ≤ s.counter.toNat)
    (hself : ∀ k last, next = .decrease k last → t.counter.toNat ≤ last.toNat) (j : Fin n) (k : ℕ)
    (last : Counter) (hj : t.pc j = .decrease k last) : t.counter.toNat ≤ last.toNat := by
  rw [hpc] at hj
  by_cases hji : j = i
  · subst hji
    rw [Function.update_self] at hj
    exact hself k last hj
  · rw [Function.update_of_ne hji] at hj
    exact hle.trans (h.last j k last hj)

/-- A transaction that does not concern thread 0's first steps leaves it past them. -/
theorem opened_of (hpc : t.pc = Function.update s.pc i next)
    (hi : s.pc i ≠ .startSync ∧ s.pc i ≠ .setInitial) (hopened : t.Opened) : s.Opened := by
  intro j hj
  have hj' := hopened j hj
  rw [hpc] at hj'
  by_cases hji : j = i
  · rwa [hji]
  · rwa [Function.update_of_ne hji] at hj'

/-- Thread 0 is past its first transaction. -/
theorem opened_of_zero (hzero : i.val = 0) (hi : s.pc i ≠ .startSync ∧ s.pc i ≠ .setInitial) :
    s.Opened := by
  intro j hj
  have hji : j = i := Fin.ext (hj.trans hzero.symm)
  rwa [hji]

/-- The counter holds the number of decrements to come. -/
theorem toNat_initial (hsize : nbtxperwrk * n < 2 ^ 64) :
    (BitVec.ofNat 64 (nbtxperwrk * n)).toNat = nbtxperwrk * n := by
  rw [BitVec.toNat_ofNat, Nat.mod_eq_of_lt hsize]

/-- Before the loops, all decrements are to come. -/
theorem sum_todo_early (h : Accounted s) (hi : s.pc i = .startSync ∨ s.pc i = .setInitial ∨
    s.pc i = .confirm) : ∑ j, (s.pc j).todo = nbtxperwrk * n := by
  simp [fun j => (h.todo_early hi j).2, Nat.mul_comm]

section Tx

variable (h : Accounted s) (haligned : Aligned t) (hpc : t.pc = Function.update s.pc i next)
  (hnext : (s.pc i).afterTx ((s.pc i).atomically n s.counter).1 = some next)
  (hcounter : t.counter = ((s.pc i).atomically n s.counter).2)

include h haligned hpc hnext hcounter

/-- The first thread sets the counter. -/
theorem setInitial (hsize : nbtxperwrk * n < 2 ^ 64) (hi : s.pc i = .setInitial) :
    Accounted t := by
  have hfine := h.fine i
  rw [hi] at hnext hcounter hfine
  simp only [CheckPc.atomically, CheckPc.afterTx, Option.some.injEq] at hnext hcounter
  subst hnext
  refine h.tx_of haligned hpc hfine (fun j k last hj => ?_) fun _ => ?_
  · -- nobody is in the loop yet
    rw [hpc] at hj
    by_cases hji : j = i
    · simp [hji] at hj
    · rw [Function.update_of_ne hji] at hj
      have hle := (h.todo_early (.inr (.inl hi)) j).1
      simp [hj, CheckPc.syncs] at hle
  · rw [hcounter, toNat_initial hsize, hi, h.sum_todo_early (.inr (.inl hi))]
    rfl

/-- The first thread finds the counter as it has set it. -/
theorem confirm (hsize : nbtxperwrk * n < 2 ^ 64) (hi : s.pc i = .confirm) : Accounted t := by
  have hfine := h.fine i
  rw [hi] at hfine
  have hopened : s.Opened := opened_of_zero hfine (by simp [hi])
  have hcorrect : s.counter = BitVec.ofNat 64 (nbtxperwrk * n) := by
    apply BitVec.eq_of_toNat_eq
    rw [toNat_initial hsize, h.counter hopened, h.sum_todo_early (.inr (.inr hi))]
  rw [hi] at hnext hcounter
  simp only [CheckPc.atomically, CheckPc.afterTx, hcorrect, beq_self_eq_true, if_true,
    Option.some.injEq] at hnext hcounter
  subst hnext
  have hsame : t.counter = s.counter := hcounter.trans hcorrect.symm
  refine h.tx_of haligned hpc trivial (h.last_of hpc (by rw [hsame]) (by simp)) fun _ => ?_
  rw [hsame, h.counter hopened, hi]
  rfl

/-- A thread reads the counter. -/
theorem fetch {k : ℕ} (hi : s.pc i = .fetch k) : Accounted t := by
  have hfine := h.fine i
  rw [hi] at hnext hcounter hfine
  simp only [CheckPc.atomically, CheckPc.afterTx, Option.some.injEq] at hnext hcounter
  subst hnext
  refine h.tx_of haligned hpc hfine (h.last_of hpc (by rw [hcounter]) ?_) fun hopened => ?_
  · intro k' last hlast
    injection hlast with _ hlast
    rw [hcounter, hlast]
  · rw [hcounter, h.counter (opened_of hpc (by simp [hi]) hopened), hi]
    rfl

/-- A thread decrements the counter. -/
theorem decrease {k : ℕ} {last : Counter} (hi : s.pc i = .decrease k last) : Accounted t := by
  have hcount := h.counter (h.opened (i := i) (by rw [hi]; rfl))
  have hle := h.last i k last hi
  have hfine := h.fine i
  have hpositive : (s.pc i).todo ≤ s.counter.toNat := by
    rw [hcount]
    exact Finset.single_le_sum (f := fun j => (s.pc j).todo) (fun _ _ => Nat.zero_le _)
      (Finset.mem_univ i)
  have hnot : ¬ s.counter > last := by
    rw [gt_iff_lt, BitVec.lt_def]
    omega
  rw [hi] at hnext hcounter hfine hpositive
  have hk : k < nbtxperwrk := hfine
  simp only [CheckPc.todo] at hpositive
  simp only [CheckPc.atomically, if_neg hnot, CheckPc.afterTx, if_true,
    Option.some.injEq] at hnext hcounter
  have hminus : (s.counter - 1).toNat = s.counter.toNat - 1 := by
    rw [BitVec.toNat_sub_of_le]
    · rfl
    · rw [BitVec.le_def]
      show 1 ≤ s.counter.toNat
      omega
  have hnextTodo : next.Fine i ∧ next.todo = nbtxperwrk - (k + 1) ∧
      ∀ k last, next ≠ .decrease k last := by
    subst hnext
    split
    next hlt => exact ⟨hlt, rfl, by simp⟩
    next hge => exact ⟨trivial, by simp only [CheckPc.todo]; omega, by simp⟩
  refine h.tx_of haligned hpc hnextTodo.1 (h.last_of hpc ?_ ?_) fun _ => ?_
  · rw [hcounter, hminus]
    exact Nat.sub_le _ _
  · exact fun k' last' hlast => absurd hlast (hnextTodo.2.2 k' last')
  · rw [hcounter, hminus, hnextTodo.2.1, hi, ← hcount]
    simp only [CheckPc.todo]
    omega

/-- A thread finds the counter at zero. -/
theorem conclude (hi : s.pc i = .conclude) : Accounted t := by
  have hfine := h.fine i
  rw [hi] at hfine
  have hzero : s.counter = 0 := by
    apply BitVec.eq_of_toNat_eq
    rw [h.counter (opened_of_zero hfine (by simp [hi]))]
    -- all threads have left their loops
    refine Finset.sum_eq_zero fun j _ => (h.fine j).todo_of_three_le ?_
    have hle := h.syncs_le i j
    rwa [hi] at hle
  rw [hi] at hnext hcounter
  simp only [CheckPc.atomically, hzero, beq_self_eq_true, CheckPc.afterTx, if_true,
    Option.some.injEq] at hnext hcounter
  subst hnext
  refine h.tx_of haligned hpc rfl (h.last_of hpc (by rw [hcounter, hzero]) (by simp))
    fun hopened => ?_
  rw [hcounter, ← hzero, h.counter (opened_of hpc (by simp [hi]) hopened), hi]
  rfl

end Tx

/-- The books stay right when a transaction is executed. -/
theorem tx (h : Accounted s) (hsize : nbtxperwrk * n < 2 ^ 64)
    (hanswer : answer = ((s.pc i).atomically n s.counter).1) (hstep : s.tx i answer = some t) :
    Accounted t := by
  have haligned := h.aligned.tx hstep
  obtain ⟨next, hnext, -, hpc, hcounter⟩ := CheckState.tx_cases hstep
  subst hanswer
  cases hi : s.pc i with
  | setInitial => exact h.setInitial haligned hpc hnext hcounter hsize hi
  | confirm => exact h.confirm haligned hpc hnext hcounter hsize hi
  | fetch k => exact h.fetch haligned hpc hnext hcounter hi
  | decrease k last => exact h.decrease haligned hpc hnext hcounter hi
  | conclude => exact h.conclude haligned hpc hnext hcounter hi
  | _ =>
    rw [hi] at hnext
    simp [CheckPc.afterTx] at hnext

/-- The books are right in every reachable state. -/
theorem of_reachable (hpos : 1 ≤ n) (hn : n < 2 ^ w) (hsize : nbtxperwrk * n < 2 ^ 64)
    (h : (checkSystem w n).Reachable atomicAnswers s) : Accounted s := by
  refine h.invariant ?_ fun s lab t _ ih hstep hok => ?_
  · have hinit : (checkSystem w n).Reachable atomicAnswers (checkSystem w n).init := .init
    have haligned := Aligned.of_reachable hpos hn hinit
    exact ⟨haligned, fun _ => trivial, fun _ _ _ hi => by simp [checkSystem] at hi,
      fun hopened => absurd rfl (hopened ⟨0, hpos⟩ rfl).1⟩
  · cases lab with
    | sync i => exact ih.sync hn hstep
    | tx i answer => exact ih.tx hsize (hok i answer rfl) hstep

end Accounted

/-- The check passes. -/
structure CheckPasses (w : ℕ) (s : CheckState n) : Prop where
  /-- No thread reports an error, and no exception leaves `check`. -/
  noError : ∀ i, s.pc i ≠ .threw ∧ ∀ error, s.pc i = .returned error → error = none
  /-- The counter is not decreased below zero. -/
  positive : ∀ i k last, s.pc i = .decrease k last → 0 < s.counter.toNat
  /-- The counter is zero once all threads have returned. -/
  zero : (∀ i, (s.pc i).Returned) → s.counter = 0
  /-- Unless all threads have returned, one of them can go on. -/
  live : (∃ i, ¬ (s.pc i).Returned) → ∃ lab t, (checkSystem w n).step s lab = some t ∧
    atomicAnswers s lab t ∧ t.left < s.left

/-- With a library that executes every transaction atomically the check passes in all threads, in
any interleaving of their steps. -/
theorem checkPasses (hpos : 1 ≤ n) (hn : n < 2 ^ w) (hsize : nbtxperwrk * n < 2 ^ 64)
    (h : (checkSystem w n).Reachable atomicAnswers s) : CheckPasses w s := by
  have haccounted := Accounted.of_reachable hpos hn hsize h
  have hthrew := fun i => (haccounted.fine i).ne_threw
  refine ⟨fun i => ⟨hthrew i, fun error hi => ?_⟩, fun i k last hi => ?_, fun hall => ?_,
    fun hopen => ?_⟩
  · have hfine := haccounted.fine i
    rw [hi] at hfine
    exact hfine
  · have hopened : s.Opened := haccounted.opened (by rw [hi]; rfl)
    have hfine := haccounted.fine i
    rw [hi] at hfine
    have hk : k < nbtxperwrk := hfine
    rw [haccounted.counter hopened]
    refine lt_of_lt_of_le ?_ (Finset.single_le_sum (f := fun j => (s.pc j).todo)
      (fun _ _ => Nat.zero_le _) (Finset.mem_univ i))
    simp only [hi, CheckPc.todo]
    omega
  · have hopened : s.Opened := by
      intro j _
      obtain ⟨error, hj⟩ := hall j
      simp [hj]
    apply BitVec.eq_of_toNat_eq
    rw [haccounted.counter hopened]
    refine Finset.sum_eq_zero fun j _ => ?_
    obtain ⟨error, hj⟩ := hall j
    rw [hj]
    rfl
  · obtain ⟨lab, t, hstep, -, hatomic, hlt⟩ := haccounted.aligned.live hthrew hopen
    exact ⟨lab, t, hstep, hatomic, hlt⟩

/-- Thread 0 of four initializes the counter, and thread 1 is about to decrease it. -/
def openedCheck : List (CheckLabel 4) :=
  syncRound ++ [.tx 0 .done, .tx 0 (.verdict true)] ++ syncRound ++ [.tx 1 (.value 400)]

theorem openedCheck_isSome : ((checkSystem 32 4).exec checkAtomic
    (checkSystem 32 4).init openedCheck).isSome := by decide

theorem checkPasses_openedCheck : CheckPasses 32 (((checkSystem 32 4).exec checkAtomic
    (checkSystem 32 4).init openedCheck).get openedCheck_isSome) :=
  checkPasses (by decide) (by decide) (by decide)
    (LabelledSystem.reachable_of_exec (fun _ _ _ => atomicAnswers_of_check) openedCheck_isSome)

end TransactionalMemory.Grading
