import Mathlib.Tactic.Simps.Basic
import TransactionalMemory.Foundations.Counting
import TransactionalMemory.Grading.Barrier

/-!
# The rounds of the spin barrier

Round `k + 1` of `Barrier::sync` goes through the phases

* `Filling`: threads enter, while some may still poll for the end of round `k`;
* `Full`: the last one to enter sets the mode to `leave`;
* `Draining`: threads see the mode and leave;
* `Emptied`: the last one to leave sets the mode to `enter`, which starts round `k + 2`.

In every reachable state the rounds are separated (`barrierRounds`): no thread is through with a
round that another one has not entered, the counter counts, and some thread can go on.
-/

namespace TransactionalMemory.Grading

open BarrierState

variable {w n k : ℕ} {s : BarrierState n} {i j l : Fin n}

/-! ## The phases -/

namespace Thread

/-- Not in `sync`, after `k` rounds. -/
@[simps]
def between (k : ℕ) : Thread := ⟨.outside, k, k⟩

/-- In `sync` for round `k + 1`. -/
@[simps]
def inside (k : ℕ) (pc : ThreadPc) : Thread := ⟨pc, k + 1, k⟩

/-- A thread that the counter counts: it has done the fetch-add and not the fetch-sub. -/
def Counted (x : Thread) : Prop := x.pc = .waitLeave ∨ x.pc = .fetchSub

instance (x : Thread) : Decidable x.Counted := inferInstanceAs (Decidable (_ ∨ _))

/-- A thread while round `k + 1` fills. -/
def Fills (k : ℕ) (x : Thread) : Prop :=
  x = between k ∨ x = inside k .waitLeave ∨ ∃ j, k = j + 1 ∧ x = inside j .waitEnter

/-- A thread while round `k + 1` drains. -/
def Drains (k : ℕ) (x : Thread) : Prop :=
  x = inside k .waitLeave ∨ x = inside k .fetchSub ∨ x = inside k .waitEnter

end Thread

/-- Threads enter round `k + 1`. -/
structure Filling (s : BarrierState n) (k : ℕ) : Prop where
  mode : s.mode = .enter
  thread : ∀ i, (s.thread i).Fills k
  step : s.step = countOf (fun x => x.entered = k + 1) s.thread
  lt : s.step < n

/-- All threads have entered, `l` was the last. -/
structure Full (s : BarrierState n) (k : ℕ) (l : Fin n) : Prop where
  mode : s.mode = .enter
  others : ∀ i, i ≠ l → s.thread i = .inside k .waitLeave
  last : s.thread l = .inside k .setLeave
  step : s.step = n

/-- Threads leave round `k + 1`. -/
structure Draining (s : BarrierState n) (k : ℕ) : Prop where
  mode : s.mode = .leave
  thread : ∀ i, (s.thread i).Drains k
  step : s.step = countOf Thread.Counted s.thread
  pos : 0 < s.step

/-- All threads have left, `l` was the last. -/
structure Emptied (s : BarrierState n) (k : ℕ) (l : Fin n) : Prop where
  mode : s.mode = .leave
  others : ∀ i, i ≠ l → s.thread i = .inside k .waitEnter
  last : s.thread l = .inside k .setEnter
  step : s.step = 0

/-- The phases. -/
inductive BarrierPhase (s : BarrierState n) : Prop
  | filling (k : ℕ) (h : Filling s k)
  | full (k : ℕ) (l : Fin n) (h : Full s k l)
  | draining (k : ℕ) (h : Draining s k)
  | emptied (k : ℕ) (l : Fin n) (h : Emptied s k l)

/-! ## A step stays in a phase or goes to the next one -/

/-- A spinning thread changes nothing. -/
theorem sync_spinning (h : s.Spinning i) : s.sync w i = s := by
  obtain ⟨hpc, hmode⟩ | ⟨hpc, hmode⟩ := h
  · simp only [sync, hpc, if_neg hmode]
  · simp only [sync, hpc, if_neg hmode]

/-- A thread enters, possibly as the last one. -/
theorem Filling.enter (h : Filling s k) (hn : n < 2 ^ w) (hi : s.thread i = .between k) :
    BarrierPhase (s.sync w i) := by
  have hcount (pc : ThreadPc) : countOf (fun x => x.entered = k + 1)
      (Function.update s.thread i (.inside k pc)) = s.step + 1 := by
    rw [h.step]
    exact countOf_update_new (by simp [hi]) rfl
  have hmod : (s.step + 1) % 2 ^ w = s.step + 1 := Nat.mod_eq_of_lt (Nat.lt_of_le_of_lt h.lt hn)
  by_cases hlast : s.step + 1 = n
  · -- all have entered, so nobody polls for the end of the last round
    have hothers : ∀ j, j ≠ i → s.thread j = .inside k .waitLeave := by
      intro j hj
      have hentered := countOf_eq_card_iff.mp
        ((hcount .setLeave).trans (hlast.trans (Fintype.card_fin n).symm)) j
      rw [Function.update_of_ne hj] at hentered
      obtain hj' | hj' | ⟨m, rfl, hj'⟩ := h.thread j
      · simp [hj'] at hentered
      · exact hj'
      · simp [hj'] at hentered
    have hsync : s.sync w i = { s with step := n }.go i (.inside k .setLeave) := by
      simp [BarrierState.sync, hi, hlast, Nat.mod_eq_of_lt hn, Thread.inside]
    rw [hsync]
    refine .full k i ⟨h.mode, fun j hj => ?_, ?_, rfl⟩
    · simp [go, hj, hothers j hj]
    · simp [go]
  · have hsync : s.sync w i = { s with step := s.step + 1 }.go i (.inside k .waitLeave) := by
      simp [BarrierState.sync, hi, hmod, hlast, Thread.inside]
    rw [hsync]
    refine .filling k ⟨h.mode, ?_, (hcount .waitLeave).symm, lt_of_le_of_ne h.lt hlast⟩
    exact (Function.forall_update_iff s.thread fun _ x => x.Fills k).2
      ⟨.inr (.inl rfl), fun j _ => h.thread j⟩

/-- A step while the threads arrive. -/
theorem Filling.sync (h : Filling s k) (hn : n < 2 ^ w) (i : Fin n) :
    BarrierPhase (s.sync w i) := by
  obtain hi | hi | ⟨j, rfl, hi⟩ := h.thread i
  case inl => exact h.enter hn hi
  case inr.inl =>
    rw [sync_spinning (.inl (by simp [hi, h.mode]))]
    exact .filling k h
  case inr.inr =>
    -- it sees that the last round is over
    have hsync : s.sync w i = s.go i (.between (j + 1)) := by
      simp [BarrierState.sync, hi, h.mode, Thread.between]
    rw [hsync]
    refine .filling (j + 1) ⟨h.mode, ?_, ?_, h.lt⟩
    · exact (Function.forall_update_iff s.thread fun _ x => x.Fills (j + 1)).2
        ⟨.inl rfl, fun j _ => h.thread j⟩
    · exact h.step.trans (countOf_update_same (by simp [hi])).symm

/-- A step when all threads have arrived. -/
theorem Full.sync (h : Full s k l) (i : Fin n) : BarrierPhase (s.sync w i) := by
  by_cases hi : i = l
  case neg =>
    rw [sync_spinning (.inl (by simp [h.others i hi, h.mode]))]
    exact .full k l h
  subst hi
  have hsync : s.sync w i = { s with mode := .leave }.go i (.inside k .fetchSub) := by
    simp [BarrierState.sync, h.last, Thread.inside]
  rw [hsync]
  refine .draining k ⟨rfl, ?_, ?_, ?_⟩
  · exact (Function.forall_update_iff s.thread fun _ x => x.Drains k).2
      ⟨.inr (.inl rfl), fun j hj => .inl (h.others j hj)⟩
  · have hall : ∀ j, Thread.Counted (Function.update s.thread i (.inside k .fetchSub) j) :=
      (Function.forall_update_iff s.thread fun _ x => x.Counted).2
        ⟨.inr rfl, fun j hj => .inl (by simp [h.others j hj])⟩
    exact h.step.trans ((Fintype.card_fin n).symm.trans (countOf_eq_card_iff.mpr hall).symm)
  · show 0 < s.step
    rw [h.step]
    exact i.pos

/-- A thread leaves, possibly as the last one. -/
theorem Draining.leave (h : Draining s k) (hn : n < 2 ^ w)
    (hi : s.thread i = .inside k .fetchSub) : BarrierPhase (s.sync w i) := by
  have hcount (pc : ThreadPc) (hpc : ¬ (Thread.inside k pc).Counted) :
      countOf Thread.Counted (Function.update s.thread i (.inside k pc)) = s.step - 1 := by
    rw [h.step, ← countOf_update_lost (f := s.thread) (i := i) (by simp [hi, Thread.Counted]) hpc]
    rfl
  have hle : s.step ≤ n := h.step ▸ (countOf_le _ _).trans_eq (Fintype.card_fin n)
  -- the decrement is an addition of `2 ^ w - 1`, and the counter is not zero
  have hmod : (s.step + (2 ^ w - 1)) % 2 ^ w = s.step - 1 := by
    have hpos := h.pos
    have hsum : s.step + (2 ^ w - 1) = (s.step - 1) + 2 ^ w := by omega
    rw [hsum, Nat.add_mod_right, Nat.mod_eq_of_lt (by omega)]
  by_cases hlast : s.step - 1 = 0
  · -- all have been counted off, so they poll for the next round
    have hothers : ∀ j, j ≠ i → s.thread j = .inside k .waitEnter := by
      intro j hj
      have hnone := countOf_eq_zero_iff.mp
        ((hcount .setEnter (by simp [Thread.Counted])).trans hlast) j
      rw [Function.update_of_ne hj] at hnone
      obtain hj' | hj' | hj' := h.thread j
      · simp [hj', Thread.Counted] at hnone
      · simp [hj', Thread.Counted] at hnone
      · exact hj'
    have hsync : s.sync w i = { s with step := 0 }.go i (.inside k .setEnter) := by
      simp [BarrierState.sync, hi, hmod, hlast, Thread.inside]
    rw [hsync]
    refine .emptied k i ⟨h.mode, fun j hj => ?_, ?_, rfl⟩
    · simp [go, hj, hothers j hj]
    · simp [go]
  · have hsync : s.sync w i = { s with step := s.step - 1 }.go i (.inside k .waitEnter) := by
      simp [BarrierState.sync, hi, hmod, hlast, Thread.inside]
    rw [hsync]
    refine .draining k ⟨h.mode, ?_, (hcount .waitEnter (by simp [Thread.Counted])).symm,
      Nat.pos_of_ne_zero hlast⟩
    exact (Function.forall_update_iff s.thread fun _ x => x.Drains k).2
      ⟨.inr (.inr rfl), fun j _ => h.thread j⟩

/-- A step while the threads leave. -/
theorem Draining.sync (h : Draining s k) (hn : n < 2 ^ w) (i : Fin n) :
    BarrierPhase (s.sync w i) := by
  obtain hi | hi | hi := h.thread i
  case inl =>
    have hsync : s.sync w i = s.go i (.inside k .fetchSub) := by
      simp [BarrierState.sync, hi, h.mode, Thread.inside]
    rw [hsync]
    refine .draining k ⟨h.mode, ?_, ?_, h.pos⟩
    · exact (Function.forall_update_iff s.thread fun _ x => x.Drains k).2
        ⟨.inr (.inl rfl), fun j _ => h.thread j⟩
    · exact h.step.trans (countOf_update_same (by simp [hi, Thread.Counted])).symm
  case inr.inl => exact h.leave hn hi
  case inr.inr =>
    rw [sync_spinning (.inr (by simp [hi, h.mode]))]
    exact .draining k h

/-- A step when all threads have left. -/
theorem Emptied.sync (h : Emptied s k l) (i : Fin n) : BarrierPhase (s.sync w i) := by
  by_cases hi : i = l
  case neg =>
    rw [sync_spinning (.inr (by simp [h.others i hi, h.mode]))]
    exact .emptied k l h
  subst hi
  have hsync : s.sync w i = { s with mode := .enter }.go i (.between (k + 1)) := by
    simp [BarrierState.sync, h.last, Thread.between]
  rw [hsync]
  refine .filling (k + 1) ⟨rfl, ?_, ?_, ?_⟩
  · exact (Function.forall_update_iff s.thread fun _ x => x.Fills (k + 1)).2
      ⟨.inl rfl, fun j hj => .inr (.inr ⟨k, rfl, h.others j hj⟩)⟩
  · have hnone : ∀ j, (Function.update s.thread i (.between (k + 1)) j).entered ≠ k + 1 + 1 :=
      (Function.forall_update_iff s.thread fun _ x => x.entered ≠ k + 1 + 1).2
        ⟨by simp, fun j hj => by simp [h.others j hj]⟩
    exact h.step.trans (countOf_eq_zero_iff.mpr hnone).symm
  · show s.step < n
    rw [h.step]
    exact i.pos

/-- Every step leads from a phase to a phase. -/
theorem BarrierPhase.sync (h : BarrierPhase s) (hn : n < 2 ^ w) (i : Fin n) :
    BarrierPhase (s.sync w i) := by
  cases h with
  | filling k h => exact h.sync hn i
  | full k l h => exact h.sync i
  | draining k h => exact h.sync hn i
  | emptied k l h => exact h.sync i

/-- Every reachable state is in a phase. -/
theorem BarrierPhase.of_reachable (hpos : 1 ≤ n) (hn : n < 2 ^ w)
    (h : (barrierSystem w n).Reachable LabelledSystem.always s) : BarrierPhase s := by
  refine h.invariant ?_ fun s i t _ ih hstep _ => ?_
  · refine .filling 0 ⟨rfl, fun _ => .inl rfl, ?_, hpos⟩
    exact (countOf_eq_zero_iff.mpr fun _ => Nat.zero_ne_one).symm
  · obtain rfl : s.sync w i = t := Option.some.inj hstep
    exact ih.sync hn i

/-! ## Rounds -/

/-- Barrier rounds are separated and do not jam. -/
structure BarrierRounds (s : BarrierState n) : Prop where
  /-- `sync` returns for the `k`-th time only after all threads have entered it `k` times. -/
  completed_le_entered : ∀ i j, (s.thread i).completed ≤ (s.thread j).entered
  /-- The numbers of completed rounds differ by at most one. -/
  completed_le_completed : ∀ i j, (s.thread i).completed ≤ (s.thread j).completed + 1
  /-- The counter does not exceed the number of threads. -/
  step_le : s.step ≤ n
  /-- The counter is not decremented below zero. -/
  step_pos : ∀ i, (s.thread i).pc = .fetchSub → 0 < s.step
  /-- Not all threads spin. -/
  not_jammed : ∃ i, ¬ s.Spinning i

/-- The counts of the threads around a number `k` of rounds. -/
theorem BarrierPhase.exists_counts (h : BarrierPhase s) :
    ∃ k, ∀ i, k ≤ (s.thread i).entered ∧ (s.thread i).completed ≤ k ∧
      k ≤ (s.thread i).completed + 1 := by
  cases h with
  | filling k h =>
    refine ⟨k, fun i => ?_⟩
    obtain hi | hi | ⟨j, rfl, hi⟩ := h.thread i <;> simp [hi]
  | full k l h =>
    refine ⟨k, fun i => ?_⟩
    by_cases hi : i = l
    · subst hi
      simp [h.last]
    · simp [h.others i hi]
  | draining k h =>
    refine ⟨k, fun i => ?_⟩
    obtain hi | hi | hi := h.thread i <;> simp [hi]
  | emptied k l h =>
    refine ⟨k, fun i => ?_⟩
    by_cases hi : i = l
    · subst hi
      simp [h.last]
    · simp [h.others i hi]

/-- The counter never exceeds the number of threads. -/
theorem BarrierPhase.step_le (h : BarrierPhase s) : s.step ≤ n := by
  cases h with
  | filling k h => exact h.lt.le
  | full k l h => exact h.step.le
  | draining k h => exact h.step ▸ (countOf_le _ _).trans_eq (Fintype.card_fin n)
  | emptied k l h => exact h.step ▸ Nat.zero_le n

/-- Only while a round drains is there a thread about to decrement the counter. -/
theorem BarrierPhase.step_pos (h : BarrierPhase s) (hpc : (s.thread i).pc = .fetchSub) :
    0 < s.step := by
  cases h with
  | draining k h => exact h.pos
  | filling k h => obtain hi | hi | ⟨j, rfl, hi⟩ := h.thread i <;> simp [hi] at hpc
  | full k l h =>
    by_cases hi : i = l
    · subst hi
      simp [h.last] at hpc
    · simp [h.others i hi] at hpc
  | emptied k l h =>
    by_cases hi : i = l
    · subst hi
      simp [h.last] at hpc
    · simp [h.others i hi] at hpc

/-- In every phase some thread can go on. -/
theorem BarrierPhase.not_jammed (h : BarrierPhase s) : ∃ i, ¬ s.Spinning i := by
  cases h with
  | filling k h =>
    -- some thread has not entered, and it is not kept from doing so
    obtain ⟨i, hi⟩ := exists_not_of_countOf_lt
      (h.step ▸ h.lt.trans_eq (Fintype.card_fin n).symm)
    refine ⟨i, ?_⟩
    obtain hx | hx | ⟨j, rfl, hx⟩ := h.thread i
    · simp [Spinning, hx]
    · simp [hx] at hi
    · simp [Spinning, hx, h.mode]
  | full k l h => exact ⟨l, by simp [Spinning, h.last]⟩
  | draining k h =>
    -- some thread is still counted, and it is not kept from leaving
    obtain ⟨i, hi⟩ : ∃ i, (s.thread i).Counted := by
      by_contra hnone
      exact h.pos.ne' (h.step.trans (countOf_eq_zero_iff.mpr (not_exists.mp hnone)))
    refine ⟨i, ?_⟩
    obtain hx | hx := hi <;> simp [Spinning, hx, h.mode]
  | emptied k l h => exact ⟨l, by simp [Spinning, h.last]⟩

/-- For any number of threads, any number of calls of `sync` and any interleaving of their steps,
the rounds of a barrier are separated, its counter neither underflows nor exceeds the number of
threads, and not all threads spin. -/
theorem barrierRounds (hpos : 1 ≤ n) (hn : n < 2 ^ w)
    (h : (barrierSystem w n).Reachable LabelledSystem.always s) : BarrierRounds s := by
  have hphase := BarrierPhase.of_reachable hpos hn h
  obtain ⟨k, hk⟩ := hphase.exists_counts
  exact ⟨fun i j => (hk i).2.1.trans (hk j).1, fun i j => (hk i).2.1.trans (hk j).2.2,
    hphase.step_le, fun _ => hphase.step_pos, hphase.not_jammed⟩

/-- Three threads, of which thread `0` enters the second round while the others still poll for the
end of the first. -/
def overlappingRounds : List (Fin 3) := [0, 1, 2, 2, 2, 1, 1, 0, 0, 0, 0]

theorem overlappingRounds_isSome : ((barrierSystem 32 3).exec (fun _ _ _ => true)
    (barrierSystem 32 3).init overlappingRounds).isSome := by decide

theorem barrierRounds_overlappingRounds : BarrierRounds (((barrierSystem 32 3).exec
    (fun _ _ _ => true) (barrierSystem 32 3).init overlappingRounds).get
      overlappingRounds_isSome) :=
  barrierRounds (by decide) (by decide)
    (LabelledSystem.reachable_of_exec (fun _ _ _ _ => trivial) overlappingRounds_isSome)

end TransactionalMemory.Grading
