import TransactionalMemory.Grading.Rounds

/-!
# Agreement on the rounds

In every reachable state the workers and the master agree on the rounds (`roundAgreement`):

* a worker is let into a round only once the master has started it and all workers have arrived;
* the master gets the result of a round only once all workers have reported;
* the result is an error exactly if one was passed in the round, and it is one of these;
* while the master waits, some worker has more to do than to spin.
-/

namespace TransactionalMemory.Grading

open SyncState

variable {n k : ℕ} {M : Type} {s t : SyncState n M} {i j w : Fin n} {e : Option M}
  {a : SyncLabel n M}

/-! ## The workers are in lockstep -/

/-- Round `k + 1` has let no worker in. -/
def Worker.Before (k : ℕ) (x : Worker M) : Prop :=
  ∃ pc, pc ≠ .running ∧ (x = between k pc ∨ x = gathered k pc)

/-- All workers have arrived in round `k + 1`, and it may have let some in. -/
def Worker.After (k : ℕ) (x : Worker M) : Prop :=
  (∃ pc, x = inside k pc) ∨ ∃ pc, pc ≠ .running ∧ (x = gathered k pc ∨ x = between (k + 1) pc)

/-- Either no worker has been let into the round after those the master has the results of, or the
master has started this round and all workers have arrived in it. -/
theorem Phase.lockstep (h : Phase s) :
    (s.results.length ≤ s.notified ∧ ∀ i, (s.worker i).Before s.results.length) ∨
      (s.notified = s.results.length + 1 ∧ ∀ i, (s.worker i).After s.results.length) := by
  cases h with
  | rest h =>
    refine .inl ⟨h.notified.ge, fun i => ⟨.waitStart, by simp, .inl ?_⟩⟩
    exact h.notified ▸ h.worker i
  | gather h =>
    refine .inl ⟨h.notified ▸ Nat.le_succ _, fun i => ?_⟩
    obtain hw | hw | hw := h.worker i
    · exact ⟨_, by simp, .inl hw⟩
    · exact ⟨_, by simp, .inl hw⟩
    · exact ⟨_, by simp, .inr hw⟩
  | opening w h =>
    refine .inl ⟨h.notified ▸ Nat.le_succ _, fun i => ?_⟩
    by_cases hi : i = w
    · subst hi
      obtain hw | ⟨hw, -⟩ := h.last <;> exact ⟨_, by simp, .inr hw⟩
    · exact ⟨_, by simp, .inr (h.others i hi)⟩
  | work h =>
    refine .inr ⟨h.notified, fun i => ?_⟩
    obtain hw | ⟨pc, -, hw⟩ | hw := h.worker i
    · exact .inr ⟨_, by simp, .inl hw⟩
    · exact .inl ⟨pc, hw⟩
    · exact .inr ⟨_, by simp, .inr hw⟩
  | closing w h =>
    refine .inr ⟨h.notified, fun i => .inr ?_⟩
    by_cases hi : i = w
    · subst hi
      obtain hw | ⟨hw | hw, -⟩ := h.last <;> exact ⟨_, by simp, .inr hw⟩
    · exact ⟨_, by simp, .inr (h.others i hi)⟩
  | raising w h =>
    refine .inr ⟨h.notified, fun i => .inr ?_⟩
    by_cases hi : i = w
    · subst hi
      exact ⟨_, by simp, .inr h.last⟩
    · exact ⟨_, by simp, .inr (h.others i hi)⟩
  | ended h =>
    exact .inr ⟨h.notified, fun i => .inr ⟨_, by simp, .inr (h.notified ▸ h.worker i)⟩⟩
  | reporting h =>
    exact .inr ⟨h.notified, fun i => .inr ⟨_, by simp, .inr (h.notified ▸ h.worker i)⟩⟩
  | leaving h =>
    refine .inl ⟨h.notified.ge, fun i => ?_⟩
    obtain hw | hw := h.worker i <;> exact ⟨_, by simp, .inl (h.notified ▸ hw)⟩

/-- The counts of the workers' calls go together with the rounds started and answered. -/
structure Counts (s : SyncState n M) : Prop where
  results_le : ∀ i, s.results.length ≤ (s.worker i).reported
  le_notified : ∀ i, (s.worker i).returned ≤ s.notified
  le_arrived : ∀ i j, (s.worker i).returned ≤ (s.worker j).arrived

/-- How often the functions have returned in a phase. -/
theorem Phase.counts (h : Phase s) : Counts s := by
  -- `k` rounds have been entered by the workers, or may be
  obtain ⟨k, hk, hcounts⟩ : ∃ k, k ≤ s.notified ∧ ∀ i, k ≤ (s.worker i).arrived ∧
      (s.worker i).returned ≤ k ∧ s.results.length ≤ (s.worker i).reported := by
    obtain ⟨hle, hbefore⟩ | ⟨heq, hafter⟩ := h.lockstep
    · refine ⟨_, hle, fun i => ?_⟩
      obtain ⟨pc, -, hw | hw⟩ := hbefore i <;> simp [hw]
    · refine ⟨_, heq.ge, fun i => ?_⟩
      obtain ⟨pc, hw⟩ | ⟨pc, -, hw | hw⟩ := hafter i <;> simp [hw]
  exact ⟨fun i => (hcounts i).2.2, fun i => (hcounts i).2.1.trans hk,
    fun i j => (hcounts i).2.1.trans (hcounts j).1⟩

/-- A worker that is about to pass an error is in the round the master waits for. -/
theorem Phase.returned_of_running (h : Phase s) (hpc : (s.worker i).pc = .running) :
    (s.worker i).returned = s.results.length + 1 := by
  obtain ⟨-, hbefore⟩ | ⟨-, hafter⟩ := h.lockstep
  · obtain ⟨pc, hne, hw | hw⟩ := hbefore i <;> simp [hw, hne] at hpc
  · obtain ⟨pc, hw⟩ | ⟨pc, hne, hw | hw⟩ := hafter i
    · simp [hw]
    · simp [hw, hne] at hpc
    · simp [hw, hne] at hpc

/-! ## The results of the rounds -/

/-- A result of round `k` that says whether an error was passed in it, and if so which. -/
def RoundResult.Correct (passed : List (ℕ × M)) (k : ℕ) : RoundResult M → Prop
  | .runtime => ∀ m, (k, m) ∉ passed
  | .error errmsg => ∃ m, errmsg = some m ∧ (k, m) ∈ passed

/-- Every result is correct. -/
def Answered (s : SyncState n M) : Prop :=
  ∀ k (h : k < s.results.length), s.results[k].Correct s.passed (k + 1)

/-- What a worker's step does to the history of the rounds. -/
theorem workerStep_history (hstep : s.workerStep i e = some t) :
    t.results = s.results ∧ t.notified = s.notified ∧
      (t.passed = s.passed ∨
        (s.worker i).pc = .running ∧
          ∃ m, t.passed = s.passed ++ [((s.worker i).returned, m)]) := by
  cases hpc : (s.worker i).pc with
  | running =>
    cases e <;> simp only [SyncState.workerStep, hpc, Option.some.injEq] at hstep <;> subst hstep
    · exact ⟨rfl, rfl, .inl rfl⟩
    · exact ⟨rfl, rfl, .inr ⟨rfl, _, rfl⟩⟩
  | waitStart | waitRun =>
    cases hs : s.status <;>
      simp only [SyncState.workerStep, hpc, hs, Option.some.injEq] at hstep <;>
      subst hstep <;>
      exact ⟨rfl, rfl, .inl rfl⟩
  | quit => simp [SyncState.workerStep, hpc] at hstep
  | _ =>
    simp only [SyncState.workerStep, hpc, Option.some.injEq] at hstep
    subst hstep
    exact ⟨rfl, rfl, .inl rfl⟩

/-- Errors passed in a later round do not matter. -/
theorem RoundResult.Correct.append {passed : List (ℕ × M)} {r : RoundResult M} {k' : ℕ} {m : M}
    (h : r.Correct passed k) (hk : k < k') : r.Correct (passed ++ [(k', m)]) k := by
  cases r with
  | runtime =>
    intro m' hm'
    obtain hm' | hm' := List.mem_append.mp hm'
    · exact h m' hm'
    · exact hk.ne (congrArg Prod.fst (List.mem_singleton.mp hm'))
  | error errmsg =>
    obtain ⟨m', hm', hmem⟩ := h
    exact ⟨m', hm', List.mem_append_left _ hmem⟩

/-- A correct result is added to the others. -/
theorem Answered.append {r : RoundResult M} (h : Answered s) (hpassed : t.passed = s.passed)
    (hresults : t.results = s.results ++ [r]) (hr : r.Correct s.passed (s.results.length + 1)) :
    Answered t := by
  intro k hk
  simp only [hresults, hpassed]
  obtain hlt | rfl := Nat.lt_or_eq_of_le (Nat.le_of_lt_succ (by simpa [hresults] using hk))
  · rw [List.getElem_append_left hlt]
    exact h k hlt
  · simpa using hr

/-- A worker leaves the results correct. -/
theorem Answered.workerStep (h : Answered s) (hphase : Phase s)
    (hstep : s.workerStep i e = some t) : Answered t := by
  -- an error that is passed now belongs to the round the master waits for
  obtain ⟨hresults, -, hpassed | ⟨hpc, m, hpassed⟩⟩ := workerStep_history hstep
  · rw [Answered, hresults, hpassed]
    exact h
  · rw [Answered, hresults, hpassed, hphase.returned_of_running hpc]
    exact fun k hk => (h k hk).append (Nat.succ_lt_succ hk)

/-- The master adds correct results. -/
theorem Answered.masterStep (h : Answered s) (hphase : Phase s) (hstep : s.masterStep = some t) :
    Answered t := by
  cases hphase with
  | rest h' => obtain hm | hm := h'.master <;> simp [SyncState.masterStep, hm] at hstep
  -- the latch is down, so `master_wait` does not go on
  | gather h' | opening w h' | work h' | closing w h' | raising w h' =>
    cases h'.toWaiting.masterStep.symm.trans hstep
  | ended h' =>
    obtain ⟨hm, hraised⟩ | ⟨hm, -⟩ := h'.master
    · simp only [SyncState.masterStep, hm, hraised, if_true, Option.some.injEq] at hstep
      subst hstep
      exact h
    · obtain hs | hs := h'.status
      · simp only [SyncState.masterStep, hm, hs, Option.some.injEq] at hstep
        subst hstep
        refine h.append rfl rfl fun m hmem => ?_
        -- a passed error would have made the round fail
        cases hs.symm.trans (h'.verdict.failed m (h'.notified ▸ hmem))
      · simp only [SyncState.masterStep, hm, hs, Option.some.injEq] at hstep
        subst hstep
        exact h
  | reporting h' =>
    simp only [SyncState.masterStep, h'.master, Option.some.injEq] at hstep
    subst hstep
    exact h.append rfl rfl (h'.notified ▸ h'.verdict.errmsg trivial)
  | leaving h' => simp [SyncState.masterStep, h'.master] at hstep

/-! ## The invariant -/

/-- What holds of every reachable state. -/
structure Invariant (s : SyncState n M) : Prop where
  phase : Phase s
  begun : Begun s
  answered : Answered s

/-- Errors are passed only in rounds that have begun. -/
theorem Begun.step (h : Begun s) (hphase : Phase s)
    (hstep : (syncSystem n M).step s a = some t) : Begun t := by
  cases a with
  | notify =>
    obtain ⟨-, rfl⟩ := notify_eq_some hstep
    exact fun p hp => Nat.le_succ_of_le (h p hp)
  | join =>
    obtain ⟨-, rfl⟩ := join_eq_some hstep
    exact h
  | master =>
    obtain ⟨-, hnotified, hpassed⟩ := masterStep_frame hstep
    rw [Begun, hnotified, hpassed]
    exact h
  | worker i e =>
    obtain ⟨-, hnotified, hpassed | ⟨hpc, m, hpassed⟩⟩ := workerStep_history hstep
    · rw [Begun, hnotified, hpassed]
      exact h
    · rw [Begun, hnotified, hpassed]
      intro p hp
      obtain hp | hp := List.mem_append.mp hp
      · exact h p hp
      · rw [List.mem_singleton.mp hp]
        exact hphase.counts.le_notified i

/-- The results stay correct in every step. -/
theorem Answered.step (h : Answered s) (hphase : Phase s)
    (hstep : (syncSystem n M).step s a = some t) : Answered t := by
  cases a with
  | notify =>
    obtain ⟨-, rfl⟩ := notify_eq_some hstep
    exact h
  | join =>
    obtain ⟨-, rfl⟩ := join_eq_some hstep
    exact h
  | master => exact h.masterStep hphase hstep
  | worker i e => exact h.workerStep hphase hstep

/-- The invariant holds in every reachable state. -/
theorem Invariant.of_reachable (hn : 1 ≤ n)
    (h : (syncSystem n M).Reachable LabelledSystem.always s) : Invariant s := by
  refine h.invariant ⟨Phase.init, ?_, ?_⟩ fun s a t _ hinv hstep _ => ?_
  · intro p hp
    cases hp
  · intro k hk
    cases hk
  · exact ⟨hinv.phase.step hn hinv.begun hstep, hinv.begun.step hinv.phase hstep,
      hinv.answered.step hinv.phase hstep⟩

/-! ## Nobody waits in vain -/

/-- A worker that spins or has quit. -/
def SyncState.Stuck (s : SyncState n M) (i : Fin n) : Prop :=
  s.Spinning i ∨ (s.worker i).pc = .quit

/-- While workers arrive, one of them can go on. -/
theorem Gather.not_stuck (h : Gather s) : ∃ i, ¬ s.Stuck i := by
  -- some worker has not arrived, and it sees `wait`
  obtain ⟨i, hi⟩ := exists_not_of_countOf_lt
    (h.nbready ▸ h.lt.trans_eq (Fintype.card_fin n).symm)
  refine ⟨i, ?_⟩
  obtain hw | hw | hw := h.worker i
  · simp [Stuck, Spinning, hw, h.status]
  · simp [Stuck, Spinning, hw]
  · simp [hw] at hi

/-- While workers report, one of them can go on. -/
theorem Work.not_stuck (h : Work s) : ∃ i, ¬ s.Stuck i := by
  -- some worker has not reported, and it does not wait for the others
  obtain ⟨i, hi⟩ := exists_not_of_countOf_lt
    (h.nbready ▸ h.lt.trans_eq (Fintype.card_fin n).symm)
  refine ⟨i, ?_⟩
  obtain hw | ⟨pc, hbusy, hw⟩ | hw := h.worker i
  · obtain hs | hs := h.status <;> simp [Stuck, Spinning, hw, hs]
  · have hpc : pc ≠ .waitStart ∧ pc ≠ .waitRun ∧ pc ≠ .quit := by
      cases pc <;> first | exact hbusy.elim | simp
    simp [Stuck, Spinning, hw, hpc]
  · simp [hw] at hi

/-- While the master waits, some worker can go on. -/
theorem Phase.not_stuck (h : Phase s) (hmaster : s.master = .waiting) (hraised : s.raised = false) :
    ∃ i, ¬ s.Stuck i := by
  cases h with
  | gather h => exact h.not_stuck
  | work h => exact h.not_stuck
  | opening w h => exact ⟨w, by obtain hw | ⟨hw, -⟩ := h.last <;> simp [Stuck, Spinning, hw]⟩
  | closing w h => exact ⟨w, by obtain hw | ⟨hw | hw, -⟩ := h.last <;> simp [Stuck, Spinning, hw]⟩
  | raising w h => exact ⟨w, by simp [Stuck, Spinning, h.last]⟩
  | rest h => obtain hm | hm := h.master <;> cases hm.symm.trans hmaster
  | ended h =>
    obtain ⟨-, hr⟩ | ⟨hm, -⟩ := h.master
    · cases hr.symm.trans hraised
    · cases hm.symm.trans hmaster
  | reporting h | leaving h => cases h.master.symm.trans hmaster

/-- The master finds no status that it does not expect. -/
theorem Phase.master_ne_unreachable (h : Phase s) : s.master ≠ .unreachable := by
  intro hmaster
  cases h with
  | rest h => obtain hm | hm := h.master <;> cases hm.symm.trans hmaster
  | ended h => obtain ⟨hm, -⟩ | ⟨hm, -⟩ := h.master <;> cases hm.symm.trans hmaster
  | gather h | opening w h | work h | closing w h | raising w h | reporting h | leaving h =>
    cases h.master.symm.trans hmaster

/-! ## Agreement -/

/-- The master and the workers agree on the rounds. Rounds are counted from `1`, so the result of
round `k + 1` is `s.results[k]`. -/
structure RoundAgreement (s : SyncState n M) : Prop where
  /-- `worker_wait` returns true for the `k`-th time only after the `k`-th `master_notify`. -/
  returned_le_notified : ∀ i, (s.worker i).returned ≤ s.notified
  /-- `worker_wait` returns true for the `k`-th time only after all workers arrived `k` times. -/
  returned_le_arrived : ∀ i j, (s.worker i).returned ≤ (s.worker j).arrived
  /-- `master_wait` returns for the `k`-th time only after all workers reported `k` times. -/
  results_le_reported : ∀ i, s.results.length ≤ (s.worker i).reported
  /-- `master_wait` returns an error message exactly if an error was passed in the round. -/
  error_iff : ∀ k (h : k < s.results.length),
    (∃ errmsg, s.results[k] = .error errmsg) ↔ ∃ m, (k + 1, m) ∈ s.passed
  /-- The message is one of those passed in the round. -/
  error_mem : ∀ k (h : k < s.results.length) errmsg, s.results[k] = .error errmsg →
    ∃ m, errmsg = some m ∧ (k + 1, m) ∈ s.passed
  /-- `master_wait` does not throw `Unreachable`. -/
  master_ne_unreachable : s.master ≠ .unreachable
  /-- While the master waits for the latch, not all workers spin. -/
  not_stuck : s.master = .waiting → s.raised = false → ∃ i, ¬ s.Stuck i

/-- A round fails exactly if a worker has passed an error in it. -/
theorem RoundResult.Correct.error_iff {passed : List (ℕ × M)} {r : RoundResult M}
    (h : r.Correct passed k) : (∃ errmsg, r = .error errmsg) ↔ ∃ m, (k, m) ∈ passed := by
  cases r with
  | runtime =>
    have hnone : ∀ m, (k, m) ∉ passed := h
    simpa using hnone
  | error errmsg =>
    obtain ⟨m, -, hm⟩ := h
    exact ⟨fun _ => ⟨m, hm⟩, fun _ => ⟨errmsg, rfl⟩⟩

/-- For any number of workers and any interleaving of the steps of the master and the workers, the
master and the workers agree on the rounds. -/
theorem roundAgreement (hn : 1 ≤ n) (h : (syncSystem n M).Reachable LabelledSystem.always s) :
    RoundAgreement s := by
  obtain ⟨hphase, -, hanswered⟩ := Invariant.of_reachable hn h
  refine ⟨hphase.counts.le_notified, hphase.counts.le_arrived, hphase.counts.results_le,
    fun k hk => (hanswered k hk).error_iff, fun k hk errmsg herror => ?_,
    hphase.master_ne_unreachable, hphase.not_stuck⟩
  have hcorrect := hanswered k hk
  rwa [herror] at hcorrect

/-- A round of two workers in which worker `1` arrives last, passes an error and reports last, and
the start of the join. -/
def failingRound : List (SyncLabel 2 ℕ) :=
  [.notify, .worker 0 none, .worker 1 none, .worker 0 none, .worker 1 none, .worker 1 none,
    .worker 1 none, .worker 0 none, .worker 1 (some 7), .worker 0 none, .worker 1 none,
    .worker 1 none, .worker 0 none, .worker 1 none, .worker 1 none, .worker 1 none, .worker 1 none,
    .worker 1 none, .master, .master, .master, .join]

theorem failingRound_isSome : ((syncSystem 2 ℕ).exec (fun _ _ _ => true) (syncSystem 2 ℕ).init
    failingRound).isSome := by decide

theorem roundAgreement_failingRound : RoundAgreement (((syncSystem 2 ℕ).exec (fun _ _ _ => true)
    (syncSystem 2 ℕ).init failingRound).get failingRound_isSome) :=
  roundAgreement (by decide)
    (LabelledSystem.reachable_of_exec (fun _ _ _ _ => trivial) failingRound_isSome)

end TransactionalMemory.Grading
