import TransactionalMemory.Grading.Measure
import TransactionalMemory.Grading.RoundAgreement

/-!
# The rounds of a measurement

In any interleaving of the steps of the master and the workers, `measure` runs the tests in lockstep
(`measureAgrees`): a worker calls the workload only in the round of the test that is measured, and
`measure` returns an error exactly if a call has failed or thrown an exception, which no call before
the last round has.

`Measured` is the invariant. It relates what a thread of `measure` is doing to its control point in
`Sync` (`WorkerThread.Fits`), and what the master is doing to the results of the rounds
(`MeasurePc.Fits`).
-/

namespace TransactionalMemory.Grading

open SyncState

/-! ## The steps of a worker -/

section Sync

variable {n : ℕ} {M : Type} {s t : SyncState n M} {i : Fin n} {e : Option M} {x x' : Worker M}

/-- The steps of a worker other than loads of a status that keep it where it is. -/
inductive Worker.Goes (e : Option M) (x : Worker M) : Worker M → Prop
  | begins (hpc : x.pc = .waitStart) : Goes e x { x with pc := .arrive }
  | quits (hpc : x.pc = .waitStart) : Goes e x { x with pc := .quit }
  | arrives (pc : WorkerPc M) (hpc : x.pc = .arrive) (hpc' : pc = .resetArrived ∨ pc = .waitRun) :
      Goes e x { x with pc, arrived := x.arrived + 1 }
  | opens (hpc : x.pc = .resetArrived) : Goes e x { x with pc := .setRun }
  | enters (hpc : x.pc = .setRun ∨ x.pc = .waitRun) :
      Goes e x { x with pc := .running, returned := x.returned + 1 }
  | fails (m : M) (hpc : x.pc = .running) (he : e = some m) :
      Goes e x { x with pc := .storeError m }
  | succeeds (hpc : x.pc = .running) (he : e = none) : Goes e x { x with pc := .depart }
  | stores (m : M) (hpc : x.pc = .storeError m) : Goes e x { x with pc := .setAbort }
  | aborts (hpc : x.pc = .setAbort) : Goes e x { x with pc := .depart }
  | reports (pc : WorkerPc M) (hpc : x.pc = .depart)
      (hpc' : pc = .resetDeparted ∨ pc = .waitStart) :
      Goes e x { x with pc, reported := x.reported + 1 }
  | closes (hpc : x.pc = .resetDeparted) : Goes e x { x with pc := .loadStatus }
  | loads (loaded : Status) (hpc : x.pc = .loadStatus) : Goes e x { x with pc := .setFinal loaded }
  | settles (loaded : Status) (hpc : x.pc = .setFinal loaded) : Goes e x { x with pc := .raise }
  | raises (hpc : x.pc = .raise) : Goes e x { x with pc := .waitStart }

/-- A worker spins, or it goes on and leaves the master and the other workers alone. -/
theorem workerStep_cases (hstep : s.workerStep i e = some t) : s.Spinning i ∧ t = s ∨
    t.master = s.master ∧ ∃ x', (s.worker i).Goes e x' ∧
      t.worker = Function.update s.worker i x' := by
  cases hpc : (s.worker i).pc with
  | waitStart =>
    cases hs : s.status <;>
      simp only [SyncState.workerStep, hpc, hs, Option.some.injEq] at hstep <;> subst hstep
    case wait => exact .inr ⟨rfl, _, .begins hpc, rfl⟩
    case quit => exact .inr ⟨rfl, _, .quits hpc, rfl⟩
    all_goals exact .inl ⟨.inl (by simp [hpc, hs]), rfl⟩
  | waitRun =>
    cases hs : s.status <;>
      simp only [SyncState.workerStep, hpc, hs, Option.some.injEq] at hstep <;> subst hstep
    case run | abort => exact .inr ⟨rfl, _, .enters (.inr hpc), rfl⟩
    all_goals exact .inl ⟨.inr (by simp [hpc, hs]), rfl⟩
  | running =>
    cases e <;> simp only [SyncState.workerStep, hpc, Option.some.injEq] at hstep <;> subst hstep
    · exact .inr ⟨rfl, _, .succeeds hpc rfl, rfl⟩
    · exact .inr ⟨rfl, _, .fails _ hpc rfl, rfl⟩
  | quit => simp [SyncState.workerStep, hpc] at hstep
  | arrive =>
    simp only [SyncState.workerStep, hpc, Option.some.injEq] at hstep
    subst hstep
    exact .inr ⟨rfl, _, .arrives _ hpc (by split <;> simp), rfl⟩
  | depart =>
    simp only [SyncState.workerStep, hpc, Option.some.injEq] at hstep
    subst hstep
    exact .inr ⟨rfl, _, .reports _ hpc (by split <;> simp), rfl⟩
  | _ =>
    simp only [SyncState.workerStep, hpc, Option.some.injEq] at hstep
    subst hstep
    refine .inr ⟨rfl, _, ?_, rfl⟩
    first
      | exact .opens hpc
      | exact .enters (.inl hpc)
      | exact .stores _ hpc
      | exact .aborts hpc
      | exact .closes hpc
      | exact .loads _ hpc
      | exact .settles _ hpc
      | exact .raises hpc

/-- The error of a worker that has finished its call. -/
theorem passed_of_running {m : M} (hpc : (s.worker i).pc = .running)
    (hstep : s.workerStep i (some m) = some t) :
    t.passed = s.passed ++ [((s.worker i).returned, m)] := by
  simp only [SyncState.workerStep, hpc, Option.some.injEq] at hstep
  subst hstep
  rfl

/-- What `master_wait` does, step by step. -/
theorem masterStep_cases (hstep : s.masterStep = some t) :
    s.master = .waiting ∧ t.master = .loadStatus ∧ t.results = s.results ∨
    s.master = .loadStatus ∧ t.master = .ready ∧ t.results = s.results ++ [.runtime] ∨
    s.master = .loadStatus ∧ t.master = .loadError ∧ t.results = s.results ∨
    s.master = .loadStatus ∧ t.master = .unreachable ∨
    s.master = .loadError ∧ t.master = .failed ∧
      t.results = s.results ++ [.error s.errmsg] := by
  cases hm : s.master with
  | waiting =>
    cases hr : s.raised <;> simp [SyncState.masterStep, hm, hr] at hstep
    simp [← hstep]
  | loadStatus =>
    cases hs : s.status <;> simp [SyncState.masterStep, hm, hs] at hstep <;> simp [← hstep]
  | loadError =>
    simp [SyncState.masterStep, hm] at hstep
    simp [← hstep]
  | _ => simp [SyncState.masterStep, hm] at hstep

/-- In or before `worker_wait`, or gone. -/
def WorkerPc.Idle : WorkerPc M → Prop
  | .waitStart | .arrive | .resetArrived | .setRun | .waitRun | .quit => True
  | _ => False

/-- A worker that is not idle is at work or has reported. -/
theorem Phase.worker_cases (h : Phase s) (i : Fin n) : (s.worker i).pc.Idle ∨
    Work s ∧ (∃ pc, pc.Busy ∧ s.worker i = .inside s.results.length pc) ∨
    ∃ pc, ¬ pc.Busy ∧ s.worker i = .between (s.results.length + 1) pc := by
  cases h with
  | work h =>
    obtain hw | ⟨pc, hbusy, hw⟩ | hw := h.worker i
    · exact .inl (by rw [hw]; trivial)
    · exact .inr (.inl ⟨h, pc, hbusy, hw⟩)
    · exact .inr (.inr ⟨_, id, hw⟩)
  | gather h => obtain hw | hw | hw := h.worker i <;> exact .inl (by rw [hw]; trivial)
  | opening w h =>
    by_cases hi : i = w
    · subst hi
      obtain hw | ⟨hw, -⟩ := h.last <;> exact .inl (by rw [hw]; trivial)
    · exact .inl (by rw [h.others i hi]; trivial)
  | closing w h =>
    by_cases hi : i = w
    · subst hi
      obtain hw | ⟨hw | hw, -⟩ := h.last <;> exact .inr (.inr ⟨_, id, hw⟩)
    · exact .inl (by rw [h.others i hi]; trivial)
  | raising w h =>
    by_cases hi : i = w
    · subst hi
      exact .inr (.inr ⟨_, id, h.last⟩)
    · exact .inl (by rw [h.others i hi]; trivial)
  | rest h | ended h | reporting h => exact .inl (by rw [h.worker i]; trivial)
  | leaving h => obtain hw | hw := h.worker i <;> exact .inl (by rw [hw]; trivial)

/-- A worker between the two calls of `Sync` is in a round that is at work. -/
theorem Phase.work_of_busy (h : Phase s) (hpc : (s.worker i).pc.Busy) :
    Work s ∧ (s.worker i).reported = s.results.length := by
  obtain hidle | ⟨hwork, pc, -, hw⟩ | ⟨pc, hbusy, hw⟩ := h.worker_cases i
  · cases hx : (s.worker i).pc <;> simp [WorkerPc.Idle, WorkerPc.Busy, hx] at hidle hpc
  · exact ⟨hwork, by rw [hw]; rfl⟩
  · rw [hw] at hpc
    exact absurd hpc hbusy

/-- The last worker to report has done so when it raises the latch. -/
theorem Phase.reported_of_raise (h : Phase s) (hpc : (s.worker i).pc = .raise) :
    (s.worker i).reported = s.results.length + 1 := by
  obtain hidle | ⟨-, pc, hbusy, hw⟩ | ⟨pc, -, hw⟩ := h.worker_cases i
  · simp [WorkerPc.Idle, hpc] at hidle
  · rw [hw] at hpc
    obtain rfl : pc = .raise := hpc
    exact hbusy.elim
  · rw [hw]
    rfl

end Sync

/-! ## The tests, round by round -/

/-- The test of round `k + 1`. -/
def Test.ofRound (nbrepeats : ℕ) : ℕ → Test
  | 0 => .init
  | k + 1 => if k < nbrepeats then .run k else if k = nbrepeats then .check else .quit

/-- The test after that of a round is that of the next round. -/
theorem Test.next_ofRound (nbrepeats k : ℕ) :
    (ofRound nbrepeats k).next nbrepeats = ofRound nbrepeats (k + 1) := by
  cases k with
  | zero =>
    obtain rfl | hpos := Nat.eq_zero_or_pos nbrepeats
    · rfl
    · simp [ofRound, next, hpos]
  | succ k =>
    obtain hlt | rfl | hgt := lt_trichotomy k nbrepeats
    · by_cases hlast : k + 1 = nbrepeats
      · simp [ofRound, next, hlt, hlast]
      · have hlt' : k + 1 < nbrepeats := by omega
        simp [ofRound, next, hlt, hlt']
    · simp [ofRound, next]
    · have h₁ : ¬ k < nbrepeats := by omega
      have h₂ : k ≠ nbrepeats := by omega
      have h₃ : ¬ k + 1 < nbrepeats := by omega
      have h₄ : k + 1 ≠ nbrepeats := by omega
      simp [ofRound, next, h₁, h₂, h₃, h₄]

/-- The check is the test of the last round. -/
theorem Test.ofRound_eq_check_iff {nbrepeats k : ℕ} :
    ofRound nbrepeats k = .check ↔ k = nbrepeats + 1 := by
  cases k with
  | zero => simp [ofRound]
  | succ k =>
    simp only [ofRound]
    split
    · simp
      omega
    · split <;> simp [*]

/-- Up to the last round there is a test. -/
theorem Test.ofRound_ne_quit {nbrepeats k : ℕ} (h : k ≤ nbrepeats + 1) :
    ofRound nbrepeats k ≠ .quit := by
  cases k with
  | zero => simp [ofRound]
  | succ k =>
    simp only [ofRound]
    split
    · simp
    · have hk : k = nbrepeats := by omega
      simp [hk]

/-! ## What the threads and the master have in common -/

/-- Inside `worker_notify`. -/
def WorkerPc.Notifying {M : Type} : WorkerPc M → Prop
  | .storeError _ | .setAbort | .depart | .resetDeparted | .loadStatus | .setFinal _ | .raise =>
    True
  | _ => False

/-- The number of calls of `worker_notify` that have returned. -/
def Worker.calls {M : Type} (x : Worker M) : ℕ :=
  match x.pc with
  | .resetDeparted | .loadStatus | .setFinal _ | .raise => x.reported - 1
  | _ => x.reported

/-- What a thread is doing goes together with its control point in `Sync`. A thread that has caught
an exception, or has ended because of one, has passed an error in its last round. -/
def WorkerThread.Fits (nbrepeats : ℕ) (passed : List (ℕ × String)) (x : Worker String) :
    WorkerThread → Prop
  | .inside test => x.pc ≠ .quit ∧ test = .ofRound nbrepeats x.calls
  | .caught => x.pc.Notifying ∧ ∃ m, (x.returned, m) ∈ passed
  | .ended => x.pc = .quit ∨ x.pc = .waitStart ∧ ∃ m, (x.returned, m) ∈ passed

/-- What the rounds have led to: all have succeeded, or all but the last. -/
def Concluded (nbrepeats : ℕ) (results : List (RoundResult String)) (error : Option String) :
    Prop :=
  error = none ∧ results.length = nbrepeats + 2 ∧ (∀ r ∈ results, r = .runtime) ∨
    ∃ rs, results = rs ++ [.error error] ∧ ∀ r ∈ rs, r = .runtime

/-- What the master is doing goes together with the results of the rounds. -/
def MeasurePc.Fits (nbrepeats : ℕ) (master : MasterPc) (results : List (RoundResult String)) :
    MeasurePc → Prop
  | .round test => results.length ≤ nbrepeats + 1 ∧ test = .ofRound nbrepeats results.length ∧
      (∀ r ∈ results, r = .runtime) ∧ master ≠ .failed ∧ master ≠ .joined
  | .join error => (master = .ready ∨ master = .failed) ∧ Concluded nbrepeats results error
  | .joining error _ | .returned error => master = .joined ∧ Concluded nbrepeats results error
  | .threw test => master = .waiting ∧ results.length ≤ nbrepeats + 1 ∧
      test = .ofRound nbrepeats results.length

/-- How many threads have been joined. -/
def MeasurePc.joins (n : ℕ) : MeasurePc → ℕ
  | .joining _ i => i
  | .returned _ => n
  | _ => 0

section Measure

variable {n : ℕ} {args : MeasureArgs} {s t : MeasureState n} {i : Fin n} {lab : MeasureLabel n}

/-- What holds of every reachable state of a measurement. -/
structure Measured (args : MeasureArgs) (s : MeasureState n) : Prop where
  sync : Invariant s.sync
  positive : ∀ p ∈ s.sync.passed, 1 ≤ p.1
  master : s.master.Fits args.nbrepeats s.sync.master s.sync.results
  thread : ∀ i, (s.thread i).Fits args.nbrepeats s.sync.passed (s.sync.worker i)
  joined : ∀ i : Fin n, i.val < s.master.joins n → s.thread i = .ended
  threw : ∀ test, s.master = .threw test → (args.maxtick test).isSome

/-- The rounds go on only while no error has been passed in an earlier one. -/
theorem Answered.not_passed {M : Type} {s : SyncState n M} {k : ℕ} (h : Answered s)
    (hk : k < s.results.length) (hr : s.results[k] = .runtime) (m : M) :
    (k + 1, m) ∉ s.passed := by
  have hcorrect := h k hk
  rw [hr] at hcorrect
  exact hcorrect m

/-! ## The steps of a measurement -/

/-- The steps of the master. -/
inductive MeasureState.MasterGoes (args : MeasureArgs) (s : MeasureState n) :
    MeasureState n → Prop
  | notifies (test : Test) (sync : SyncState n String) (hm : s.master = .round test)
      (hsync : s.sync.notify = some sync) : MasterGoes args s { s with sync }
  | waits (test : Test) (sync : SyncState n String) (hm : s.master = .round test)
      (hsync : s.sync.masterStep = some sync) : MasterGoes args s
      { s with sync, master := .goOn args.nbrepeats test s.sync.errmsg sync.master }
  | joins (error : Option String) (sync : SyncState n String) (hm : s.master = .join error)
      (hsync : s.sync.join = some sync) :
      MasterGoes args s { s with sync, master := .joining error 0 }
  | joined (error : Option String) (i : Fin n) (hm : s.master = .joining error i)
      (hended : s.thread i = .ended) :
      MasterGoes args s { s with master := .joining error (i + 1) }
  | returns (error : Option String) (i : ℕ) (hm : s.master = .joining error i) (hi : n ≤ i) :
      MasterGoes args s { s with master := .returned error }

/-- What a step of the master is. -/
theorem MeasureState.masterGoes_of_step (hstep : s.masterStep args = some t) :
    s.MasterGoes args t := by
  cases hm : s.master with
  | round test =>
    simp only [MeasureState.masterStep, hm] at hstep
    split at hstep
    · obtain ⟨sync, hsync, rfl⟩ := Option.map_eq_some_iff.mp hstep
      rw [← hm]
      exact .notifies test sync hm hsync
    · obtain ⟨sync, hsync, rfl⟩ := Option.map_eq_some_iff.mp hstep
      exact .waits test sync hm hsync
  | join error =>
    simp only [MeasureState.masterStep, hm] at hstep
    obtain ⟨sync, hsync, rfl⟩ := Option.map_eq_some_iff.mp hstep
    exact .joins error sync hm hsync
  | joining error i =>
    simp only [MeasureState.masterStep, hm] at hstep
    split at hstep
    next hi =>
      split at hstep
      next hended =>
        obtain rfl := Option.some.inj hstep
        exact .joined error ⟨i, hi⟩ hm hended
      next => cases hstep
    next hi =>
      obtain rfl := Option.some.inj hstep
      exact .returns error i hm (not_lt.mp hi)
  | returned error | threw test => simp [MeasureState.masterStep, hm] at hstep

/-- The master of a measurement runs out of time. -/
theorem MeasureState.timeout_eq_some (hstep : s.timeout args = some t) :
    ∃ test, s.master = .round test ∧ (args.maxtick test).isSome ∧ s.sync.master = .waiting ∧
      t = { s with master := .threw test } := by
  cases hm : s.master with
  | round test =>
    simp only [MeasureState.timeout, hm] at hstep
    split at hstep
    next hc => exact ⟨test, rfl, hc.2.2, hc.1, (Option.some.inj hstep).symm⟩
    next => cases hstep
  | _ => simp [MeasureState.timeout, hm] at hstep

/-- A step of a worker is one of `Sync`, with the error that the call of the workload has led to. -/
theorem MeasureState.workerStep_eq_some {outcome : CallOutcome}
    (hstep : s.workerStep args i outcome = some t) :
    s.thread i ≠ .ended ∧ t.master = s.master ∧ ∃ error thread,
      (error, thread) = (if (s.sync.worker i).pc = .running then (s.thread i).call outcome
        else (none, s.thread i)) ∧
      s.sync.workerStep i error = some t.sync ∧
      t.thread = Function.update s.thread i
        (thread.goOn args.nbrepeats (s.sync.worker i).pc (t.sync.worker i).pc) := by
  simp only [MeasureState.workerStep] at hstep
  split at hstep
  next => cases hstep
  next hended =>
    obtain ⟨sync, hsync, rfl⟩ := Option.map_eq_some_iff.mp hstep
    exact ⟨hended, rfl, _, _, rfl, hsync, rfl⟩

/-- A step of a measurement is one of `Sync`, or leaves it alone. -/
theorem sync_of_step (hstep : (measureSystem args n).step s lab = some t) :
    t.sync = s.sync ∨ ∃ a, (syncSystem n String).step s.sync a = some t.sync := by
  cases lab with
  | master =>
    cases MeasureState.masterGoes_of_step hstep with
    | notifies test sync hm hsync => exact .inr ⟨.notify, hsync⟩
    | waits test sync hm hsync => exact .inr ⟨.master, hsync⟩
    | joins error sync hm hsync => exact .inr ⟨.join, hsync⟩
    | joined | returns => exact .inl rfl
  | timeout =>
    obtain ⟨test, -, -, -, rfl⟩ := MeasureState.timeout_eq_some hstep
    exact .inl rfl
  | worker i outcome =>
    obtain ⟨-, -, error, thread, -, hsync, -⟩ := MeasureState.workerStep_eq_some hstep
    exact .inr ⟨.worker i error, hsync⟩

/-- The synchronization object goes through states of `Sync`. -/
theorem sync_reachable (h : (measureSystem args n).Reachable LabelledSystem.always s) :
    (syncSystem n String).Reachable LabelledSystem.always s.sync := by
  refine h.invariant (I := fun s => (syncSystem n String).Reachable LabelledSystem.always s.sync)
    .init fun s lab t _ ih hstep _ => ?_
  obtain hsame | ⟨a, hsync⟩ := sync_of_step hstep
  · rwa [hsame]
  · exact ih.step hsync trivial

/-! ## A step keeps threads and master together -/

section Thread

variable {nbrepeats : ℕ} {passed passed' : List (ℕ × String)} {x x' : Worker String}
  {thread thread' : WorkerThread} {error : Option String}

/-- A thread fits when more errors have been passed. -/
theorem WorkerThread.Fits.mono (h : thread.Fits nbrepeats passed x) (hsub : passed ⊆ passed') :
    thread.Fits nbrepeats passed' x := by
  cases thread with
  | inside test => exact h
  | caught => exact h.imp_right fun ⟨m, hm⟩ => ⟨m, hsub hm⟩
  | ended => exact h.imp_right fun hpc => hpc.imp_right fun ⟨m, hm⟩ => ⟨m, hsub hm⟩

/-- A step outside of the call of the workload. -/
theorem WorkerThread.Fits.goes (h : thread.Fits nbrepeats passed x) (hgoes : x.Goes error x')
    (hpc : x.pc ≠ .running) (hended : thread ≠ .ended)
    (hreported : x.pc = .raise → 1 ≤ x.reported) :
    (thread.goOn nbrepeats x.pc x'.pc).Fits nbrepeats passed x' := by
  cases thread with
  | ended => exact absurd rfl hended
  | inside test =>
    obtain ⟨-, rfl⟩ := h
    cases hgoes with
    | quits hx => exact .inl rfl
    | fails m hx | succeeds hx => exact absurd hx hpc
    | reports pc hx hpc' =>
      obtain rfl | rfl := hpc'
      · exact ⟨by simp, by simp [Worker.calls, hx]⟩
      · simp only [goOn, hx, notified, Test.next_ofRound]
        exact ⟨by simp, by simp [Worker.calls, hx]⟩
    | raises hx =>
      have hpos := hreported hx
      simp only [goOn, hx, notified, Test.next_ofRound]
      refine ⟨by simp, ?_⟩
      simp only [Worker.calls, hx]
      congr 1
      omega
    | enters hx =>
      refine ⟨by simp, ?_⟩
      obtain hx | hx := hx <;> simp [Worker.calls, hx]
    | arrives pc hx hpc' =>
      obtain rfl | rfl := hpc' <;> exact ⟨by simp, by simp [Worker.calls, hx]⟩
    | begins hx | opens hx | stores m hx | aborts hx | closes hx | loads l hx | settles l hx =>
      exact ⟨by simp, by simp [Worker.calls, hx]⟩
  | caught =>
    obtain ⟨hnotifying, hpassed⟩ := h
    cases hgoes with
    | begins hx | quits hx | opens hx => simp [WorkerPc.Notifying, hx] at hnotifying
    | arrives pc hx => simp [WorkerPc.Notifying, hx] at hnotifying
    | enters hx => obtain hx | hx := hx <;> simp [WorkerPc.Notifying, hx] at hnotifying
    | fails m hx | succeeds hx => exact absurd hx hpc
    | reports pc hx hpc' =>
      obtain rfl | rfl := hpc'
      · exact ⟨trivial, hpassed⟩
      · simp only [goOn, hx, notified]
        exact .inr ⟨rfl, hpassed⟩
    | raises hx =>
      simp only [goOn, hx, notified]
      exact .inr ⟨rfl, hpassed⟩
    | stores m hx | aborts hx | closes hx | loads l hx | settles l hx => exact ⟨trivial, hpassed⟩

/-- The call of the workload returns, or an exception is caught. -/
theorem WorkerThread.call_inside {test : Test} {outcome : CallOutcome}
    (hcall : (error, thread') = (inside test).call outcome) :
    thread' = .inside test ∨ ∃ m, error = some m ∧ thread' = .caught := by
  cases outcome with
  | exception =>
    cases test <;> exact .inr ⟨_, congrArg Prod.fst hcall, congrArg Prod.snd hcall⟩
  | returned error =>
    cases test with
    | quit => exact .inr ⟨_, congrArg Prod.fst hcall, congrArg Prod.snd hcall⟩
    | init | run count | check => exact .inl (congrArg Prod.snd hcall)

/-- The call of the workload. -/
theorem WorkerThread.Fits.called {outcome : CallOutcome} (h : thread.Fits nbrepeats passed x)
    (hpc : x.pc = .running) (hcall : (error, thread') = thread.call outcome)
    (hgoes : x.Goes error x')
    (hpassed : ∀ m, error = some m → (x.returned, m) ∈ passed') :
    (thread'.goOn nbrepeats x.pc x'.pc).Fits nbrepeats passed' x' := by
  cases thread with
  | caught => simp [Fits, WorkerPc.Notifying, hpc] at h
  | ended => simp [Fits, hpc] at h
  | inside test =>
    obtain ⟨-, htest⟩ := h
    have hcalls : x'.calls = x.calls ∧ x'.pc ≠ .quit ∧ x'.pc.Notifying ∧
        thread'.goOn nbrepeats x.pc x'.pc = thread' ∧ x'.returned = x.returned := by
      cases hgoes with
      | fails m hx | succeeds hx => simp [Worker.calls, hx, WorkerPc.Notifying, goOn]
      | enters hx => simp [hpc] at hx
      | begins hx | quits hx | arrives pc hx | opens hx | stores m hx | aborts hx | reports pc hx
      | closes hx | loads l hx | settles l hx | raises hx => simp [hpc] at hx
    obtain ⟨hcalls, hquit, hnotifying, hgoOn, hreturned⟩ := hcalls
    rw [hgoOn]
    obtain rfl | ⟨m, hm, rfl⟩ := call_inside hcall
    · exact ⟨hquit, by rw [htest, hcalls]⟩
    · exact ⟨hnotifying, m, by rw [hreturned]; exact hpassed m hm⟩

end Thread

namespace Measured

/-- The invariant is kept by the workers. -/
theorem workerStep {outcome : CallOutcome} (h : Measured args s) (hsync : Invariant t.sync)
    (hstep : s.workerStep args i outcome = some t) : Measured args t := by
  obtain ⟨hended, hmaster, error, thread, hcall, hsyncstep, hthread⟩ :=
    MeasureState.workerStep_eq_some hstep
  obtain ⟨hresults, -, hpassed⟩ := workerStep_history hsyncstep
  have hsub : s.sync.passed ⊆ t.sync.passed := by
    obtain hpassed | ⟨-, m, hpassed⟩ := hpassed <;> rw [hpassed]
    · exact List.Subset.refl _
    · exact List.subset_append_left _ _
  have hsyncmaster : t.sync.master = s.sync.master := by
    obtain ⟨-, hsame⟩ | ⟨hsame, -⟩ := workerStep_cases hsyncstep
    · rw [hsame]
    · exact hsame
  refine ⟨hsync, ?_, ?_, ?_, ?_, ?_⟩
  · -- an error that is passed now belongs to a round that has begun
    obtain hpassed | ⟨hpc, m, hpassed⟩ := hpassed <;> rw [hpassed]
    · exact h.positive
    · intro p hp
      obtain hp | hp := List.mem_append.mp hp
      · exact h.positive p hp
      · rw [List.mem_singleton.mp hp, h.sync.phase.returned_of_running hpc]
        exact Nat.le_add_left 1 _
  · rw [hmaster, hsyncmaster, hresults]
    exact h.master
  · intro j
    by_cases hj : j = i
    · subst hj
      rw [hthread, Function.update_self]
      by_cases hpc : (s.sync.worker j).pc = .running
      · -- the call of the workload
        rw [if_pos hpc] at hcall
        obtain ⟨hspin, -⟩ | ⟨-, x', hgoes, hworker⟩ := workerStep_cases hsyncstep
        · simp [Spinning, hpc] at hspin
        · rw [hworker, Function.update_self]
          refine (h.thread j).called hpc hcall hgoes fun m hm => ?_
          subst hm
          simp [passed_of_running hpc hsyncstep]
      · rw [if_neg hpc, Prod.mk.injEq] at hcall
        obtain ⟨rfl, rfl⟩ := hcall
        obtain ⟨hspin, hsame⟩ | ⟨-, x', hgoes, hworker⟩ := workerStep_cases hsyncstep
        · rw [hsame]
          obtain ⟨hpc, -⟩ | ⟨hpc, -⟩ := hspin <;> simpa [WorkerThread.goOn, hpc] using h.thread j
        · rw [hworker, Function.update_self]
          refine ((h.thread j).goes hgoes hpc hended fun hraise => ?_).mono hsub
          rw [h.sync.phase.reported_of_raise hraise]
          exact Nat.le_add_left 1 _
    · have hworker : t.sync.worker j = s.sync.worker j := by
        obtain ⟨-, hsame⟩ | ⟨-, x', -, hworker⟩ := workerStep_cases hsyncstep
        · rw [hsame]
        · rw [hworker, Function.update_of_ne hj]
      rw [hthread, Function.update_of_ne hj, hworker]
      exact (h.thread j).mono hsub
  · intro j hlt
    rw [hmaster] at hlt
    have hj := h.joined j hlt
    have hne : j ≠ i := by
      rintro rfl
      exact hended hj
    rw [hthread, Function.update_of_ne hne, hj]
  · rw [hmaster]
    exact h.threw

/-- A step of `master_wait` in the round of a test. -/
theorem fits_goOn {test : Test} {sync : SyncState n String} (h : Measured args s)
    (hsync : Invariant sync) (hm : s.master = .round test) (hwait : s.sync.masterStep = some sync) :
    (MeasurePc.goOn args.nbrepeats test s.sync.errmsg sync.master).Fits args.nbrepeats sync.master
      sync.results := by
  have hfits := h.master
  rw [hm] at hfits
  obtain ⟨hle, rfl, hruntime, -, -⟩ := hfits
  obtain ⟨-, hm', hresults⟩ | ⟨-, hm', hresults⟩ | ⟨-, hm', hresults⟩ | ⟨-, hm'⟩ |
      ⟨-, hm', hresults⟩ := masterStep_cases hwait
  · rw [hm', hresults]
    exact ⟨hle, rfl, hruntime, by simp, by simp⟩
  · -- one more test has succeeded
    have hall : ∀ r ∈ s.sync.results ++ [.runtime], r = .runtime := by
      simpa [or_imp, forall_and] using hruntime
    rw [hm', hresults]
    simp only [MeasurePc.goOn]
    split
    next hcheck =>
      rw [Test.ofRound_eq_check_iff] at hcheck
      exact ⟨.inl rfl, .inl ⟨rfl, by simp [hcheck], hall⟩⟩
    next hcheck =>
      rw [Test.ofRound_eq_check_iff] at hcheck
      rw [Test.next_ofRound]
      exact ⟨by simp; omega, by simp, hall, by simp, by simp⟩
  · rw [hm', hresults]
    exact ⟨hle, rfl, hruntime, by simp, by simp⟩
  · exact absurd hm' hsync.phase.master_ne_unreachable
  · rw [hm', hresults]
    exact ⟨.inr rfl, .inr ⟨s.sync.results, rfl, hruntime⟩⟩

/-- The invariant is kept by the master. -/
theorem masterStep (h : Measured args s) (hsync : Invariant t.sync)
    (hstep : s.masterStep args = some t) : Measured args t := by
  have hfits := h.master
  cases MeasureState.masterGoes_of_step hstep with
  | notifies test sync hm hnotify =>
    obtain ⟨-, rfl⟩ := notify_eq_some hnotify
    refine ⟨hsync, h.positive, ?_, h.thread, h.joined, h.threw⟩
    rw [hm] at hfits ⊢
    obtain ⟨hle, htest, hruntime, -⟩ := hfits
    exact ⟨hle, htest, hruntime, by simp, by simp⟩
  | waits test sync hm hwait =>
    obtain ⟨hworker, -, hpassed⟩ := masterStep_frame hwait
    have hgoOn := h.fits_goOn hsync hm hwait
    refine ⟨hsync, ?_, hgoOn, fun i => ?_, fun i hi => ?_, fun test' hthrew => ?_⟩
    · rw [hpassed]
      exact h.positive
    · rw [hworker, hpassed]
      exact h.thread i
    · simp only [MeasurePc.goOn] at hi
      split at hi
      case h_1 => split at hi <;> simp [MeasurePc.joins] at hi
      all_goals simp [MeasurePc.joins] at hi
    · -- only a status that `master_wait` does not expect makes it throw
      simp only [MeasurePc.goOn] at hthrew
      split at hthrew
      case h_1 => split at hthrew <;> cases hthrew
      case h_3 hm' => exact absurd hm' hsync.phase.master_ne_unreachable
      all_goals cases hthrew
  | joins error sync hm hjoin =>
    obtain ⟨-, rfl⟩ := join_eq_some hjoin
    rw [hm] at hfits
    exact ⟨hsync, h.positive, ⟨rfl, hfits.2⟩, h.thread, fun i hi => absurd hi (Nat.not_lt_zero _),
      fun test hthrew => by cases hthrew⟩
  | joined error i hm hended =>
    rw [hm] at hfits
    refine ⟨hsync, h.positive, hfits, h.thread, fun j hj => ?_,
      fun test hthrew => by cases hthrew⟩
    obtain hlt | heq := Nat.lt_or_eq_of_le (Nat.le_of_lt_succ hj)
    · exact h.joined j (by rw [hm]; exact hlt)
    · obtain rfl : j = i := Fin.ext heq
      exact hended
  | returns error i hm hi =>
    rw [hm] at hfits
    exact ⟨hsync, h.positive, hfits, h.thread,
      fun j hj => h.joined j (by rw [hm]; exact j.isLt.trans_le hi),
      fun test hthrew => by cases hthrew⟩

/-- The invariant is kept when the time runs out. -/
theorem timeout (h : Measured args s) (hstep : s.timeout args = some t) : Measured args t := by
  obtain ⟨test, hm, hlimit, hwaiting, rfl⟩ := MeasureState.timeout_eq_some hstep
  have hfits := h.master
  rw [hm] at hfits
  refine ⟨h.sync, h.positive, ⟨hwaiting, hfits.1, hfits.2.1⟩, h.thread,
    fun i hi => absurd hi (Nat.not_lt_zero _), fun test' hthrew => ?_⟩
  obtain rfl : test = test' := MeasurePc.threw.inj hthrew
  exact hlimit

/-- The invariant holds in every reachable state. -/
theorem of_reachable (hn : 1 ≤ n)
    (h : (measureSystem args n).Reachable LabelledSystem.always s) : Measured args s := by
  refine h.invariant ⟨.of_reachable hn .init, ?_, ?_, fun i => ?_, ?_, ?_⟩
    fun s lab t hreach ih hstep _ => ?_
  · intro p hp
    cases hp
  · refine ⟨Nat.zero_le _, rfl, ?_, by simp [measureSystem, syncSystem],
      by simp [measureSystem, syncSystem]⟩
    intro r hr
    cases hr
  · exact ⟨by simp [measureSystem, syncSystem], rfl⟩
  · intro i hi
    exact absurd hi (Nat.not_lt_zero _)
  · intro test hthrew
    cases hthrew
  · have hsync : Invariant t.sync :=
      .of_reachable hn (sync_reachable (hreach.step hstep trivial))
    cases lab with
    | master => exact ih.masterStep hsync hstep
    | timeout => exact ih.timeout hstep
    | worker i outcome => exact ih.workerStep hsync hstep

end Measured

/-! ## Agreement -/

/-- The master and the workers agree on the tests, and the result is that of the tests. -/
structure MeasureAgrees (args : MeasureArgs) (s : MeasureState n) : Prop where
  /-- A worker calls the workload in the round of the test that the master measures, or that was
  measured when the time ran out. -/
  together : ∀ i, (s.sync.worker i).pc = .running → ∃ test, test ≠ .quit ∧
    s.thread i = .inside test ∧ (s.master = .round test ∨ s.master = .threw test)
  /-- `master_wait` never finds a status that it does not expect. -/
  reachable : s.sync.master ≠ .unreachable
  /-- Only the timeout of the test that is measured makes `measure` throw. -/
  threw : ∀ test, s.master = .threw test → (args.maxtick test).isSome
  /-- All threads have ended once `measure` returns. -/
  ended : ∀ error, s.master = .returned error → ∀ i, s.thread i = .ended
  /-- If `measure` returns no error, all tests have succeeded in all threads. -/
  success : s.master = .returned none → s.sync.passed = [] ∧
    ∀ i, (s.sync.worker i).reported = args.nbrepeats + 2
  /-- An error that `measure` returns was passed in the last round, as all errors were. -/
  failure : ∀ m, s.master = .returned (some m) → (s.sync.notified, m) ∈ s.sync.passed ∧
    ∀ p ∈ s.sync.passed, p.1 = s.sync.notified

/-- Once the master has joined, the workers have gone through the rounds it has the results of. -/
theorem Phase.leaving_of_joined {M : Type} {s : SyncState n M} (h : Phase s)
    (hm : s.master = .joined) : Leaving s := by
  cases h with
  | leaving h => exact h
  | rest h => obtain hm' | hm' := h.master <;> cases hm'.symm.trans hm
  | ended h => obtain ⟨hm', -⟩ | ⟨hm', -⟩ := h.master <;> cases hm'.symm.trans hm
  | gather h | opening w h | work h | closing w h | raising w h | reporting h =>
    cases h.master.symm.trans hm

/-- No error was passed in a round that succeeded. -/
theorem Measured.not_passed (h : Measured args s) {p : ℕ × String} (hp : p ∈ s.sync.passed)
    (hr : s.sync.results[p.1 - 1]? = some .runtime) : False := by
  obtain ⟨hlt, hr⟩ := List.getElem?_eq_some_iff.mp hr
  have hnot := h.sync.answered.not_passed hlt hr p.2
  rw [Nat.sub_add_cancel (h.positive p hp)] at hnot
  exact hnot hp

/-- The error that `master_wait` returned was passed in the round. -/
theorem Measured.passed_of_error {error : Option String} {rs : List (RoundResult String)}
    (h : Measured args s) (hresults : s.sync.results = rs ++ [.error error]) :
    ∃ m, error = some m ∧ (s.sync.results.length, m) ∈ s.sync.passed := by
  have hlength : s.sync.results.length = rs.length + 1 := by simp [hresults]
  have hlt : rs.length < s.sync.results.length := by omega
  have hcorrect := h.sync.answered rs.length hlt
  have hlast : s.sync.results[rs.length] = .error error := by simp [hresults]
  rw [hlast] at hcorrect
  rw [hlength]
  exact hcorrect

/-- In any interleaving of the steps of the master and the workers, whatever the calls of the
workload lead to, the master and the workers agree on the tests. -/
theorem measureAgrees (hn : 1 ≤ n)
    (h : (measureSystem args n).Reachable LabelledSystem.always s) : MeasureAgrees args s := by
  have hmeasured := Measured.of_reachable hn h
  have hfits := hmeasured.master
  refine ⟨fun i hpc => ?_, hmeasured.sync.phase.master_ne_unreachable, hmeasured.threw,
    fun error hm i => ?_, fun hm => ?_, fun m hm => ?_⟩
  · have hwork := hmeasured.sync.phase.work_of_busy (i := i) (by rw [hpc]; trivial)
    have hthread := hmeasured.thread i
    have htest : ∃ test, s.thread i = .inside test ∧
        test = .ofRound args.nbrepeats s.sync.results.length := by
      cases hi : s.thread i with
      | inside test =>
        rw [hi] at hthread
        obtain ⟨-, rfl⟩ := hthread
        exact ⟨_, rfl, by simp [Worker.calls, hpc, hwork.2]⟩
      | caught | ended =>
        rw [hi] at hthread
        simp [WorkerThread.Fits, WorkerPc.Notifying, hpc] at hthread
    obtain ⟨test, hi, rfl⟩ := htest
    -- in this round the master waits
    have hwaiting := hwork.1.master
    cases hm : s.master with
    | round test =>
      rw [hm] at hfits
      obtain ⟨hle, rfl, -⟩ := hfits
      exact ⟨_, Test.ofRound_ne_quit hle, hi, .inl rfl⟩
    | threw test =>
      rw [hm] at hfits
      obtain ⟨-, hle, rfl⟩ := hfits
      exact ⟨_, Test.ofRound_ne_quit hle, hi, .inr rfl⟩
    | join error | joining error k | returned error =>
      rw [hm] at hfits
      simp [MeasurePc.Fits, hwaiting] at hfits
  · exact hmeasured.joined i (by rw [hm]; exact i.isLt)
  · rw [hm] at hfits
    obtain ⟨hjoined, ⟨-, hlength, hruntime⟩ | ⟨rs, hresults, -⟩⟩ := hfits
    · have hleaving := hmeasured.sync.phase.leaving_of_joined hjoined
      refine ⟨List.eq_nil_iff_forall_not_mem.mpr fun p hp => ?_, fun i => ?_⟩
      · -- every round has succeeded
        have hlast := hmeasured.sync.begun p hp
        have hpos := hmeasured.positive p hp
        rw [hleaving.notified] at hlast
        have hlt : p.1 - 1 < s.sync.results.length := by omega
        refine hmeasured.not_passed hp ?_
        rw [List.getElem?_eq_getElem hlt, hruntime _ (List.getElem_mem hlt)]
      · obtain hi | hi := hleaving.worker i <;> simp [hi, hleaving.notified, hlength]
    · obtain ⟨m, hnone, -⟩ := hmeasured.passed_of_error hresults
      cases hnone
  · rw [hm] at hfits
    obtain ⟨hjoined, ⟨hnone, -⟩ | ⟨rs, hresults, hruntime⟩⟩ := hfits
    · cases hnone
    have hleaving := hmeasured.sync.phase.leaving_of_joined hjoined
    obtain ⟨m', hm', hpassed⟩ := hmeasured.passed_of_error hresults
    obtain rfl := Option.some.inj hm'
    rw [hleaving.notified]
    refine ⟨hpassed, fun p hp => ?_⟩
    -- the rounds before the last have succeeded
    have hle := hmeasured.sync.begun p hp
    have hpos := hmeasured.positive p hp
    have hlength : s.sync.results.length = rs.length + 1 := by simp [hresults]
    rw [hleaving.notified] at hle
    by_contra hne
    have hlt : p.1 - 1 < rs.length := by omega
    refine hmeasured.not_passed hp ?_
    rw [hresults, List.getElem?_append_left hlt, List.getElem?_eq_getElem hlt,
      hruntime _ (List.getElem_mem hlt)]

/-- A measurement without timeouts. -/
def untimed : MeasureArgs :=
  { nbrepeats := 1, maxtickInit := none, maxtickPerf := none, maxtickChck := none }

/-- The first of two workers catches an exception and leaves, while the second is inside. -/
def thrownCall : List (MeasureLabel 2) :=
  let first := MeasureLabel.worker ⟨0, by decide⟩ .exception
  let second := MeasureLabel.worker ⟨1, by decide⟩ (.returned none)
  [.master, first, first, second, second, second, second, first, first, first, first, first]

/-- Then the second reports, and the master joins both. -/
def failedCall : List (MeasureLabel 2) :=
  let second := MeasureLabel.worker ⟨1, by decide⟩ (.returned none)
  thrownCall ++ [second, second, second, second, second, second, .master, .master, .master,
    .master, .master, second, .master, .master]

theorem failedCall_isSome : ((measureSystem untimed 2).exec (fun _ _ _ => true)
    (measureSystem untimed 2).init failedCall).isSome := by decide

theorem measureAgrees_failedCall : MeasureAgrees untimed (((measureSystem untimed 2).exec
    (fun _ _ _ => true) (measureSystem untimed 2).init failedCall).get failedCall_isSome) :=
  measureAgrees (by decide)
    (LabelledSystem.reachable_of_exec (fun _ _ _ _ => trivial) failedCall_isSome)

end Measure

end TransactionalMemory.Grading
