import Mathlib.Algebra.BigOperators.Fin
import Mathlib.Algebra.Order.BigOperators.Group.Finset
import TransactionalMemory.Grading.MeasureRounds

/-!
# The end of a measurement

Unless a call of the workload lasts forever, the master and the workers do not wait for each other
forever (`measureEnds`). A worker that has caught an exception leaves, but then the master joins
before another round begins, so nobody waits for that worker (`Measured.not_ended`).

`MeasureState.left` bounds the number of steps other than spins. A worker needs at most twelve for a
round, and a round that the master has not started yet needs six of the master.
-/

namespace TransactionalMemory.Grading

open SyncState

variable {n : ℕ} {args : MeasureArgs} {s t : MeasureState n} {i : Fin n}

/-! ## The steps that are left -/

/-- How many steps a worker is at most away from the end of its round. -/
def WorkerPc.toGo {M : Type} : WorkerPc M → ℕ
  | .resetDeparted => 12
  | .loadStatus => 11
  | .setFinal _ => 10
  | .raise => 9
  | .waitStart => 8
  | .arrive => 7
  | .resetArrived | .waitRun => 6
  | .setRun => 5
  | .running => 4
  | .storeError _ => 3
  | .setAbort => 2
  | .depart => 1
  | .quit => 0

/-- How many steps a worker is at most away from the end of `rounds` rounds. -/
def Worker.left {M : Type} (rounds : ℕ) (x : Worker M) : ℕ :=
  12 * (rounds - x.reported) + x.pc.toGo

/-- How many steps a thread is at most away from its end. -/
def WorkerThread.left (rounds : ℕ) (x : Worker String) (thread : WorkerThread) : ℕ :=
  if thread = .ended then 0 else x.left rounds

/-- How many steps the master is at most away from the start of the next round. -/
def MasterPc.toGo : MasterPc → ℕ
  | .ready => 5
  | .waiting => 4
  | .loadStatus => 3
  | .loadError => 2
  | _ => 0

/-- How many steps the master is at most away from the end of `measure`. -/
def MeasurePc.left (n rounds results : ℕ) (master : MasterPc) : MeasurePc → ℕ
  | .round _ => n + 3 + 6 * (rounds - results) + master.toGo
  | .join _ => n + 2
  | .joining _ i => n - i + 1
  | .returned _ | .threw _ => 0

/-- How many steps are left at most. -/
def MeasureState.left (args : MeasureArgs) (s : MeasureState n) : ℕ :=
  ∑ i, (s.thread i).left (args.nbrepeats + 2) (s.sync.worker i) +
    s.master.left n (args.nbrepeats + 2) s.sync.results.length s.sync.master

/-- Every step of a worker other than a spin brings its end closer. -/
theorem Worker.Goes.left_lt {M : Type} {x x' : Worker M} {e : Option M} {rounds : ℕ}
    (h : x.Goes e x') (hreported : x.pc = .depart → x.reported < rounds) :
    x'.left rounds < x.left rounds := by
  cases h with
  | reports pc hpc hpc' =>
    have hlt := hreported hpc
    obtain rfl | rfl := hpc' <;> simp only [Worker.left, hpc, WorkerPc.toGo] <;> omega
  | arrives pc hpc hpc' => obtain rfl | rfl := hpc' <;> simp [Worker.left, hpc, WorkerPc.toGo]
  | enters hpc => obtain hpc | hpc := hpc <;> simp [Worker.left, hpc, WorkerPc.toGo]
  | begins hpc | quits hpc | opens hpc | fails m hpc | succeeds hpc | stores m hpc | aborts hpc
  | closes hpc | loads l hpc | settles l hpc | raises hpc =>
    simp [Worker.left, hpc, WorkerPc.toGo]

/-- Rounds go on only until all tests have been measured. -/
theorem Measured.results_le (h : Measured args s) (hwaiting : s.sync.master = .waiting) :
    s.sync.results.length ≤ args.nbrepeats + 1 := by
  have hfits := h.master
  cases hm : s.master with
  | round test | threw test =>
    rw [hm] at hfits
    first | exact hfits.1 | exact hfits.2.1
  | join error | joining error k | returned error =>
    rw [hm] at hfits
    simp [MeasurePc.Fits, hwaiting] at hfits

/-- A step of a worker that changes anything brings the end closer. -/
theorem MeasureState.left_worker {outcome : CallOutcome} (h : Measured args s)
    (hstep : s.workerStep args i outcome = some t) :
    s.sync.Spinning i ∧ t = s ∨ t.left args < s.left args := by
  obtain ⟨hended, hmaster, error, thread, hcall, hsyncstep, hthread⟩ :=
    MeasureState.workerStep_eq_some hstep
  obtain ⟨hresults, -⟩ := workerStep_history hsyncstep
  obtain ⟨hspin, hsame⟩ | ⟨hsyncmaster, x', hgoes, hworker⟩ := workerStep_cases hsyncstep
  · refine .inl ⟨hspin, ?_⟩
    have hpc : (s.sync.worker i).pc = .waitStart ∨ (s.sync.worker i).pc = .waitRun :=
      hspin.imp And.left And.left
    have hnot : (s.sync.worker i).pc ≠ .running := by obtain hpc | hpc := hpc <;> simp [hpc]
    rw [if_neg hnot, Prod.mk.injEq] at hcall
    have hgoOn : thread.goOn args.nbrepeats (s.sync.worker i).pc (t.sync.worker i).pc =
        s.thread i := by
      rw [hsame, hcall.2]
      obtain hpc | hpc := hpc <;> simp [WorkerThread.goOn, hpc]
    obtain ⟨sync, thread', master⟩ := t
    rw [hgoOn, Function.update_eq_self] at hthread
    obtain rfl : sync = s.sync := hsame
    obtain rfl : thread' = s.thread := hthread
    obtain rfl : master = s.master := hmaster
    rfl
  · refine .inr ?_
    have hlt : x'.left (args.nbrepeats + 2) < (s.sync.worker i).left (args.nbrepeats + 2) := by
      refine hgoes.left_lt fun hpc => ?_
      obtain ⟨hwork, hreported⟩ := h.sync.phase.work_of_busy (i := i) (by rw [hpc]; trivial)
      have hle := h.results_le hwork.master
      omega
    -- the other threads and the master are where they were
    rw [MeasureState.left, MeasureState.left, hmaster, hsyncmaster, hresults]
    refine Nat.add_lt_add_right ?_ _
    refine Finset.sum_lt_sum (fun j _ => ?_) ⟨i, Finset.mem_univ i, ?_⟩
    · by_cases hj : j = i
      · subst hj
        rw [hworker, Function.update_self, WorkerThread.left, WorkerThread.left, if_neg hended]
        split
        · exact Nat.zero_le _
        · exact hlt.le
      · rw [hthread, hworker, Function.update_of_ne hj, Function.update_of_ne hj]
    · rw [hworker, Function.update_self, WorkerThread.left, WorkerThread.left, if_neg hended]
      split
      · exact Nat.zero_lt_of_lt hlt
      · exact hlt

/-- A step of the master brings the end closer. -/
theorem MeasureState.left_master (h : Measured args s) (hstep : s.masterStep args = some t) :
    t.left args < s.left args := by
  have hfits := h.master
  cases MeasureState.masterGoes_of_step hstep with
  | notifies test sync hm hnotify =>
    obtain ⟨hready, rfl⟩ := notify_eq_some hnotify
    simp [MeasureState.left, hm, MeasurePc.left, MasterPc.toGo, hready]
  | waits test sync hm hwait =>
    obtain ⟨hworker, -⟩ := masterStep_frame hwait
    rw [hm] at hfits
    have hle := hfits.1
    simp only [MeasureState.left, hworker, hm]
    refine Nat.add_lt_add_left ?_ _
    obtain ⟨hm₁, hm₂, hresults⟩ | ⟨hm₁, hm₂, hresults⟩ | ⟨hm₁, hm₂, hresults⟩ | ⟨hm₁, hm₂⟩ |
        ⟨hm₁, hm₂, hresults⟩ := masterStep_cases hwait
    · simp [MeasurePc.goOn, MeasurePc.left, MasterPc.toGo, hm₁, hm₂, hresults]
    · simp only [MeasurePc.goOn, hm₁, hm₂, hresults, List.length_append, List.length_singleton]
      split <;> simp only [MeasurePc.left, MasterPc.toGo] <;> omega
    · simp [MeasurePc.goOn, MeasurePc.left, MasterPc.toGo, hm₁, hm₂, hresults]
    · simp [MeasurePc.goOn, MeasurePc.left, hm₂]
    · simp only [MeasurePc.goOn, MeasurePc.left, hm₂]
      omega
  | joins error sync hm hjoin =>
    obtain ⟨-, rfl⟩ := join_eq_some hjoin
    simp [MeasureState.left, hm, MeasurePc.left]
  | joined error i hm hended =>
    have hi := i.isLt
    simp only [MeasureState.left, hm, MeasurePc.left]
    omega
  | returns error i hm hi => simp [MeasureState.left, hm, MeasurePc.left]

/-! ## Nobody waits in vain -/

/-- A worker that is not stuck goes on. -/
theorem exists_goes {M : Type} {s : SyncState n M} (h : ¬ s.Stuck i) (e : Option M) :
    ∃ t x', s.workerStep i e = some t ∧ (s.worker i).Goes e x' ∧
      t.worker = Function.update s.worker i x' := by
  have hquit : (s.worker i).pc ≠ .quit := fun hpc => h (.inr hpc)
  obtain ⟨t, hstep⟩ : ∃ t, s.workerStep i e = some t := by
    unfold SyncState.workerStep
    dsimp only
    split
    case h_14 hpc => exact absurd hpc hquit
    all_goals first | exact ⟨_, rfl⟩ | split <;> exact ⟨_, rfl⟩
  obtain ⟨hspin, -⟩ | ⟨-, x', hgoes, hworker⟩ := workerStep_cases hstep
  · exact absurd (.inl hspin) h
  · exact ⟨t, x', hstep, hgoes, hworker⟩

/-- A worker that has left after an exception is not waited for. -/
theorem Measured.not_ended {test : Test} (h : Measured args s) (hm : s.master = .round test)
    (hwaiting : s.sync.master = .waiting) (hi : ¬ s.sync.Stuck i) : s.thread i ≠ .ended := by
  intro hended
  have hthread := h.thread i
  rw [hended] at hthread
  obtain hquit | ⟨hpc, m, hpassed⟩ := hthread
  · exact hi (.inr hquit)
  have hstatus : s.sync.status = .wait ∨ s.sync.status = .quit := by
    by_contra hnot
    rw [not_or] at hnot
    exact hi (.inl (.inl ⟨hpc, hnot⟩))
  cases h.sync.phase with
  | gather hg =>
    -- the round of the exception has not succeeded, so no other round has begun
    have hfits := h.master
    rw [hm] at hfits
    obtain ⟨-, -, hruntime, -⟩ := hfits
    have hreturned : (s.sync.worker i).returned = s.sync.results.length := by
      obtain hw | hw | hw := hg.worker i <;> simp [hw] at hpc ⊢
    have hpos := h.positive _ hpassed
    have hlt : (s.sync.worker i).returned - 1 < s.sync.results.length := by
      dsimp only at hpos
      omega
    refine h.not_passed hpassed ?_
    rw [List.getElem?_eq_getElem hlt, hruntime _ (List.getElem_mem hlt)]
  | opening w ho =>
    by_cases hiw : i = w
    · subst hiw
      obtain hw | ⟨hw, -⟩ := ho.last <;> simp [hw] at hpc
    · simp [ho.others i hiw] at hpc
  | work hphase | closing w hphase | raising w hphase | ended hphase =>
    obtain hs | hs := hphase.status <;> simp [hs] at hstatus
  | rest hphase => obtain hm' | hm' := hphase.master <;> cases hm'.symm.trans hwaiting
  | reporting hphase | leaving hphase => cases hphase.master.symm.trans hwaiting

/-- `measure` has returned, or an exception has left it. -/
def MeasurePc.Over : MeasurePc → Prop
  | .returned _ | .threw _ => True
  | _ => False

/-- The measurement cannot end otherwise than by returning or a timeout. -/
structure MeasureEnds (args : MeasureArgs) (s : MeasureState n) : Prop where
  /-- A step that changes anything brings the end closer. -/
  closer : ∀ lab t, (measureSystem args n).step s lab = some t → t = s ∨ t.left args < s.left args
  /-- Until the end the master can go on, or a worker, whatever its call of the workload
  leads to. -/
  live : ¬ s.master.Over →
    (∃ t, (measureSystem args n).step s .master = some t ∧ t.left args < s.left args) ∨
    ∃ i, ∀ outcome, ∃ t, (measureSystem args n).step s (.worker i outcome) = some t ∧
      t.left args < s.left args

/-- A thread that has not ended and is not stuck goes on. -/
theorem Measured.exists_worker (h : Measured args s) (hended : s.thread i ≠ .ended)
    (hi : ¬ s.sync.Stuck i) (outcome : CallOutcome) :
    ∃ t, (measureSystem args n).step s (.worker i outcome) = some t ∧
      t.left args < s.left args := by
  obtain ⟨t, hstep⟩ : ∃ t, s.workerStep args i outcome = some t := by
    simp only [MeasureState.workerStep, if_neg hended]
    split <;>
      exact ⟨_, Option.map_eq_some_iff.mpr ⟨_, (exists_goes hi _).choose_spec.choose_spec.1, rfl⟩⟩
  refine ⟨t, hstep, ?_⟩
  obtain ⟨hspin, -⟩ | hlt := MeasureState.left_worker h hstep
  · exact absurd (.inl hspin) hi
  · exact hlt

/-- A step that the master can take brings the end closer. -/
theorem Measured.exists_master (h : Measured args s) (hsome : (s.masterStep args).isSome) :
    ∃ t, (measureSystem args n).step s .master = some t ∧ t.left args < s.left args := by
  obtain ⟨t, hstep⟩ := Option.isSome_iff_exists.mp hsome
  exact ⟨t, hstep, MeasureState.left_master h hstep⟩

/-- Whatever the calls of the workload lead to, the measurement ends in any interleaving of the
steps of the master and the workers. -/
theorem measureEnds (hn : 1 ≤ n) (h : (measureSystem args n).Reachable LabelledSystem.always s) :
    MeasureEnds args s := by
  have hmeasured := Measured.of_reachable hn h
  have hfits := hmeasured.master
  refine ⟨fun lab t hstep => ?_, fun hopen => ?_⟩
  · cases lab with
    | master => exact .inr (MeasureState.left_master hmeasured hstep)
    | timeout =>
      obtain ⟨test, hm, -, -, rfl⟩ := MeasureState.timeout_eq_some hstep
      exact .inr (by simp [MeasureState.left, hm, MeasurePc.left])
    | worker i outcome => exact (MeasureState.left_worker hmeasured hstep).imp_left And.right
  cases hm : s.master with
  | returned error | threw test => exact absurd (by rw [hm]; trivial) hopen
  | join error =>
    rw [hm] at hfits
    refine .inl (hmeasured.exists_master ?_)
    obtain ⟨hready | hfailed, -⟩ := hfits <;> simp [MeasureState.masterStep, SyncState.join, *]
  | joining error k =>
    rw [hm] at hfits
    by_cases hk : k < n
    · by_cases hended : s.thread ⟨k, hk⟩ = .ended
      · exact .inl (hmeasured.exists_master (by simp [MeasureState.masterStep, hm, hk, hended]))
      · -- thread `k` sees that it has to quit
        refine .inr ⟨⟨k, hk⟩, hmeasured.exists_worker hended fun hstuck => ?_⟩
        have hleaving := hmeasured.sync.phase.leaving_of_joined hfits.1
        obtain hw | hw := hleaving.worker ⟨k, hk⟩
        · simp [Stuck, Spinning, hw, hleaving.status] at hstuck
        · have hthread := hmeasured.thread ⟨k, hk⟩
          cases hi : s.thread ⟨k, hk⟩ with
          | ended => exact hended hi
          | inside test | caught =>
            rw [hi] at hthread
            simp [WorkerThread.Fits, WorkerPc.Notifying, hw] at hthread
    · exact .inl (hmeasured.exists_master (by simp [MeasureState.masterStep, hm, hk]))
  | round test =>
    rw [hm] at hfits
    obtain ⟨-, -, -, hfailed, hjoined⟩ := hfits
    by_cases hdown : s.sync.master = .waiting ∧ s.sync.raised = false
    · obtain ⟨i, hi⟩ := hmeasured.sync.phase.not_stuck hdown.1 hdown.2
      exact .inr ⟨i, hmeasured.exists_worker (hmeasured.not_ended hm hdown.1 hi) hi⟩
    · refine .inl (hmeasured.exists_master ?_)
      cases hsync : s.sync.master with
      | ready => simp [MeasureState.masterStep, hm, hsync, notify]
      | waiting =>
        have hraised : s.sync.raised = true := by simpa [hsync] using hdown
        simp [MeasureState.masterStep, hm, hsync, SyncState.masterStep, hraised]
      | loadStatus =>
        cases hstatus : s.sync.status <;>
          simp [MeasureState.masterStep, hm, hsync, SyncState.masterStep, hstatus]
      | loadError => simp [MeasureState.masterStep, hm, hsync, SyncState.masterStep]
      | failed => exact absurd hsync hfailed
      | joined => exact absurd hsync hjoined
      | unreachable => exact absurd hsync hmeasured.sync.phase.master_ne_unreachable

theorem thrownCall_isSome : ((measureSystem untimed 2).exec (fun _ _ _ => true)
    (measureSystem untimed 2).init thrownCall).isSome := by decide

theorem measureEnds_thrownCall : MeasureEnds untimed (((measureSystem untimed 2).exec
    (fun _ _ _ => true) (measureSystem untimed 2).init thrownCall).get thrownCall_isSome) :=
  measureEnds (by decide)
    (LabelledSystem.reachable_of_exec (fun _ _ _ _ => trivial) thrownCall_isSome)

end TransactionalMemory.Grading
