import Mathlib.Tactic.Simps.Basic
import TransactionalMemory.Foundations.Counting
import TransactionalMemory.Grading.Sync

/-!
# The phases of a round

A round of `Sync` goes through the phases

* `Gather`: the workers arrive;
* `Opening`: the last one to arrive resets the counter and sets the status to `run`;
* `Work`: the workers leave `worker_wait` and then report;
* `Closing`: the last one to report resets the counter and sets the status to `done` or `fail`;
* `Raising`: it raises the latch;
* `Ended`: the master has not yet seen how the round ended;
* `Reporting`: it ended with an error, which the master is about to load.

Before and after the rounds the system is in `Rest`, and once the master has joined it is in
`Leaving`. A phase says what the record of every worker is, and the counter is the number of
workers that are through with the phase. `Phase.step` shows that a step stays in a phase or goes to
the next one.
-/

namespace TransactionalMemory.Grading

open SyncState

variable {n k : ℕ} {M : Type} {s t : SyncState n M} {i w : Fin n} {e : Option M}

/-! ## The workers of a round -/

/-- The steps between `worker_wait` returning true and the advance of the counter in
`worker_notify`. -/
def WorkerPc.Busy : WorkerPc M → Prop
  | .running | .storeError _ | .setAbort | .depart => True
  | _ => False

/-- The steps that record an error. -/
def WorkerPc.Failing : WorkerPc M → Prop
  | .storeError _ | .setAbort => True
  | _ => False

namespace Worker

/-- Between round `k` and round `k + 1`. -/
@[simps]
def between (k : ℕ) (pc : WorkerPc M) : Worker M := ⟨pc, k, k, k⟩

/-- Arrived in round `k + 1`. -/
@[simps]
def gathered (k : ℕ) (pc : WorkerPc M) : Worker M := ⟨pc, k + 1, k, k⟩

/-- Let into round `k + 1`. -/
@[simps]
def inside (k : ℕ) (pc : WorkerPc M) : Worker M := ⟨pc, k + 1, k + 1, k⟩

/-- A worker while round `k + 1` gathers. -/
def Gathering (k : ℕ) (x : Worker M) : Prop :=
  x = between k .waitStart ∨ x = between k .arrive ∨ x = gathered k .waitRun

/-- A worker while round `k + 1` is at work. -/
def Working (k : ℕ) (x : Worker M) : Prop :=
  x = gathered k .waitRun ∨ (∃ pc, pc.Busy ∧ x = inside k pc) ∨ x = between (k + 1) .waitStart

end Worker

/-! ## The phases -/

/-- What `errmsg` holds once the errors of a round have been recorded: the round `failed` exactly if
an error was passed in it, and then `errmsg` is one of these. -/
structure Verdict (s : SyncState n M) (failed : Prop) : Prop where
  errmsg : failed → ∃ m, s.errmsg = some m ∧ (s.notified, m) ∈ s.passed
  failed : ∀ m, (s.notified, m) ∈ s.passed → failed

/-- The master waits for the round after those it has the results of. -/
structure Waiting (s : SyncState n M) : Prop where
  master : s.master = .waiting
  raised : s.raised = false
  notified : s.notified = s.results.length + 1

/-- Workers arrive. -/
structure Gather (s : SyncState n M) : Prop extends Waiting s where
  status : s.status = .wait
  worker : ∀ i, (s.worker i).Gathering s.results.length
  nbready : s.nbready = countOf (fun x => x.arrived = s.results.length + 1) s.worker
  lt : s.nbready < n
  clean : ∀ m, (s.notified, m) ∉ s.passed

/-- All workers have arrived, `w` was the last. -/
structure Opening (s : SyncState n M) (w : Fin n) : Prop extends Waiting s where
  status : s.status = .wait
  others : ∀ i, i ≠ w → s.worker i = .gathered s.results.length .waitRun
  last : s.worker w = .gathered s.results.length .resetArrived ∨
    s.worker w = .gathered s.results.length .setRun ∧ s.nbready = 0
  clean : ∀ m, (s.notified, m) ∉ s.passed

/-- How far the errors of a round have been recorded: each is stored in `errmsg` before the status
becomes `abort`. -/
structure Recording (s : SyncState n M) : Prop where
  storing : ∀ i m, (s.worker i).pc = .storeError m → (s.notified, m) ∈ s.passed
  stored : ∀ i, (s.worker i).pc = .setAbort → ∃ m, s.errmsg = some m ∧ (s.notified, m) ∈ s.passed
  aborted : s.status = .abort → ∃ m, s.errmsg = some m ∧ (s.notified, m) ∈ s.passed
  pending : ∀ m, (s.notified, m) ∈ s.passed → s.status = .abort ∨ ∃ i, (s.worker i).pc.Failing

/-- Workers leave `worker_wait` and report. -/
structure Work (s : SyncState n M) : Prop extends Waiting s where
  status : s.status = .run ∨ s.status = .abort
  worker : ∀ i, (s.worker i).Working s.results.length
  nbready : s.nbready = countOf (fun x => x.reported = s.results.length + 1) s.worker
  lt : s.nbready < n
  recording : Recording s

/-- All workers have reported, `w` was the last. -/
structure Closing (s : SyncState n M) (w : Fin n) : Prop extends Waiting s where
  status : s.status = .run ∨ s.status = .abort
  others : ∀ i, i ≠ w → s.worker i = .between (s.results.length + 1) .waitStart
  last : s.worker w = .between (s.results.length + 1) .resetDeparted ∨
    (s.worker w = .between (s.results.length + 1) .loadStatus ∨
      s.worker w = .between (s.results.length + 1) (.setFinal s.status)) ∧ s.nbready = 0
  verdict : Verdict s (s.status = .abort)

/-- The last worker is about to raise the latch. -/
structure Raising (s : SyncState n M) (w : Fin n) : Prop extends Waiting s where
  status : s.status = .done ∨ s.status = .fail
  others : ∀ i, i ≠ w → s.worker i = .between (s.results.length + 1) .waitStart
  last : s.worker w = .between (s.results.length + 1) .raise
  nbready : s.nbready = 0
  verdict : Verdict s (s.status = .fail)

/-- No worker has anything to do. -/
structure Settled (s : SyncState n M) : Prop where
  status : s.status = .done ∨ s.status = .fail
  worker : ∀ i, s.worker i = .between s.notified .waitStart
  nbready : s.nbready = 0

/-- The master has not yet seen how the round ended. -/
structure Ended (s : SyncState n M) : Prop extends Settled s where
  master : s.master = .waiting ∧ s.raised = true ∨ s.master = .loadStatus ∧ s.raised = false
  notified : s.notified = s.results.length + 1
  verdict : Verdict s (s.status = .fail)

/-- The master is about to load the error message. -/
structure Reporting (s : SyncState n M) : Prop extends Settled s where
  master : s.master = .loadError
  raised : s.raised = false
  notified : s.notified = s.results.length + 1
  verdict : Verdict s True

/-- No round is going on and the master has the results of all. -/
structure Rest (s : SyncState n M) : Prop extends Settled s where
  master : s.master = .ready ∨ s.master = .failed
  raised : s.raised = false
  notified : s.notified = s.results.length

/-- The master has joined. -/
structure Leaving (s : SyncState n M) : Prop where
  master : s.master = .joined
  status : s.status = .quit
  worker : ∀ i, s.worker i = .between s.notified .waitStart ∨ s.worker i = .between s.notified .quit
  notified : s.notified = s.results.length

/-- The phases. -/
inductive Phase (s : SyncState n M) : Prop
  | rest (h : Rest s)
  | gather (h : Gather s)
  | opening (w : Fin n) (h : Opening s w)
  | work (h : Work s)
  | closing (w : Fin n) (h : Closing s w)
  | raising (w : Fin n) (h : Raising s w)
  | ended (h : Ended s)
  | reporting (h : Reporting s)
  | leaving (h : Leaving s)

/-! ## Recording the errors of a round -/

namespace Recording

variable {x : Worker M} {m : M}

/-- When a round begins there is nothing to record. -/
theorem begin (hstatus : s.status ≠ .abort) (hcalm : ∀ i, ¬ (s.worker i).pc.Failing)
    (hclean : ∀ m, (s.notified, m) ∉ s.passed) : Recording s where
  storing i _ hm := absurd (hm ▸ trivial) (hcalm i)
  stored i hm := absurd (hm ▸ trivial) (hcalm i)
  aborted hm := absurd hm hstatus
  pending m hm := absurd hm (hclean m)

/-- A step that has nothing to do with errors. -/
theorem calm (h : Recording s) (r : ℕ) (hold : ¬ (s.worker i).pc.Failing) (hnew : ¬ x.pc.Failing) :
    Recording ({ s with nbready := r }.go i x) where
  storing := by
    refine go_forall (P := fun x => ∀ m, x.pc = .storeError m → (s.notified, m) ∈ s.passed) ?_
      fun j _ => h.storing j
    intro m hm
    exact absurd (hm ▸ trivial) hnew
  stored := by
    refine go_forall (P := fun x => x.pc = .setAbort →
      ∃ m, s.errmsg = some m ∧ (s.notified, m) ∈ s.passed) ?_ fun j _ => h.stored j
    intro hm
    exact absurd (hm ▸ trivial) hnew
  aborted := h.aborted
  pending m hm := by
    refine (h.pending m hm).imp_right fun ⟨j, hj⟩ => ⟨j, ?_⟩
    have hne : j ≠ i := by
      rintro rfl
      exact hold hj
    rwa [go_worker_of_ne hne]

/-- A worker passes an error. -/
theorem pass (h : Recording s) (hk : k = s.notified) (hx : x.pc = .storeError m) :
    Recording ({ s with passed := s.passed ++ [(k, m)] }.go i x) where
  storing := by
    subst hk
    refine go_forall (P := fun x => ∀ m', x.pc = .storeError m' →
      (s.notified, m') ∈ s.passed ++ [(s.notified, m)]) ?_ fun j _ m' hm' => ?_
    · intro m' hm'
      cases hx.symm.trans hm'
      simp
    · exact List.mem_append_left _ (h.storing j m' hm')
  stored := by
    subst hk
    refine go_forall (P := fun x => x.pc = .setAbort →
      ∃ m', s.errmsg = some m' ∧ (s.notified, m') ∈ s.passed ++ [(s.notified, m)]) ?_
      fun j _ hj => ?_
    · intro hm
      cases hx.symm.trans hm
    · obtain ⟨m', hm', hmem⟩ := h.stored j hj
      exact ⟨m', hm', List.mem_append_left _ hmem⟩
  aborted hs := by
    obtain ⟨m', hm', hmem⟩ := h.aborted hs
    exact ⟨m', hm', List.mem_append_left _ hmem⟩
  pending m' _ := by
    refine .inr ⟨i, ?_⟩
    rw [go_worker_self, hx]
    trivial

/-- A worker stores the error it passed. -/
theorem store (h : Recording s) (hold : (s.worker i).pc = .storeError m) (hx : x.pc = .setAbort) :
    Recording ({ s with errmsg := some m }.go i x) := by
  have hstored : ∃ m', some m = some m' ∧ (s.notified, m') ∈ s.passed :=
    ⟨m, rfl, h.storing i m hold⟩
  refine ⟨?_, fun _ _ => hstored, fun _ => hstored, fun m' _ => .inr ⟨i, ?_⟩⟩
  · refine go_forall (P := fun x => ∀ m', x.pc = .storeError m' → (s.notified, m') ∈ s.passed) ?_
      fun j _ => h.storing j
    intro m' hm'
    cases hx.symm.trans hm'
  · rw [go_worker_self, hx]
    trivial

/-- A worker that stored its error sets the status. -/
theorem abort (h : Recording s) (hold : (s.worker i).pc = .setAbort) (hx : ¬ x.pc.Failing) :
    Recording ({ s with status := .abort }.go i x) := by
  refine ⟨?_, fun _ _ => h.stored i hold, fun _ => h.stored i hold, fun _ _ => .inl rfl⟩
  refine go_forall (P := fun x => ∀ m, x.pc = .storeError m → (s.notified, m) ∈ s.passed) ?_
    fun j _ => h.storing j
  intro m hm
  exact absurd (hm ▸ trivial) hx

/-- Once no worker is recording an error, the status tells whether there was one. -/
theorem verdict (h : Recording s) (hcalm : ∀ i, ¬ (s.worker i).pc.Failing) :
    Verdict s (s.status = .abort) where
  errmsg := h.aborted
  failed m hm := (h.pending m hm).resolve_right fun ⟨i, hi⟩ => hcalm i hi

end Recording

/-! ## What the workers do in each phase -/

/-- A step of a worker while they arrive. -/
theorem Gather.workerStep (h : Gather s) (hstep : s.workerStep i e = some t) : Phase t := by
  obtain hw | hw | hw := h.worker i
  case inl =>
    simp only [SyncState.workerStep, hw, Worker.between, h.status, Option.some.injEq] at hstep
    subst hstep
    -- the first loop of `worker_wait` sees that the master waits
    refine .gather ⟨⟨h.master, h.raised, h.notified⟩, h.status, ?_, ?_, h.lt, h.clean⟩
    · exact go_forall (.inr (.inl rfl)) fun j _ => h.worker j
    · exact h.nbready.trans (countOf_update_same (by simp [hw])).symm
  case inr.inl =>
    -- one more worker has arrived
    have hcount (pc : WorkerPc M) : countOf (fun x => x.arrived = s.results.length + 1)
        (Function.update s.worker i (.gathered s.results.length pc)) = s.nbready + 1 := by
      rw [h.nbready]
      exact countOf_update_new (by simp [hw]) rfl
    simp only [SyncState.workerStep, hw, Worker.between, Option.some.injEq] at hstep
    subst hstep
    by_cases hlast : s.nbready + 1 = n
    · -- all have arrived, and the others are in the second loop
      simp only [hlast, if_true]
      have hall (pc : WorkerPc M) := countOf_eq_card_iff.mp
        ((hcount pc).trans (hlast.trans (Fintype.card_fin n).symm))
      refine .opening i ⟨⟨h.master, h.raised, h.notified⟩, h.status, ?_, ?_, h.clean⟩
      · intro j hj
        rw [go_worker_of_ne hj]
        have harrived := hall .waitRun j
        rw [Function.update_of_ne hj] at harrived
        obtain hj' | hj' | hj' := h.worker j
        · simp [hj'] at harrived
        · simp [hj'] at harrived
        · exact hj'
      · exact .inl go_worker_self
    · simp only [hlast, if_false]
      refine .gather ⟨⟨h.master, h.raised, h.notified⟩, h.status, ?_, (hcount .waitRun).symm, ?_,
        h.clean⟩
      · exact go_forall (.inr (.inr rfl)) fun j _ => h.worker j
      · exact lt_of_le_of_ne h.lt hlast
  case inr.inr =>
    have hspin : s.Spinning i := .inr (by simp [hw, h.status])
    rw [workerStep_spinning hspin, Option.some.injEq] at hstep
    exact hstep ▸ .gather h

/-- A step of a worker while the last one opens the round. -/
theorem Opening.workerStep (h : Opening s w) (hstep : s.workerStep i e = some t) : Phase t := by
  by_cases hi : i = w
  case neg =>
    have hspin : s.Spinning i := .inr (by simp [h.others i hi, h.status])
    rw [workerStep_spinning hspin, Option.some.injEq] at hstep
    exact hstep ▸ .opening w h
  subst hi
  obtain hw | ⟨hw, hready⟩ := h.last
  · simp only [SyncState.workerStep, hw, Worker.gathered, Option.some.injEq] at hstep
    subst hstep
    refine .opening i ⟨⟨h.master, h.raised, h.notified⟩, h.status, ?_, ?_, h.clean⟩
    · intro j hj
      rw [go_worker_of_ne hj]
      exact h.others j hj
    · exact .inr ⟨go_worker_self, rfl⟩
  · simp only [SyncState.workerStep, hw, Worker.gathered, Option.some.injEq] at hstep
    subst hstep
    -- nobody has reported, and nobody has an error to store
    have hworker := go_forall
      (P := fun x => x = .gathered s.results.length .waitRun ∨
        x = .inside s.results.length .running)
      (s := s) (i := i) (.inr rfl) fun j hj => .inl (h.others j hj)
    have hreported : countOf (fun x => x.reported = s.results.length + 1)
        (Function.update s.worker i (.inside s.results.length .running)) = 0 := by
      apply countOf_eq_zero_iff.mpr
      intro j
      show ((s.go i (.inside _ .running)).worker j).reported ≠ _
      obtain hj | hj := hworker j <;> simp [hj]
    have hcalm (j : Fin n) :
        ¬ ((s.go i (.inside s.results.length .running)).worker j).pc.Failing := by
      obtain hj | hj := hworker j <;> simp [hj, WorkerPc.Failing]
    refine .work ⟨⟨h.master, h.raised, h.notified⟩, .inl rfl, ?_, hready.trans hreported.symm, ?_,
      .begin (by simp [go]) hcalm h.clean⟩
    · intro j
      obtain hj | hj := hworker j
      · exact .inl hj
      · exact .inr (.inl ⟨.running, trivial, hj⟩)
    · show s.nbready < n
      rw [hready]
      exact i.pos

/-- A worker reports, possibly as the last one. -/
theorem Work.depart (h : Work s) (hw : s.worker i = .inside s.results.length .depart)
    (hstep : s.workerStep i e = some t) : Phase t := by
  -- one more worker has reported
  have hcount (pc : WorkerPc M) : countOf (fun x => x.reported = s.results.length + 1)
      (Function.update s.worker i (.between (s.results.length + 1) pc)) = s.nbready + 1 := by
    rw [h.nbready]
    exact countOf_update_new (by simp [hw]) rfl
  have hrecording (pc : WorkerPc M) (hpc : ¬ pc.Failing) : Recording
      ({ s with nbready := s.nbready + 1 }.go i (.between (s.results.length + 1) pc)) :=
    h.recording.calm _ (by simp [hw, WorkerPc.Failing]) hpc
  simp only [SyncState.workerStep, hw, Worker.inside, Option.some.injEq] at hstep
  subst hstep
  by_cases hlast : s.nbready + 1 = n
  · -- all have reported, and the others are in the first loop again
    simp only [hlast, if_true]
    have hall (j : Fin n) : j ≠ i → s.worker j = .between (s.results.length + 1) .waitStart := by
      intro hj
      have hreported := countOf_eq_card_iff.mp
        ((hcount .resetDeparted).trans (hlast.trans (Fintype.card_fin n).symm)) j
      rw [Function.update_of_ne hj] at hreported
      obtain hj' | ⟨pc, -, hj'⟩ | hj' := h.worker j
      · simp [hj'] at hreported
      · simp [hj'] at hreported
      · exact hj'
    have hothers (j : Fin n) (hj : j ≠ i) := (go_worker_of_ne
      (s := s) (x := .between (s.results.length + 1) .resetDeparted) hj).trans (hall j hj)
    have hcalm : ∀ j,
        ¬ ((s.go i (.between (s.results.length + 1) .resetDeparted)).worker j).pc.Failing :=
      go_forall (P := fun x => ¬ x.pc.Failing) (by simp [WorkerPc.Failing])
        fun j hj => by simp [hall j hj, WorkerPc.Failing]
    have hverdict := (hrecording .resetDeparted (by simp [WorkerPc.Failing])).verdict hcalm
    exact .closing i ⟨⟨h.master, h.raised, h.notified⟩, h.status, hothers, .inl go_worker_self,
      ⟨hverdict.errmsg, hverdict.failed⟩⟩
  · simp only [hlast, if_false]
    refine .work ⟨⟨h.master, h.raised, h.notified⟩, h.status, ?_, (hcount .waitStart).symm, ?_,
      hrecording .waitStart (by simp [WorkerPc.Failing])⟩
    · exact go_forall (.inr (.inr rfl)) fun j _ => h.worker j
    · exact lt_of_le_of_ne h.lt hlast

/-- A step of a worker within a round. -/
theorem Work.workerStep (h : Work s) (hstep : s.workerStep i e = some t) : Phase t := by
  obtain hw | ⟨pc, hbusy, hw⟩ | hw := h.worker i
  case inl =>
    -- the second loop of `worker_wait` sees that the round runs
    have ht : t = s.go i (.inside s.results.length .running) := by
      obtain hs | hs := h.status <;>
        simpa [SyncState.workerStep, hw, hs, Worker.inside] using hstep.symm
    subst ht
    refine .work ⟨⟨h.master, h.raised, h.notified⟩, h.status, ?_, ?_, h.lt, ?_⟩
    · exact go_forall (.inr (.inl ⟨.running, trivial, rfl⟩)) fun j _ => h.worker j
    · exact h.nbready.trans (countOf_update_same (by simp [hw])).symm
    · exact h.recording.calm s.nbready (by simp [hw, WorkerPc.Failing]) (by simp [WorkerPc.Failing])
  case inr.inl =>
    -- the worker is at work, and reports at the end of it
    have hworker (pc' : WorkerPc M) (hpc' : pc'.Busy) (j : Fin n) :
        ((s.go i (.inside s.results.length pc')).worker j).Working s.results.length :=
      go_forall (.inr (.inl ⟨pc', hpc', rfl⟩)) (fun j _ => h.worker j) j
    have hready (pc' : WorkerPc M) : s.nbready = countOf
        (fun x => x.reported = s.results.length + 1)
        (s.go i (.inside s.results.length pc')).worker :=
      h.nbready.trans (countOf_update_same (by simp [hw])).symm
    cases pc with
    | running =>
      cases e with
      | some m =>
        simp only [SyncState.workerStep, hw, Worker.inside, Option.some.injEq] at hstep
        subst hstep
        exact .work ⟨⟨h.master, h.raised, h.notified⟩, h.status, hworker _ trivial, hready _, h.lt,
          h.recording.pass h.notified.symm rfl⟩
      | none =>
        simp only [SyncState.workerStep, hw, Worker.inside, Option.some.injEq] at hstep
        subst hstep
        exact .work ⟨⟨h.master, h.raised, h.notified⟩, h.status, hworker _ trivial, hready _, h.lt,
          h.recording.calm s.nbready (by simp [hw, WorkerPc.Failing]) (by simp [WorkerPc.Failing])⟩
    | storeError m =>
      simp only [SyncState.workerStep, hw, Worker.inside, Option.some.injEq] at hstep
      subst hstep
      exact .work ⟨⟨h.master, h.raised, h.notified⟩, h.status, hworker _ trivial, hready _, h.lt,
        h.recording.store (by simp [hw]) rfl⟩
    | setAbort =>
      simp only [SyncState.workerStep, hw, Worker.inside, Option.some.injEq] at hstep
      subst hstep
      exact .work ⟨⟨h.master, h.raised, h.notified⟩, .inr rfl, hworker _ trivial, hready _, h.lt,
        h.recording.abort (by simp [hw]) (by simp [WorkerPc.Failing])⟩
    | depart => exact h.depart hw hstep
    | _ => exact hbusy.elim
  case inr.inr =>
    have hspin : s.Spinning i := by
      obtain hs | hs := h.status <;> exact .inl (by simp [hw, hs])
    rw [workerStep_spinning hspin, Option.some.injEq] at hstep
    exact hstep ▸ .work h

/-- A step of a worker while the last one closes the round. -/
theorem Closing.workerStep (h : Closing s w) (hstep : s.workerStep i e = some t) : Phase t := by
  by_cases hi : i = w
  case neg =>
    have hspin : s.Spinning i := by
      obtain hs | hs := h.status <;> exact .inl (by simp [h.others i hi, hs])
    rw [workerStep_spinning hspin, Option.some.injEq] at hstep
    exact hstep ▸ .closing w h
  subst hi
  have hothers (x : Worker M) (j : Fin n) (hj : j ≠ i) :
      (s.go i x).worker j = .between (s.results.length + 1) .waitStart :=
    (go_worker_of_ne hj).trans (h.others j hj)
  obtain hw | ⟨hw | hw, hready⟩ := h.last
  · simp only [SyncState.workerStep, hw, Worker.between, Option.some.injEq] at hstep
    subst hstep
    exact .closing i ⟨⟨h.master, h.raised, h.notified⟩, h.status, hothers _,
      .inr ⟨.inl go_worker_self, rfl⟩, ⟨h.verdict.errmsg, h.verdict.failed⟩⟩
  · simp only [SyncState.workerStep, hw, Worker.between, Option.some.injEq] at hstep
    subst hstep
    exact .closing i ⟨⟨h.master, h.raised, h.notified⟩, h.status, hothers _,
      .inr ⟨.inr go_worker_self, hready⟩, ⟨h.verdict.errmsg, h.verdict.failed⟩⟩
  · simp only [SyncState.workerStep, hw, Worker.between, Option.some.injEq] at hstep
    subst hstep
    -- the status that was loaded is still the status
    have hfail :
        (if s.status = .abort then Status.fail else .done) = .fail ↔ s.status = .abort := by
      split <;> simp [*]
    refine .raising i ⟨⟨h.master, h.raised, h.notified⟩, ?_, hothers _, go_worker_self, hready,
      ⟨fun hf => h.verdict.errmsg (hfail.mp hf), fun m hm => hfail.mpr (h.verdict.failed m hm)⟩⟩
    show (if s.status = .abort then Status.fail else .done) = .done ∨
      (if s.status = .abort then Status.fail else .done) = .fail
    split <;> simp

/-- A step of a worker while the last one is about to raise the latch. -/
theorem Raising.workerStep (h : Raising s w) (hstep : s.workerStep i e = some t) : Phase t := by
  by_cases hi : i = w
  case neg =>
    have hspin : s.Spinning i := by
      obtain hs | hs := h.status <;> exact .inl (by simp [h.others i hi, hs])
    rw [workerStep_spinning hspin, Option.some.injEq] at hstep
    exact hstep ▸ .raising w h
  subst hi
  simp only [SyncState.workerStep, h.last, Worker.between, Option.some.injEq] at hstep
  subst hstep
  refine .ended ⟨⟨h.status, ?_, h.nbready⟩, .inl ⟨h.master, rfl⟩, h.notified,
    ⟨h.verdict.errmsg, h.verdict.failed⟩⟩
  refine go_forall (P := fun x => x = .between s.notified .waitStart) ?_ fun j hj => ?_
  · rw [h.notified]
    rfl
  · rw [h.notified]
    exact h.others j hj

/-- Once the round is over the workers spin. -/
theorem Settled.workerStep (h : Settled s) (hstep : s.workerStep i e = some t) : t = s := by
  have hspin : s.Spinning i := by
    obtain hs | hs := h.status <;> exact .inl (by simp [h.worker i, hs])
  rw [workerStep_spinning hspin, Option.some.injEq] at hstep
  exact hstep.symm

/-- A step of a worker after the master has joined. -/
theorem Leaving.workerStep (h : Leaving s) (hstep : s.workerStep i e = some t) : Phase t := by
  obtain hw | hw := h.worker i
  · simp only [SyncState.workerStep, hw, Worker.between, h.status, Option.some.injEq] at hstep
    subst hstep
    refine .leaving ⟨h.master, h.status, ?_, h.notified⟩
    exact go_forall
      (P := fun x => x = .between s.notified .waitStart ∨ x = .between s.notified .quit)
      (.inr rfl) fun j _ => h.worker j
  · simp [SyncState.workerStep, hw] at hstep

/-! ## What the master does in each phase -/

/-- The errors passed belong to rounds that have begun. -/
def Begun (s : SyncState n M) : Prop := ∀ e ∈ s.passed, e.1 ≤ s.notified

/-- The master starts a round. -/
theorem Rest.notify (h : Rest s) (hn : 1 ≤ n) (hbegun : Begun s) (hstep : s.notify = some t) :
    Phase t := by
  obtain ⟨-, rfl⟩ := notify_eq_some hstep
  have hcount : countOf (fun x => x.arrived = s.results.length + 1) s.worker = 0 := by
    apply countOf_eq_zero_iff.mpr
    intro i
    simp [h.worker i, h.notified]
  refine .gather ⟨⟨rfl, h.raised, congrArg (· + 1) h.notified⟩, rfl, ?_,
    h.nbready.trans hcount.symm, ?_, ?_⟩
  · intro i
    exact .inl (h.notified ▸ h.worker i)
  · show s.nbready < n
    rw [h.nbready]
    exact hn
  · intro m hm
    exact absurd (hbegun _ hm) (Nat.not_succ_le_self _)

/-- The master joins the workers. -/
theorem Rest.join (h : Rest s) (hstep : s.join = some t) : Phase t := by
  obtain ⟨-, rfl⟩ := join_eq_some hstep
  exact .leaving ⟨rfl, rfl, fun i => .inl (h.worker i), h.notified⟩

/-- The master finds out how the round has ended. -/
theorem Ended.masterStep (h : Ended s) (hstep : s.masterStep = some t) : Phase t := by
  obtain ⟨hmaster, hraised⟩ | ⟨hmaster, hraised⟩ := h.master
  · simp only [SyncState.masterStep, hmaster, hraised, if_true, Option.some.injEq] at hstep
    subst hstep
    exact .ended ⟨⟨h.status, h.worker, h.nbready⟩, .inr ⟨rfl, rfl⟩, h.notified,
      ⟨h.verdict.errmsg, h.verdict.failed⟩⟩
  · obtain hstatus | hstatus := h.status
    · simp only [SyncState.masterStep, hmaster, hstatus, Option.some.injEq] at hstep
      subst hstep
      refine .rest ⟨⟨.inl rfl, h.worker, h.nbready⟩, .inl rfl, hraised, ?_⟩
      simpa using h.notified
    · simp only [SyncState.masterStep, hmaster, hstatus, Option.some.injEq] at hstep
      subst hstep
      exact .reporting ⟨⟨.inr rfl, h.worker, h.nbready⟩, rfl, hraised, h.notified,
        ⟨fun _ => h.verdict.errmsg hstatus, fun _ _ => trivial⟩⟩

/-- The master returns the error. -/
theorem Reporting.masterStep (h : Reporting s) (hstep : s.masterStep = some t) : Phase t := by
  simp only [SyncState.masterStep, h.master, Option.some.injEq] at hstep
  subst hstep
  refine .rest ⟨⟨h.status, h.worker, h.nbready⟩, .inr rfl, h.raised, ?_⟩
  simpa using h.notified

/-- While the workers are in a round, the master waits. -/
theorem Waiting.masterStep (h : Waiting s) : s.masterStep = none := by
  simp [SyncState.masterStep, h.master, h.raised]

/-! ## A step stays in a phase or goes to the next one -/

/-- A step of a worker leads from a phase to a phase. -/
theorem Phase.workerStep (h : Phase s) (hstep : s.workerStep i e = some t) : Phase t := by
  cases h with
  | rest h => exact h.workerStep hstep ▸ .rest h
  | gather h => exact h.workerStep hstep
  | opening w h => exact h.workerStep hstep
  | work h => exact h.workerStep hstep
  | closing w h => exact h.workerStep hstep
  | raising w h => exact h.workerStep hstep
  | ended h => exact h.workerStep hstep ▸ .ended h
  | reporting h => exact h.workerStep hstep ▸ .reporting h
  | leaving h => exact h.workerStep hstep

/-- `master_notify` leads from a phase to a phase. -/
theorem Phase.notify (h : Phase s) (hn : 1 ≤ n) (hbegun : Begun s) (hstep : s.notify = some t) :
    Phase t := by
  obtain ⟨hmaster, -⟩ := notify_eq_some hstep
  cases h with
  | rest h => exact h.notify hn hbegun hstep
  | ended h => obtain ⟨hm, -⟩ | ⟨hm, -⟩ := h.master <;> cases hm.symm.trans hmaster
  | gather h | opening w h | work h | closing w h | raising w h | reporting h | leaving h =>
    cases h.master.symm.trans hmaster

/-- `master_join` leads from a phase to a phase. -/
theorem Phase.join (h : Phase s) (hstep : s.join = some t) : Phase t := by
  cases h with
  | rest h => exact h.join hstep
  | ended h =>
    obtain ⟨hm, -⟩ | ⟨hm, -⟩ := h.master <;> simp [SyncState.join, hm] at hstep
  | gather h | opening w h | work h | closing w h | raising w h | reporting h | leaving h =>
    simp [SyncState.join, h.master] at hstep

/-- A step of the master leads from a phase to a phase. -/
theorem Phase.masterStep (h : Phase s) (hstep : s.masterStep = some t) : Phase t := by
  cases h with
  | rest h => obtain hm | hm := h.master <;> simp [SyncState.masterStep, hm] at hstep
  | gather h | opening w h | work h | closing w h | raising w h =>
    cases h.toWaiting.masterStep.symm.trans hstep
  | ended h => exact h.masterStep hstep
  | reporting h => exact h.masterStep hstep
  | leaving h => simp [SyncState.masterStep, h.master] at hstep

/-- Every step leads from a phase to a phase. -/
theorem Phase.step {a : SyncLabel n M} (h : Phase s) (hn : 1 ≤ n) (hbegun : Begun s)
    (hstep : (syncSystem n M).step s a = some t) : Phase t := by
  cases a with
  | notify => exact h.notify hn hbegun hstep
  | join => exact h.join hstep
  | master => exact h.masterStep hstep
  | worker i e => exact h.workerStep hstep

/-- At first the master may start a round. -/
theorem Phase.init : Phase (syncSystem n M).init :=
  .rest ⟨⟨.inl rfl, fun _ => rfl, rfl⟩, .inl rfl, rfl, rfl⟩

end TransactionalMemory.Grading
