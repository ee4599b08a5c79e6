import Mathlib.Data.Fintype.Basic
import TransactionalMemory.Foundations.LabelledSystem

/-!
# The round synchronisation of the grading program

The class `Sync` of `grading/grading.cpp`: a master starts rounds and waits for `n` workers to
finish them. Each load, store and fetch-add on `nbready`, `status` and `errmsg` is one step, and so
are raising the latch and waking up from it, which `Latch` protects by a mutex. The control points
of `worker_wait` and `worker_notify` are the constructors of `WorkerPc`, those of `master_wait` the
constructors of `MasterPc`; a control point names the step about to happen.

The history variables, which no step reads, count the calls and record the errors that were passed
and what `master_wait` returned.
-/

namespace TransactionalMemory.Grading

/-- Synchronization status. -/
inductive Status where
  /-- Workers waiting each others, run as soon as all ready. -/
  | wait
  /-- Workers running (still full success). -/
  | run
  /-- Workers running (>0 failure). -/
  | abort
  /-- Workers done (all success). -/
  | done
  /-- Workers done (>0 failure). -/
  | fail
  /-- Workers must terminate. -/
  | quit
  deriving DecidableEq

/-- The control points of a worker. `M` is the type of the error messages. -/
inductive WorkerPc (M : Type) where
  /-- `worker_wait`: the first loop loads the status. -/
  | waitStart
  /-- `worker_wait`: the counter is advanced. -/
  | arrive
  /-- `worker_wait`, last worker: the counter is reset. -/
  | resetArrived
  /-- `worker_wait`, last worker: the status becomes `run`. -/
  | setRun
  /-- `worker_wait`, not the last worker: the second loop loads the status. -/
  | waitRun
  /-- `worker_wait` returned true. -/
  | running
  /-- `worker_notify`: the error message is stored. -/
  | storeError (error : M)
  /-- `worker_notify`: the status becomes `abort`. -/
  | setAbort
  /-- `worker_notify`: the counter is advanced. -/
  | depart
  /-- `worker_notify`, last worker: the counter is reset. -/
  | resetDeparted
  /-- `worker_notify`, last worker: the status is loaded. -/
  | loadStatus
  /-- `worker_notify`, last worker: the status becomes `fail` or `done`. -/
  | setFinal (loaded : Status)
  /-- `worker_notify`, last worker: the latch is raised. -/
  | raise
  /-- `worker_wait` returned false. -/
  | quit
  deriving DecidableEq

/-- The control points of the master. -/
inductive MasterPc where
  /-- Between two rounds. -/
  | ready
  /-- `master_wait`: the latch is waited for. -/
  | waiting
  /-- `master_wait`: the status is loaded. -/
  | loadStatus
  /-- `master_wait`: the error message is loaded. -/
  | loadError
  /-- `master_wait` returned an error message. -/
  | failed
  /-- `master_wait` threw `Unreachable`. -/
  | unreachable
  /-- `master_join` has been called. -/
  | joined
  deriving DecidableEq

/-- What `master_wait` returns. -/
inductive RoundResult (M : Type) where
  | runtime
  | error (errmsg : Option M)

/-- A worker. -/
structure Worker (M : Type) where
  /-- The next step. -/
  pc : WorkerPc M
  /-- History: how often the counter was advanced in `worker_wait`. -/
  arrived : ℕ
  /-- History: how often `worker_wait` returned true. -/
  returned : ℕ
  /-- History: how often the counter was advanced in `worker_notify`. -/
  reported : ℕ

/-- The synchronization object, the master and the workers. -/
structure SyncState (n : ℕ) (M : Type) where
  /-- Current synchronization status. -/
  status : Status
  /-- Number of workers having reached that state. -/
  nbready : ℕ
  /-- Any one of the error messages. -/
  errmsg : Option M
  /-- Whether `donelatch` is raised. -/
  raised : Bool
  /-- The master. -/
  master : MasterPc
  /-- The workers. -/
  worker : Fin n → Worker M
  /-- History: the number of calls of `master_notify`. -/
  notified : ℕ
  /-- History: the rounds and messages of the errors passed to `worker_notify`. -/
  passed : List (ℕ × M)
  /-- History: what `master_wait` returned, round by round. -/
  results : List (RoundResult M)

variable {n : ℕ} {M : Type}

namespace SyncState

/-- Let a worker go on. -/
def go (s : SyncState n M) (i : Fin n) (x : Worker M) : SyncState n M :=
  { s with worker := Function.update s.worker i x }

/-- The next step of a worker. A worker about to call `worker_notify` passes `error`. -/
def workerStep (s : SyncState n M) (i : Fin n) (error : Option M) : Option (SyncState n M) :=
  let x := s.worker i
  match x.pc with
  -- `worker_wait`
  | .waitStart =>
    match s.status with
    | .wait => some (s.go i { x with pc := .arrive })
    | .quit => some (s.go i { x with pc := .quit })
    | _ => some s
  | .arrive =>
    some ({ s with nbready := s.nbready + 1 }.go i { x with
      pc := if s.nbready + 1 = n then .resetArrived else .waitRun
      arrived := x.arrived + 1 })
  | .resetArrived => some ({ s with nbready := 0 }.go i { x with pc := .setRun })
  | .setRun =>
    some ({ s with status := .run }.go i { x with pc := .running, returned := x.returned + 1 })
  | .waitRun =>
    match s.status with
    | .run | .abort => some (s.go i { x with pc := .running, returned := x.returned + 1 })
    | _ => some s
  -- `worker_notify`
  | .running =>
    -- the error is stored only if the worker has failed
    match error with
    | some e =>
      some ({ s with passed := s.passed ++ [(x.returned, e)] }.go i { x with pc := .storeError e })
    | none => some (s.go i { x with pc := .depart })
  | .storeError e => some ({ s with errmsg := some e }.go i { x with pc := .setAbort })
  | .setAbort => some ({ s with status := .abort }.go i { x with pc := .depart })
  | .depart =>
    some ({ s with nbready := s.nbready + 1 }.go i { x with
      pc := if s.nbready + 1 = n then .resetDeparted else .waitStart
      reported := x.reported + 1 })
  | .resetDeparted => some ({ s with nbready := 0 }.go i { x with pc := .loadStatus })
  | .loadStatus => some (s.go i { x with pc := .setFinal s.status })
  | .setFinal loaded =>
    some ({ s with status := if loaded = Status.abort then Status.fail else .done }.go i
      { x with pc := .raise })
  | .raise => some ({ s with raised := true }.go i { x with pc := .waitStart })
  | .quit => none

/-- The next step of the worker only loads a status that sends it around its loop again. -/
def Spinning (s : SyncState n M) (i : Fin n) : Prop :=
  (s.worker i).pc = .waitStart ∧ s.status ≠ .wait ∧ s.status ≠ .quit ∨
    (s.worker i).pc = .waitRun ∧ s.status ≠ .run ∧ s.status ≠ .abort

/-- `master_notify`, after which the master calls `master_wait`. -/
def notify (s : SyncState n M) : Option (SyncState n M) :=
  match s.master with
  | .ready => some { s with status := .wait, master := .waiting, notified := s.notified + 1 }
  | _ => none

/-- `master_join`. -/
def join (s : SyncState n M) : Option (SyncState n M) :=
  match s.master with
  | .ready | .failed => some { s with status := .quit, master := .joined }
  | _ => none

/-- The next step of `master_wait`. -/
def masterStep (s : SyncState n M) : Option (SyncState n M) :=
  match s.master with
  | .waiting => if s.raised then some { s with raised := false, master := .loadStatus } else none
  | .loadStatus =>
    match s.status with
    | .done => some { s with master := .ready, results := s.results ++ [.runtime] }
    | .fail => some { s with master := .loadError }
    | _ => some { s with master := .unreachable }
  | .loadError => some { s with master := .failed, results := s.results ++ [.error s.errmsg] }
  | _ => none

variable {s t : SyncState n M} {i j : Fin n} {x : Worker M}

/-- What `master_notify` does. -/
theorem notify_eq_some (h : s.notify = some t) : s.master = .ready ∧
    t = { s with status := .wait, master := .waiting, notified := s.notified + 1 } := by
  cases hm : s.master <;> simp [notify, hm] at h
  exact ⟨rfl, h.symm⟩

/-- What `master_join` does. -/
theorem join_eq_some (h : s.join = some t) : (s.master = .ready ∨ s.master = .failed) ∧
    t = { s with status := .quit, master := .joined } := by
  -- `master_join` is called between rounds or after a failure
  cases hm : s.master <;> simp [join, hm] at h
  · exact ⟨.inl rfl, h.symm⟩
  · exact ⟨.inr rfl, h.symm⟩

/-- `master_wait` leaves the workers alone. -/
theorem masterStep_frame (h : s.masterStep = some t) :
    t.worker = s.worker ∧ t.notified = s.notified ∧ t.passed = s.passed := by
  cases hm : s.master with
  | waiting =>
    cases hr : s.raised <;> simp [masterStep, hm, hr] at h
    simp [← h]
  | loadStatus => cases hs : s.status <;> simp [masterStep, hm, hs] at h <;> simp [← h]
  | loadError =>
    simp [masterStep, hm] at h
    simp [← h]
  | _ => simp [masterStep, hm] at h

/-- A worker that spins changes nothing. -/
theorem workerStep_spinning (h : s.Spinning i) (e : Option M) :
    s.workerStep i e = some s := by
  obtain ⟨hpc, hwait, hquit⟩ | ⟨hpc, hrun, habort⟩ := h
  · simp only [workerStep, hpc]
  · simp only [workerStep, hpc]

/-- The worker that goes on. -/
@[simp]
theorem go_worker_self : (s.go i x).worker i = x := by
  simp [go]

/-- The other workers stay where they are. -/
theorem go_worker_of_ne (h : j ≠ i) : (s.go i x).worker j = s.worker j := by
  simp [go, h]

/-- What holds of a worker's new record and of every other worker's record. -/
theorem go_forall {P : Worker M → Prop} (hx : P x) (h : ∀ j, j ≠ i → P (s.worker j)) (j : Fin n) :
    P ((s.go i x).worker j) := by
  by_cases hj : j = i
  · subst hj
    simpa using hx
  · rw [go_worker_of_ne hj]
    exact h j hj

end SyncState

/-- A step of the master or of a worker. -/
inductive SyncLabel (n : ℕ) (M : Type) where
  | notify
  | join
  | master
  | worker (i : Fin n) (error : Option M)

/-- A master and `n` workers. After a round that failed, the master joins. -/
def syncSystem (n : ℕ) (M : Type) : LabelledSystem (SyncState n M) (SyncLabel n M) where
  init := {
    status := .done
    nbready := 0
    errmsg := none
    raised := false
    master := .ready
    worker := fun _ => { pc := .waitStart, arrived := 0, returned := 0, reported := 0 }
    notified := 0
    passed := []
    results := [] }
  step s
    | .notify => s.notify
    | .join => s.join
    | .master => s.masterStep
    | .worker i error => s.workerStep i error

end TransactionalMemory.Grading
