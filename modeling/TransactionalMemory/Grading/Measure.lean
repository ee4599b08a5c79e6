import TransactionalMemory.Grading.Sync

/-!
# A measurement

The function `measure` of `grading/grading.cpp`: a master and `n` worker threads go through the
tests of a workload, each test in a round of `Sync`. The steps are those of `Sync`; a control point
of `measure` advances when one of the calls of `Sync` returns. The call of the workload in a worker
is one step, whose outcome is part of the label: what it returns, or an exception.

The times that are measured are left out, so a wait with a timeout may time out whenever the latch
is down.
-/

namespace TransactionalMemory.Grading

/-- The tests of a workload. -/
inductive Test where
  /-- Initialization. -/
  | init
  /-- A performance measurement. -/
  | run (count : ℕ)
  /-- Correctness check. -/
  | check
  /-- Synchronized quit: there is no test after the check. -/
  | quit
  deriving DecidableEq

/-- The test after a test. -/
def Test.next (nbrepeats : ℕ) : Test → Test
  | .init => if 0 < nbrepeats then .run 0 else .check
  | .run count => if count + 1 < nbrepeats then .run (count + 1) else .check
  | .check | .quit => .quit

/-- The parameters of a measurement, besides the workload. -/
structure MeasureArgs where
  /-- Number of repetitions. -/
  nbrepeats : ℕ
  /-- Timeout for (re)initialization, if any. -/
  maxtickInit : Option ℕ
  /-- Timeout for performance measurements, if any. -/
  maxtickPerf : Option ℕ
  /-- Timeout for correctness check, if any. -/
  maxtickChck : Option ℕ

/-- The timeout that `master_wait` is called with. -/
def MeasureArgs.maxtick (args : MeasureArgs) : Test → Option ℕ
  | .init => args.maxtickInit
  | .run _ => args.maxtickPerf
  | .check => args.maxtickChck
  | .quit => none

/-- How a call of the workload ends. -/
inductive CallOutcome where
  | returned (error : Option String)
  | exception
  deriving DecidableEq

/-- A worker thread. -/
inductive WorkerThread where
  /-- In the round of a test, until `worker_notify` returns. -/
  | inside (test : Test)
  /-- An exception was caught, until `worker_notify` returns. -/
  | caught
  /-- The thread has ended. -/
  | ended
  deriving DecidableEq

namespace WorkerThread

/-- The call of the workload: the error passed to `worker_notify`, and the thread that passes it. -/
def call : WorkerThread → CallOutcome → Option String × WorkerThread
  -- after the check `Unreachable` is thrown, and handled as all exceptions are
  | .inside .quit, _ | .inside _, .exception => (some "Internal worker exception(s)", .caught)
  | .inside test, .returned error => (error, .inside test)
  | thread, _ => (none, thread)

/-- The thread after `worker_notify`. -/
def notified (nbrepeats : ℕ) : WorkerThread → WorkerThread
  | .inside test => .inside (test.next nbrepeats)
  | .caught | .ended => .ended

/-- The thread after a step of `Sync` that leads from one control point to another. -/
def goOn (nbrepeats : ℕ) (thread : WorkerThread) : WorkerPc String → WorkerPc String → WorkerThread
  -- `worker_wait` returned false
  | _, .quit => .ended
  -- `worker_notify` returned
  | .depart, .waitStart | .raise, .waitStart => thread.notified nbrepeats
  | _, _ => thread

end WorkerThread

/-- The control points of the master in `measure`. -/
inductive MeasurePc where
  /-- In the round of a test. -/
  | round (test : Test)
  /-- At the label `join`. -/
  | join (error : Option String)
  /-- After `master_join`, with thread `i` to be joined next. -/
  | joining (error : Option String) (i : ℕ)
  /-- `measure` has returned. -/
  | returned (error : Option String)
  /-- An exception has left `measure` in the round of a test. -/
  | threw (test : Test)
  deriving DecidableEq

/-- The master after a step of `master_wait` that leads to `pc` in the round of `test`. -/
def MeasurePc.goOn (nbrepeats : ℕ) (test : Test) (errmsg : Option String) : MasterPc → MeasurePc
  -- `master_wait` returned the runtime
  | .ready => if test = .check then .join none else .round (test.next nbrepeats)
  -- `master_wait` returned an error
  | .failed => .join errmsg
  | .unreachable => .threw test
  | _ => .round test

/-- The synchronization object and the threads of a measurement. -/
structure MeasureState (n : ℕ) where
  /-- `sync`, with the control points of its functions. -/
  sync : SyncState n String
  /-- The worker threads. -/
  thread : Fin n → WorkerThread
  /-- The master. -/
  master : MeasurePc

/-- A step of the master, the end of the time it waits, or a step of a worker. -/
inductive MeasureLabel (n : ℕ) where
  | master
  | timeout
  | worker (i : Fin n) (outcome : CallOutcome)

namespace MeasureState

variable {n : ℕ}

/-- The next step of the master. -/
def masterStep (args : MeasureArgs) (s : MeasureState n) : Option (MeasureState n) :=
  match s.master with
  | .round test =>
    if s.sync.master = .ready then
      s.sync.notify.map fun sync => { s with sync }
    else
      s.sync.masterStep.map fun sync =>
        { s with sync, master := .goOn args.nbrepeats test s.sync.errmsg sync.master }
  | .join error => s.sync.join.map fun sync => { s with sync, master := .joining error 0 }
  | .joining error i =>
    if h : i < n then
      -- `join` returns once the thread has ended
      if s.thread ⟨i, h⟩ = .ended then some { s with master := .joining error (i + 1) } else none
    else
      some { s with master := .returned error }
  | .returned _ | .threw _ => none

/-- `master_wait` throws `BoundedOverrun`. -/
def timeout (args : MeasureArgs) (s : MeasureState n) : Option (MeasureState n) :=
  match s.master with
  | .round test =>
    if s.sync.master = .waiting ∧ s.sync.raised = false ∧ (args.maxtick test).isSome then
      some { s with master := .threw test }
    else
      none
  | _ => none

/-- The next step of a worker thread, with the outcome of the workload if it is called. -/
def workerStep (args : MeasureArgs) (s : MeasureState n) (i : Fin n) (outcome : CallOutcome) :
    Option (MeasureState n) :=
  if s.thread i = .ended then
    none
  else
    let pc := (s.sync.worker i).pc
    let (error, thread) :=
      if pc = .running then (s.thread i).call outcome else (none, s.thread i)
    (s.sync.workerStep i error).map fun sync =>
      { s with
        sync
        thread := Function.update s.thread i (thread.goOn args.nbrepeats pc (sync.worker i).pc) }

end MeasureState

/-- A measurement with `n` worker threads. -/
def measureSystem (args : MeasureArgs) (n : ℕ) :
    LabelledSystem (MeasureState n) (MeasureLabel n) where
  init := {
    sync := (syncSystem n String).init
    thread := fun _ => .inside .init
    master := .round .init }
  step s
    | .master => s.masterStep args
    | .timeout => s.timeout args
    | .worker i outcome => s.workerStep args i outcome

end TransactionalMemory.Grading
