import TransactionalMemory.Grading.Barrier

/-!
# The correctness check of the bank workload

`WorkloadBank::check` (`grading/workload.hpp`): `n` threads decrease a shared counter by
transactions, and synchronize on the barrier of the workload before the counter is initialized,
before they start to decrease it and after they are done. Thread 0 initializes the counter and
looks at its final value.

A call of `transactional` is one step here, whose answer is up to the transactional library: the
label names it, and it may also be an exception that leaves `check`. The steps of `barrier.sync` are
those of `barrierSystem`. The history variable `counter` is what the counter would be if each
transaction were executed atomically; `atomicAnswers` are the runs in which the library answers
accordingly.
-/

namespace TransactionalMemory.Grading

/-- The type of the shared counter, `size_t`. -/
abbrev Counter := BitVec 64

/-- Number of transactions per worker. -/
def nbtxperwrk : ℕ := 100

/-- The control points of `check`. -/
inductive CheckPc where
  /-- The first call of `barrier.sync`. -/
  | startSync
  /-- Thread 0 writes the initial value. -/
  | setInitial
  /-- Thread 0 checks that it was written correctly. -/
  | confirm
  /-- Thread 0 has found another value, two calls of `barrier.sync` before it returns. -/
  | giveUp
  /-- The second of them. -/
  | giveUpAgain
  /-- The call of `barrier.sync` before the loop. -/
  | openSync
  /-- The last value of the counter is fetched, in the iteration `i`. -/
  | fetch (i : ℕ)
  /-- The counter is decreased unless it has increased. -/
  | decrease (i : ℕ) (last : Counter)
  /-- The counter has increased, a call of `barrier.sync` before the thread returns. -/
  | failSync
  /-- The call of `barrier.sync` after the loop. -/
  | closeSync
  /-- Thread 0 checks that the counter reached 0. -/
  | conclude
  /-- `check` has returned. -/
  | returned (error : Option String)
  /-- An exception has left `check`. -/
  | threw
  deriving DecidableEq

/-- How a call of `transactional` ends. -/
inductive CheckAnswer where
  | done
  | value (v : Counter)
  | verdict (correct : Bool)
  | exception
  deriving DecidableEq

namespace CheckPc

/-- Where thread `uid` is after a call of `barrier.sync`, if it makes one. -/
def afterSync (uid : ℕ) : CheckPc → Option CheckPc
  | .startSync => some (if uid = 0 then .setInitial else .openSync)
  | .giveUp => some .giveUpAgain
  | .giveUpAgain => some (.returned (some "Violated consistency during initialization"))
  | .openSync => some (.fetch 0)
  | .failSync => some (.returned (some "Violated consistency, isolation or atomicity"))
  | .closeSync => some (if uid = 0 then .conclude else .returned none)
  | _ => none

/-- Where the thread is after its transaction, if it runs one that can end so. -/
def afterTx : CheckPc → CheckAnswer → Option CheckPc
  | .setInitial, .done => some .confirm
  | .confirm, .verdict correct => some (if correct then .openSync else .giveUp)
  | .fetch i, .value v => some (.decrease i v)
  | .decrease i _, .verdict correct =>
    some (if correct then if i + 1 < nbtxperwrk then .fetch (i + 1) else .closeSync else .failSync)
  | .conclude, .verdict correct =>
    some (.returned (if correct then none else some "Violated consistency"))
  | .setInitial, .exception | .confirm, .exception | .fetch _, .exception
  | .decrease _ _, .exception | .conclude, .exception => some .threw
  | _, _ => none

/-- The transaction of a control point, executed atomically by one of `n` threads: its answer and
the new value of the counter. -/
def atomically (n : ℕ) (counter : Counter) : CheckPc → CheckAnswer × Counter
  | .setInitial => (.done, BitVec.ofNat 64 (nbtxperwrk * n))
  | .confirm => (.verdict (counter == BitVec.ofNat 64 (nbtxperwrk * n)), counter)
  | .fetch _ => (.value counter, counter)
  | .decrease _ last =>
    if counter > last then (.verdict false, counter) else (.verdict true, counter - 1)
  | .conclude => (.verdict (counter == 0), counter)
  | _ => (.exception, counter)

end CheckPc

/-- The barrier of the workload and the threads. -/
structure CheckState (n : ℕ) where
  /-- Barrier for thread synchronization during `check`. -/
  barrier : BarrierState n
  /-- The threads. -/
  pc : Fin n → CheckPc
  /-- History: the counter, if the transactions are executed atomically. -/
  counter : Counter

/-- A step of a thread inside `barrier.sync`, or a transaction of a thread. -/
inductive CheckLabel (n : ℕ) where
  | sync (i : Fin n)
  | tx (i : Fin n) (answer : CheckAnswer)

namespace CheckState

variable {n : ℕ}

/-- The next step of `barrier.sync` in a thread that calls it. -/
def sync (w : ℕ) (s : CheckState n) (i : Fin n) : Option (CheckState n) :=
  (CheckPc.afterSync i (s.pc i)).map fun next =>
    let barrier := s.barrier.sync w i
    { s with
      barrier
      -- `sync` has returned
      pc := if (barrier.thread i).pc = .outside then Function.update s.pc i next else s.pc }

/-- The transaction of a thread, with the answer of the library. -/
def tx (s : CheckState n) (i : Fin n) (answer : CheckAnswer) : Option (CheckState n) :=
  (CheckPc.afterTx (s.pc i) answer).map fun next =>
    { s with
      pc := Function.update s.pc i next
      counter := ((s.pc i).atomically n s.counter).2 }

end CheckState

/-- `n` threads in `check`. -/
def checkSystem (w n : ℕ) : LabelledSystem (CheckState n) (CheckLabel n) where
  init := { barrier := (barrierSystem w n).init, pc := fun _ => .startSync, counter := 0 }
  step s
    | .sync i => s.sync w i
    | .tx i answer => s.tx i answer

/-- No exception leaves `check`. -/
def noException {n : ℕ} : CheckState n → CheckLabel n → CheckState n → Prop :=
  fun _ lab _ => ∀ i, lab ≠ .tx i .exception

/-- The step is no exception. -/
def checkNoException {n : ℕ} : CheckState n → CheckLabel n → CheckState n → Bool
  | _, .tx _ answer, _ => answer != .exception
  | _, .sync _, _ => true

/-- A tested step throws no exception. -/
theorem noException_of_check {n : ℕ} {s t : CheckState n} {lab : CheckLabel n}
    (h : checkNoException s lab t = true) : noException s lab t := by
  rintro i rfl
  simp [checkNoException] at h

/-- The library executes every transaction atomically. -/
def atomicAnswers {n : ℕ} : CheckState n → CheckLabel n → CheckState n → Prop :=
  fun s lab _ => ∀ i answer, lab = .tx i answer →
    answer = ((s.pc i).atomically n s.counter).1

/-- The answer is that of an atomic execution. -/
def checkAtomic {n : ℕ} : CheckState n → CheckLabel n → CheckState n → Bool
  | s, .tx i answer, _ => answer == ((s.pc i).atomically n s.counter).1
  | _, .sync _, _ => true

/-- A tested step answers as an atomic transaction. -/
theorem atomicAnswers_of_check {n : ℕ} {s t : CheckState n} {lab : CheckLabel n}
    (h : checkAtomic s lab t = true) : atomicAnswers s lab t := by
  rintro i answer rfl
  simpa [checkAtomic] using h

end TransactionalMemory.Grading
