import Mathlib.Algebra.Group.Nat.Defs
import Mathlib.Data.Fintype.Basic
import TransactionalMemory.Foundations.LabelledSystem

/-!
# The spin barrier of the grading program

The class `Barrier` of `grading/common.hpp`: `n` threads call `sync` any number of times. Each
fetch-add and fetch-sub on `step` and each load and store of `mode` is one step, and a control
point of `ThreadPc` names the access about to happen. The counter is an unsigned integer of `w`
bits, and so is the number `n` of threads.

The history variables of a thread, which no step reads, count its calls.
-/

namespace TransactionalMemory.Grading

/-- Mode enum class. -/
inductive Barrier.Mode where
  | enter
  | leave
  deriving DecidableEq

/-- The control points of a thread. -/
inductive ThreadPc where
  /-- Between two calls; `sync` starts with the fetch-add. -/
  | outside
  /-- The last thread to enter stores the mode `leave`. -/
  | setLeave
  /-- Another thread loads the mode until it is `leave`. -/
  | waitLeave
  /-- The fetch-sub. -/
  | fetchSub
  /-- The last thread to leave stores the mode `enter`. -/
  | setEnter
  /-- Another thread loads the mode until it is `enter`. -/
  | waitEnter
  deriving DecidableEq

/-- A thread. -/
structure Thread where
  /-- The next step. -/
  pc : ThreadPc
  /-- History: how often the thread has entered `sync`. -/
  entered : ℕ
  /-- History: how often `sync` has returned. -/
  completed : ℕ

/-- The barrier and the threads. -/
structure BarrierState (n : ℕ) where
  /-- Step counters. -/
  step : ℕ
  /-- Current mode. -/
  mode : Barrier.Mode
  /-- The threads. -/
  thread : Fin n → Thread

namespace BarrierState

variable {n : ℕ}

/-- Let a thread go on. -/
def go (s : BarrierState n) (i : Fin n) (x : Thread) : BarrierState n :=
  { s with thread := Function.update s.thread i x }

/-- The next step of `sync` in a thread. -/
def sync (w : ℕ) (s : BarrierState n) (i : Fin n) : BarrierState n :=
  let x := s.thread i
  match x.pc with
  -- Enter
  | .outside =>
    let step := (s.step + 1) % 2 ^ w
    { s with step }.go i { x with
      pc := if step = n then .setLeave else .waitLeave
      entered := x.entered + 1 }
  | .setLeave => { s with mode := .leave }.go i { x with pc := .fetchSub }
  | .waitLeave => if s.mode = .leave then s.go i { x with pc := .fetchSub } else s
  -- Leave
  | .fetchSub =>
    let step := (s.step + (2 ^ w - 1)) % 2 ^ w
    { s with step }.go i { x with pc := if step = 0 then .setEnter else .waitEnter }
  | .setEnter =>
    { s with mode := .enter }.go i { x with pc := .outside, completed := x.completed + 1 }
  | .waitEnter =>
    if s.mode = .enter then s.go i { x with pc := .outside, completed := x.completed + 1 } else s

/-- The next step of the thread only loads a mode that sends it around its loop again. -/
def Spinning (s : BarrierState n) (i : Fin n) : Prop :=
  (s.thread i).pc = .waitLeave ∧ s.mode ≠ .leave ∨ (s.thread i).pc = .waitEnter ∧ s.mode ≠ .enter

end BarrierState

/-- `n` threads that synchronize on one barrier; a label is the thread taking the next step. -/
def barrierSystem (w n : ℕ) : LabelledSystem (BarrierState n) (Fin n) where
  init := {
    step := 0
    mode := .enter
    thread := fun _ => { pc := .outside, entered := 0, completed := 0 } }
  step s i := some (s.sync w i)

end TransactionalMemory.Grading
