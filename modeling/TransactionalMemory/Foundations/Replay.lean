import Mathlib.Tactic.TypeStar

/-!
# Replaying logs

A sequential object performs one operation at a time and answers it with a reply. A log of
operations with their replies replays from one state to another if the object, performing the
operations in order, gives these replies.

An operation that leaves every state alone is an observer. It may stand at any place of a log after
which there are only observers, with the reply that it has at the end (`Replays.insert`): this is
why operations of parties that only observe may overlap.
-/

/-- A state machine that answers. -/
structure SequentialObject (σ Op Reply : Type*) where
  /-- The state after an operation and the reply to it. -/
  perform : σ → Op → σ × Reply

namespace SequentialObject

variable {σ Op Reply : Type*} {obj : SequentialObject σ Op Reply} {s t u : σ} {op : Op}
  {log log' : List (Op × Reply)}

/-- The log replays from `s` to `t`. -/
def Replays (obj : SequentialObject σ Op Reply) : σ → List (Op × Reply) → σ → Prop
  | s, [], t => s = t
  | s, e :: log, t => (obj.perform s e.1).2 = e.2 ∧ obj.Replays (obj.perform s e.1).1 log t

/-- The operation leaves every state alone. -/
def Observer (obj : SequentialObject σ Op Reply) (op : Op) : Prop :=
  ∀ s, (obj.perform s op).1 = s

/-- A log replays in two parts. -/
theorem replays_append :
    obj.Replays s (log ++ log') u ↔ ∃ t, obj.Replays s log t ∧ obj.Replays t log' u := by
  induction log generalizing s with
  | nil => simp [Replays]
  | cons e log ih => simp [Replays, ih, and_assoc]

/-- A log can be continued with any operation. -/
theorem Replays.concat (h : obj.Replays s log t) (op : Op) :
    obj.Replays s (log ++ [(op, (obj.perform t op).2)]) (obj.perform t op).1 :=
  replays_append.mpr ⟨t, h, rfl, rfl⟩

/-- A log of observers ends where it starts. -/
theorem Replays.of_observers (h : obj.Replays s log t) (hobs : ∀ e ∈ log, obj.Observer e.1) :
    t = s := by
  induction log generalizing s with
  | nil => exact h.symm
  | cons e log ih =>
    rw [List.forall_mem_cons] at hobs
    have htail := ih h.2 hobs.2
    rwa [hobs.1] at htail

/-- An observer may be put in front of observers. -/
theorem Replays.insert (h : obj.Replays s (log ++ log') t) (hobs : ∀ e ∈ log', obj.Observer e.1)
    (hop : obj.Observer op) :
    obj.Replays s (log ++ (op, (obj.perform t op).2) :: log') t := by
  obtain ⟨u, hfirst, hrest⟩ := replays_append.mp h
  obtain rfl := hrest.of_observers hobs
  refine replays_append.mpr ⟨t, hfirst, rfl, ?_⟩
  dsimp only
  rwa [hop]

end SequentialObject
