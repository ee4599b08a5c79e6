import Mathlib.Data.List.Induction

/-!
# Labelled systems

A labelled system is an initial state together with a partial step function: in state `s` the
label `a` either is refused (`none`) or leads to one state. Interleavings of several parties are
modelled by labels that name the party taking the step.

* `Run ok s as t`: the labels `as` lead from `s` to `t` and every step taken satisfies `ok`, a
  side condition on the state before the step, its label and the state after it;
* `Reachable ok s`: some run leads from the initial state to `s`;
* `Run.simulate` is the rule of forward simulation between two systems with the same labels;
* `Reachable.invariant` and `Run.invariant` are the induction rules for state properties, and
  `Run.history` is the one for properties of the labels taken so far together with the state.
-/

/-- An initial state and a partial step function. -/
structure LabelledSystem (S A : Type*) where
  /-- The state every run starts in. -/
  init : S
  /-- The state a label leads to, or `none` if the label is not enabled. -/
  step : S → A → Option S

namespace LabelledSystem

variable {S A : Type*} {sys : LabelledSystem S A} {ok ok' : S → A → S → Prop}
  {s t u : S} {as bs : List A} {a : A}

/-- `Run ok s as t`: the labels `as`, taken in order, lead from `s` to `t`, and every step
satisfies the side condition `ok`. -/
inductive Run (sys : LabelledSystem S A) (ok : S → A → S → Prop) : S → List A → S → Prop
  | nil (s : S) : Run sys ok s [] s
  | snoc {s t u : S} {as : List A} {a : A} :
      Run sys ok s as t → sys.step t a = some u → ok t a u → Run sys ok s (as ++ [a]) u

/-- States reached from the initial state by steps that satisfy `ok`. -/
def Reachable (sys : LabelledSystem S A) (ok : S → A → S → Prop) (s : S) : Prop :=
  ∃ as, sys.Run ok sys.init as s

/-- The side condition that every step satisfies. -/
def always : S → A → S → Prop := fun _ _ _ => True

namespace Run

/-- One step is a run. -/
theorem single (hstep : sys.step s a = some t) (hok : ok s a t) : sys.Run ok s [a] t := by
  simpa using Run.snoc (Run.nil s) hstep hok

/-- Runs compose. -/
theorem append (h : sys.Run ok s as t) (h' : sys.Run ok t bs u) : sys.Run ok s (as ++ bs) u := by
  induction h' with
  | nil => simpa using h
  | snoc _ hstep hok ih =>
    rw [← List.append_assoc]
    exact ih.snoc hstep hok

/-- A step in front of a run. -/
theorem cons (hstep : sys.step s a = some t) (hok : ok s a t) (h : sys.Run ok t as u) :
    sys.Run ok s (a :: as) u := by
  simpa using (single hstep hok).append h

/-- A run satisfying a side condition satisfies every weaker one. -/
theorem mono (hle : ∀ s a t, ok s a t → ok' s a t) (h : sys.Run ok s as t) :
    sys.Run ok' s as t := by
  induction h with
  | nil => exact Run.nil _
  | snoc _ hstep hok ih => exact ih.snoc hstep (hle _ _ _ hok)

/-- A run satisfies what its side condition amounts to in the states of an invariant. -/
theorem strengthen {I : S → Prop} (h : sys.Run ok s as t) (hs : I s)
    (hstep : ∀ u a v, I u → sys.step u a = some v → ok u a v → I v)
    (hok : ∀ u a v, I u → ok u a v → ok' u a v) : sys.Run ok' s as t ∧ I t := by
  induction h with
  | nil => exact ⟨nil _, hs⟩
  | snoc _ hst hold ih =>
    obtain ⟨hrun, hI⟩ := ih
    exact ⟨hrun.snoc hst (hok _ _ _ hI hold), hstep _ _ _ hI hst hold⟩

/-- The last step of a nonempty run. -/
theorem of_concat (h : sys.Run ok s (as ++ [a]) u) :
    ∃ t, sys.Run ok s as t ∧ sys.step t a = some u ∧ ok t a u := by
  generalize hcs : as ++ [a] = cs at h
  cases h with
  | nil => simp at hcs
  | snoc hrun hstep hok =>
    obtain ⟨rfl, hlast⟩ := List.append_inj' hcs rfl
    obtain rfl : a = _ := by simpa using hlast
    exact ⟨_, hrun, hstep, hok⟩

/-- The labels of a run determine the state it ends in. -/
theorem eq_of_run (h : sys.Run ok s as t) (h' : sys.Run ok' s as u) : t = u := by
  induction h generalizing u with
  | nil =>
    generalize hcs : ([] : List A) = cs at h'
    cases h' with
    | nil => rfl
    | snoc => simp at hcs
  | snoc _ hstep _ ih =>
    obtain ⟨v, hrun, hstep', -⟩ := h'.of_concat
    rw [ih hrun, hstep'] at hstep
    exact (Option.some.inj hstep).symm

/-- A run over a concatenation passes through an intermediate state. -/
theorem split (h : sys.Run ok s (as ++ bs) u) :
    ∃ t, sys.Run ok s as t ∧ sys.Run ok t bs u := by
  -- the second half is taken apart from its end, as a run is built
  induction bs using List.reverseRecOn generalizing u with
  | nil => exact ⟨u, by simpa using h, Run.nil u⟩
  | append_singleton bs b ih =>
    rw [← List.append_assoc] at h
    obtain ⟨v, hrun, hstep, hok⟩ := h.of_concat
    obtain ⟨t, hfirst, hrest⟩ := ih hrun
    exact ⟨t, hfirst, hrest.snoc hstep hok⟩

/-- The first step of a nonempty run. -/
theorem of_cons (h : sys.Run ok s (a :: as) u) :
    ∃ t, sys.step s a = some t ∧ ok s a t ∧ sys.Run ok t as u := by
  obtain ⟨t, hfirst, hrest⟩ : ∃ t, sys.Run ok s ([] ++ [a]) t ∧ sys.Run ok t as u := h.split
  obtain ⟨v, hnil, hstep, hok⟩ := hfirst.of_concat
  have hsame : sys.Run ok s [] s := Run.nil s
  obtain rfl := hnil.eq_of_run hsame
  exact ⟨t, hstep, hok, hrest⟩

/-- A state property kept by every step of a run holds at its end. -/
theorem invariant {I : S → Prop} (h : sys.Run ok s as t)
    (hstep : ∀ u a v, I u → sys.step u a = some v → ok u a v → I v) (hs : I s) : I t := by
  induction h with
  | nil => exact hs
  | snoc _ hst hok ih => exact hstep _ _ _ ih hst hok

/-- A property of the labels taken so far and the state they led to: it holds at the start of
a run and is kept by every further step, hence it holds of the whole run. -/
theorem history {P : List A → S → Prop} (h : sys.Run ok s as t) (hnil : P [] s)
    (hstep : ∀ cs u a v, sys.Run ok s cs u → P cs u → sys.step u a = some v → ok u a v →
      P (cs ++ [a]) v) : P as t := by
  induction h with
  | nil => exact hnil
  | snoc hrun hst hok ih => exact hstep _ _ _ _ hrun ih hst hok

/-- Forward simulation: if every step of one system can be answered by a step of the other with
the same label, so that related states stay related, then so can every run. -/
theorem simulate {S' : Type*} {sys' : LabelledSystem S' A} {R : S → S' → Prop} {s' : S'}
    (h : sys.Run ok s as t)
    (hstep : ∀ u a v u', R u u' → sys.step u a = some v → ok u a v →
      ∃ v', sys'.step u' a = some v' ∧ R v v')
    (hs : R s s') : ∃ t', sys'.Run always s' as t' ∧ R t t' := by
  induction h with
  | nil => exact ⟨s', nil s', hs⟩
  | snoc _ hst hok ih =>
    -- the other system answers the steps before, and then this one
    obtain ⟨u', hrun, hu⟩ := ih
    obtain ⟨v', hst', hv⟩ := hstep _ _ _ _ hu hst hok
    exact ⟨v', hrun.snoc hst' trivial, hv⟩

end Run

namespace Reachable

/-- The initial state is reachable. -/
theorem init : sys.Reachable ok sys.init := ⟨[], Run.nil _⟩

/-- A step leads from a reachable state to a reachable one. -/
theorem step (h : sys.Reachable ok s) (hstep : sys.step s a = some t) (hok : ok s a t) :
    sys.Reachable ok t := by
  obtain ⟨as, hrun⟩ := h
  exact ⟨as ++ [a], hrun.snoc hstep hok⟩

/-- So does a run. -/
theorem run (h : sys.Reachable ok s) (hrun : sys.Run ok s as t) : sys.Reachable ok t := by
  obtain ⟨bs, hbs⟩ := h
  exact ⟨bs ++ as, hbs.append hrun⟩

/-- What is reachable under a side condition is so under every weaker one. -/
theorem mono (hle : ∀ s a t, ok s a t → ok' s a t) (h : sys.Reachable ok s) :
    sys.Reachable ok' s := by
  obtain ⟨as, hrun⟩ := h
  exact ⟨as, hrun.mono hle⟩

/-- The invariant rule: a property that holds initially and is kept by every step out of a
reachable state holds of every reachable state. -/
theorem invariant {I : S → Prop} (hinit : I sys.init)
    (hstep : ∀ s a t, sys.Reachable ok s → I s → sys.step s a = some t → ok s a t → I t)
    (h : sys.Reachable ok s) : I s := by
  obtain ⟨as, hrun⟩ := h
  induction hrun with
  | nil => exact hinit
  | snoc hrun hst hok ih => exact hstep _ _ _ ⟨_, hrun⟩ ih hst hok

end Reachable

/-- Execute a list of labels, `none` as soon as one is refused or its step fails `check`. -/
def exec (sys : LabelledSystem S A) (check : S → A → S → Bool) : S → List A → Option S
  | s, [] => some s
  | s, a :: as =>
    (sys.step s a).bind fun t => if check s a t then sys.exec check t as else none

/-- A successful execution is a run whose steps satisfy what was checked. -/
theorem run_of_exec {check : S → A → S → Bool} (hcheck : ∀ s a t, check s a t = true → ok s a t)
    (h : sys.exec check s as = some t) : sys.Run ok s as t := by
  induction as generalizing s with
  | nil =>
    obtain rfl : s = t := by simpa [exec] using h
    exact Run.nil s
  | cons a as ih =>
    simp only [exec, Option.bind_eq_some_iff] at h
    obtain ⟨u, hstep, hrest⟩ := h
    -- the check decides whether the execution goes on
    split at hrest
    next hc => exact Run.cons hstep (hcheck _ _ _ hc) (ih hrest)
    next => cases hrest

/-- The state a successful execution from the initial state ends in is reachable. -/
theorem reachable_of_exec {check : S → A → S → Bool}
    (hcheck : ∀ s a t, check s a t = true → ok s a t)
    (h : (sys.exec check sys.init as).isSome) :
    sys.Reachable ok ((sys.exec check sys.init as).get h) :=
  ⟨as, run_of_exec hcheck (Option.eq_some_of_isSome h)⟩

end LabelledSystem
