import Mathlib.Data.List.Induction
import Mathlib.Logic.Function.Basic

/-!
# Programs over words

A `WordProgram` reads and writes the words at some addresses one by one; what it does next may
depend on the words it has read. A loop without a bound is unrolled to some depth, where the
program is `cut`.

* `exec` executes a program alone, from some memory;
* `after` follows a program along a list of accesses, and is what the program has still to do;
* `Replays` says of a list of accesses that from some memory each of them finds the word that it
  reads. A program that can be followed along accesses that replay, executes them
  (`exec_of_after`);
* `execAll` executes several programs one after another.
-/

/-- A program that returns an `R`. -/
inductive WordProgram (A V R : Type) where
  | ret (result : R)
  | read (a : A) (next : V → WordProgram A V R)
  | write (a : A) (val : V) (next : WordProgram A V R)
  /-- The program is not unrolled any further. -/
  | cut

/-- An access of a program. -/
inductive WordAccess (A V : Type) where
  | read (a : A) (val : V)
  | write (a : A) (val : V)

namespace WordProgram

variable {A V R R' ι : Type}

/-- Continue with the result of a program. -/
def bind : WordProgram A V R → (R → WordProgram A V R') → WordProgram A V R'
  | ret result, f => f result
  | read a next, f => read a fun val => (next val).bind f
  | write a val next, f => write a val (next.bind f)
  | cut, _ => cut

instance : Monad (WordProgram A V) where
  pure := ret
  bind := bind

/-- Read a word. -/
def load (a : A) : WordProgram A V V := read a ret

/-- Write a word. -/
def store (a : A) (val : V) : WordProgram A V Unit := write a val (ret ())

variable [DecidableEq A]

/-- Execute a program alone: what it returns, and the memory it leaves. -/
def exec : WordProgram A V R → (A → V) → Option (R × (A → V))
  | ret result, m => some (result, m)
  | read a next, m => (next (m a)).exec m
  | write a val next, m => next.exec (Function.update m a val)
  | cut, _ => none

/-- What a program has still to do after an access, if this is the access that it makes. -/
def advance [DecidableEq V] : WordProgram A V R → WordAccess A V → Option (WordProgram A V R)
  | read a next, .read b val => if a = b then some (next val) else none
  | write a val next, .write b val' => if a = b ∧ val = val' then some next else none
  | _, _ => none

/-- What a program has still to do after some accesses. -/
def after [DecidableEq V] (p : WordProgram A V R) (l : List (WordAccess A V)) :
    Option (WordProgram A V R) :=
  l.foldlM advance p

/-- Execute programs one after another: the memory they leave. -/
def execAll (programs : ι → WordProgram A V R) : List ι → (A → V) → Option (A → V)
  | [], m => some m
  | i :: l, m => ((programs i).exec m).bind fun r => execAll programs l r.2

/-! ## Execution -/

variable {p q : WordProgram A V R} {m m' m'' : A → V} {l l' : List (WordAccess A V)}

/-- A program that continues with another is executed before it. -/
theorem exec_bind (p : WordProgram A V R) (f : R → WordProgram A V R') :
    (p >>= f).exec m = (p.exec m).bind fun r => (f r.1).exec r.2 := by
  induction p generalizing m with
  | ret result => rfl
  | read a next ih => exact ih (m a)
  | write a val next ih => exact ih
  | cut => rfl

/-! ## Accesses -/

/-- The accesses find the words that they read, and lead from one memory to another. -/
def Replays : List (WordAccess A V) → (A → V) → (A → V) → Prop
  | [], m, m' => m' = m
  | .read a val :: l, m, m' => val = m a ∧ Replays l m m'
  | .write a val :: l, m, m' => Replays l (Function.update m a val) m'

/-- Accesses replay in two parts. -/
theorem replays_append : Replays (l ++ l') m m'' ↔ ∃ m', Replays l m m' ∧ Replays l' m' m'' := by
  induction l generalizing m with
  | nil => simp [Replays]
  | cons access l ih =>
    cases access with
    | read a val => simp only [List.cons_append, Replays, ih, and_assoc, exists_and_left]
    | write a val => simp only [List.cons_append, Replays, ih]

section After

variable [DecidableEq V]

/-- Without accesses the whole program is left. -/
@[simp] theorem after_nil (p : WordProgram A V R) : p.after [] = some p := rfl

/-- A program is followed along accesses in two parts. -/
theorem after_append (p : WordProgram A V R) :
    p.after (l ++ l') = (p.after l).bind fun q => q.after l' :=
  List.foldlM_append

/-- A program is followed along one access. -/
theorem after_singleton (p : WordProgram A V R) (access : WordAccess A V) :
    p.after [access] = p.advance access := by
  simp [after]

/-- A program executes the access that it can be followed along. -/
theorem exec_of_advance {access : WordAccess A V} (hnext : p.advance access = some q)
    (h : Replays [access] m m') : p.exec m = q.exec m' := by
  cases p with
  | read a next =>
    cases access with
    | read b val =>
      obtain ⟨rfl, hm⟩ := Option.ite_none_right_eq_some.1 hnext
      obtain ⟨rfl, rfl⟩ := h
      rw [← Option.some.inj hm, exec]
    | write b val => cases hnext
  | write a val next =>
    cases access with
    | read b val' => cases hnext
    | write b val' =>
      obtain ⟨⟨rfl, rfl⟩, hm⟩ := Option.ite_none_right_eq_some.1 hnext
      rw [Replays, Replays] at h
      rw [← Option.some.inj hm, h, exec]
  | ret result => cases access <;> cases hnext
  | cut => cases access <;> cases hnext

/-- A program executes the accesses along which it can be followed, and then what is left of it. -/
theorem exec_of_after (hafter : p.after l = some q) (h : Replays l m m') :
    p.exec m = q.exec m' := by
  induction l using List.reverseRecOn generalizing q m' with
  | nil =>
    obtain rfl := Option.some.inj hafter
    rw [show m' = m from h]
  | append_singleton l access ih =>
    obtain ⟨m₁, hfirst, hlast⟩ := replays_append.1 h
    rw [after_append] at hafter
    obtain ⟨r, hr, hnext⟩ := Option.bind_eq_some_iff.1 hafter
    rw [ih hr hfirst]
    exact exec_of_advance ((after_singleton r access).symm.trans hnext) hlast

end After

/-! ## Programs one after another -/

/-- Programs are executed in two parts. -/
theorem execAll_append (programs : ι → WordProgram A V R) (l l' : List ι) :
    execAll programs (l ++ l') m = (execAll programs l m).bind (execAll programs l') := by
  induction l generalizing m with
  | nil => rfl
  | cons i l ih =>
    rw [List.cons_append, execAll, execAll, Option.bind_assoc]
    exact congrArg _ (funext fun r => ih)

end WordProgram
