import Mathlib.Data.List.Count

/-!
# Items in places

A family of lists holds items: `contents p` is the list of the place `p`. `Placed contents place`
says that an item is in the place that `place` names and nowhere else, and that it is there
exactly once; an item without a place is in no list.

Items are conserved by the three things that happen to them: a new item is put at the end of one
list (`Placed.add`), and one list is moved to the end of another (`Placed.move`); nothing happens
otherwise (`Placed.congr`).
-/

/-- Every item is in its place, once, and nowhere else. -/
def Placed {P G : Type*} [DecidableEq P] [DecidableEq G] (contents : P → List G)
    (place : G → Option P) : Prop :=
  ∀ p g, (contents p).count g = if place g = some p then 1 else 0

namespace Placed

variable {P G : Type*} [DecidableEq P] [DecidableEq G] {contents contents' : P → List G}
  {place place' : G → Option P} {p q : P} {g : G}

/-- An item is in a list exactly if the list is its place. -/
theorem mem_iff (h : Placed contents place) : g ∈ contents p ↔ place g = some p := by
  rw [← List.count_pos_iff, h p g]
  split
  next heq => simp [heq]
  next hne => simp [hne]

/-- What has a place is listed there once. -/
theorem count_eq_one (h : Placed contents place) (hplace : place g = some p) :
    (contents p).count g = 1 := by
  rw [h p g, if_pos hplace]

/-- A place that no item has is empty. -/
theorem eq_nil (h : Placed contents place) (hnone : ∀ g, place g ≠ some p) : contents p = [] :=
  List.eq_nil_iff_forall_not_mem.2 fun g hg => hnone g (h.mem_iff.1 hg)

/-- A placement depends on the contents and places only. -/
theorem congr (h : Placed contents place) (hcontents : ∀ p, contents' p = contents p)
    (hplace : ∀ g, place' g = place g) : Placed contents' place' := by
  intro p g
  rw [hcontents, hplace]
  exact h p g

/-- A new item is put in one place. -/
theorem add (h : Placed contents place) (hnew : place g = none)
    (hself : contents' p = contents p ++ [g]) (hother : ∀ q, q ≠ p → contents' q = contents q)
    (hplace : place' g = some p) (hplace' : ∀ i, i ≠ g → place' i = place i) :
    Placed contents' place' := by
  intro q i
  by_cases hi : i = g
  · subst hi
    by_cases hq : q = p
    · subst hq
      rw [hself, List.count_append, h q i, hnew, hplace]
      simp
    · rw [hother q hq, h q i, hnew, hplace]
      simp [Ne.symm hq]
  · rw [hplace' i hi, ← h q i]
    by_cases hq : q = p
    · subst hq
      rw [hself, List.count_append, List.count_singleton]
      simp [Ne.symm hi]
    · rw [hother q hq]

/-- All items of one place are moved to another. -/
theorem move (h : Placed contents place) (hne : p ≠ q) (hfrom : contents' p = [])
    (hto : contents' q = contents q ++ contents p)
    (hother : ∀ r, r ≠ p → r ≠ q → contents' r = contents r)
    (hmoved : ∀ i, place i = some p → place' i = some q)
    (hkept : ∀ i, place i ≠ some p → place' i = place i) : Placed contents' place' := by
  intro r i
  by_cases hi : place i = some p
  · rw [hmoved i hi]
    by_cases hrp : r = p
    · subst hrp
      simp [hfrom, Ne.symm hne]
    by_cases hrq : r = q
    · subst hrq
      rw [hto, List.count_append, h, h, hi]
      simp [hne]
    · rw [hother r hrp hrq, h, hi]
      simp [Ne.symm hrp, Ne.symm hrq]
  · rw [hkept i hi]
    by_cases hrp : r = p
    · subst hrp
      simp [hfrom, hi]
    by_cases hrq : r = q
    · subst hrq
      rw [hto, List.count_append, h, h, if_neg hi, Nat.add_zero]
    · rw [hother r hrp hrq, h]

end Placed
