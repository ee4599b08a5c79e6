import Mathlib.Data.Fintype.Card

/-!
# Counting the members of a family

`countOf p f` is the number of members of a finite family `f` with the property `p`. It is the
value of a counter that every party advances when it reaches `p` and takes back when it leaves: one
more party makes it one larger (`countOf_update_new`), one party less makes it one smaller
(`countOf_update_lost`), and it is the number of parties once all have reached `p`
(`countOf_eq_card_iff`).
-/

variable {ι α : Type*} [Fintype ι] {p : α → Prop} [DecidablePred p] {f : ι → α} {i : ι} {x : α}

/-- The number of members with a property. -/
def countOf (p : α → Prop) [DecidablePred p] (f : ι → α) : ℕ :=
  (Finset.univ.filter fun i => p (f i)).card

/-- At most all are counted. -/
theorem countOf_le (p : α → Prop) [DecidablePred p] (f : ι → α) : countOf p f ≤ Fintype.card ι :=
  Finset.card_le_univ _

/-- All are counted exactly if all satisfy the predicate. -/
theorem countOf_eq_card_iff : countOf p f = Fintype.card ι ↔ ∀ i, p (f i) := by
  rw [countOf, Finset.card_eq_iff_eq_univ, Finset.filter_eq_self]
  simp

/-- As long as the count is not full, some member is missing. -/
theorem exists_not_of_countOf_lt (h : countOf p f < Fintype.card ι) : ∃ i, ¬ p (f i) := by
  by_contra hall
  exact h.ne (countOf_eq_card_iff.mpr (not_exists_not.mp hall))

/-- None is counted exactly if none satisfies the predicate. -/
theorem countOf_eq_zero_iff : countOf p f = 0 ↔ ∀ i, ¬ p (f i) := by
  rw [countOf, Finset.card_eq_zero, Finset.filter_eq_empty_iff]
  simp

section Update

variable [DecidableEq ι]

/-- A member that gets the property. -/
theorem countOf_update_new (hold : ¬ p (f i)) (hnew : p x) :
    countOf p (Function.update f i x) = countOf p f + 1 := by
  have hnot : i ∉ Finset.univ.filter fun j => p (f j) := by simpa using hold
  rw [countOf, countOf, ← Finset.card_insert_of_notMem hnot]
  congr 1
  ext j
  by_cases hj : j = i
  · subst hj
    simpa using hnew
  · simp [hj]

/-- A member that loses the property. -/
theorem countOf_update_lost (hold : p (f i)) (hnew : ¬ p x) :
    countOf p (Function.update f i x) + 1 = countOf p f := by
  have hnot : ¬ p (Function.update f i x i) := by simpa using hnew
  rw [← countOf_update_new hnot hold, Function.update_idem, Function.update_eq_self]

/-- A member that keeps what it has. -/
theorem countOf_update_same (h : p x ↔ p (f i)) :
    countOf p (Function.update f i x) = countOf p f := by
  rw [countOf, countOf]
  congr 1
  ext j
  by_cases hj : j = i
  · subst hj
    simpa using h
  · simp [hj]

end Update
