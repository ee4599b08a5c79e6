import Mathlib.Order.Lattice

/-!
# Versioned writes

A multi-version memory without a representation: a family of writers, each with a version and
the values it wrote. `ReadsAt d v a y` says that `y` is what a reader of version `v` should see
at `a`: the value of the writer of `a` with the greatest version up to `v`, and `d` if there is
none. `Latest d a y` is the same without a bound.

* `ReadsAt.unique`, `Latest.unique`: the value is determined if distinct writers have distinct
  versions;
* `ReadsAt.later`, `ReadsAt.congr`: writers with versions above `v` do not matter;
* `Latest.readsAt_of_restrict`: the latest value of the writers up to `v` is the one read at `v`;
* `Latest.readsAt` and `Latest.write`: how the latest value relates to the value at a version,
  and how it changes when the writer with the greatest version is added.
-/

/-- Writers, the values they write, and their versions. -/
structure VersionedWrites (ι α β κ : Type*) where
  /-- Writer `i` wrote `y` at `a`. -/
  wrote : ι → α → β → Prop
  /-- The version of a writer. -/
  version : ι → κ

namespace VersionedWrites

variable {ι α β κ : Type*} [LinearOrder κ] {W W' : VersionedWrites ι α β κ} {d y z : β} {v : κ}
  {a : α} {i : ι}

/-- Distinct writers of an address have distinct versions, and no writer writes two values at
one address. -/
structure Functional (W : VersionedWrites ι α β κ) : Prop where
  injective : ∀ {i j a y z}, W.wrote i a y → W.wrote j a z → W.version i = W.version j → i = j
  value : ∀ {i a y z}, W.wrote i a y → W.wrote i a z → y = z

/-- `y` is the value at `a` of the writer with the greatest version up to `v`, or `d` if no such
writer exists. -/
def ReadsAt (W : VersionedWrites ι α β κ) (d : β) (v : κ) (a : α) (y : β) : Prop :=
  (y = d ∧ ∀ i z, W.wrote i a z → v < W.version i) ∨
  ∃ i, W.wrote i a y ∧ W.version i ≤ v ∧
    ∀ j z, W.wrote j a z → W.version j ≤ v → W.version j ≤ W.version i

/-- `y` is the value at `a` of the writer with the greatest version, or `d` if nobody wrote. -/
def Latest (W : VersionedWrites ι α β κ) (d : β) (a : α) (y : β) : Prop :=
  (y = d ∧ ∀ i z, ¬ W.wrote i a z) ∨
  ∃ i, W.wrote i a y ∧ ∀ j z, W.wrote j a z → W.version j ≤ W.version i

/-- If versions are distinct, a reader of some version sees one value. -/
theorem ReadsAt.unique (hW : W.Functional) (hy : W.ReadsAt d v a y) (hz : W.ReadsAt d v a z) :
    y = z := by
  rcases hy with ⟨rfl, hnone⟩ | ⟨i, hi, hiv, himax⟩
  · rcases hz with ⟨rfl, -⟩ | ⟨j, hj, hjv, -⟩
    · rfl
    · exact absurd hjv (not_le_of_gt (hnone j z hj))
  · rcases hz with ⟨rfl, hnone⟩ | ⟨j, hj, hjv, hjmax⟩
    · exact absurd hiv (not_le_of_gt (hnone i y hi))
    · obtain rfl : i = j :=
        hW.injective hi hj (le_antisymm (hjmax i y hi hiv) (himax j z hj hjv))
      exact hW.value hi hj

/-- If versions are distinct, there is one latest value. -/
theorem Latest.unique (hW : W.Functional) (hy : W.Latest d a y) (hz : W.Latest d a z) :
    y = z := by
  rcases hy with ⟨rfl, hnone⟩ | ⟨i, hi, himax⟩
  · rcases hz with ⟨rfl, -⟩ | ⟨j, hj, -⟩
    · rfl
    · exact absurd hj (hnone j z)
  · rcases hz with ⟨rfl, hnone⟩ | ⟨j, hj, hjmax⟩
    · exact absurd hi (hnone i y)
    · obtain rfl : i = j := hW.injective hi hj (le_antisymm (hjmax i y hi) (himax j z hj))
      exact hW.value hi hj

/-- Writers with versions above `v` do not change what a reader of version `v` sees. -/
theorem ReadsAt.later
    (hkeep : ∀ i z, W.wrote i a z → W'.wrote i a z ∧ W'.version i = W.version i)
    (hnew : ∀ i z, W'.wrote i a z → W.wrote i a z ∨ v < W'.version i)
    (h : W.ReadsAt d v a y) : W'.ReadsAt d v a y := by
  rcases h with ⟨hd, hnone⟩ | ⟨i, hi, hiv, hmax⟩
  · refine .inl ⟨hd, fun i z hi => ?_⟩
    rcases hnew i z hi with hold | hlt
    · rw [(hkeep i z hold).2]
      exact hnone i z hold
    · exact hlt
  · refine .inr ⟨i, (hkeep i y hi).1, by rwa [(hkeep i y hi).2], fun j z hj hjv => ?_⟩
    rcases hnew j z hj with hold | hlt
    · rw [(hkeep j z hold).2] at hjv ⊢
      rw [(hkeep i y hi).2]
      exact hmax j z hold hjv
    · exact absurd hjv (not_le_of_gt hlt)

/-- What a reader of version `v` sees depends only on the writers up to `v`. -/
theorem ReadsAt.congr
    (hiff : ∀ i z, W'.wrote i a z ∧ W'.version i ≤ v ↔ W.wrote i a z ∧ W.version i ≤ v)
    (hversion : ∀ i z, W.wrote i a z → W.version i ≤ v → W'.version i = W.version i)
    (h : W.ReadsAt d v a y) : W'.ReadsAt d v a y := by
  rcases h with ⟨hd, hnone⟩ | ⟨i, hi, hiv, hmax⟩
  · refine .inl ⟨hd, fun i z hi => lt_of_not_ge fun hle => ?_⟩
    obtain ⟨hi', hle'⟩ := (hiff i z).1 ⟨hi, hle⟩
    exact absurd hle' (not_le_of_gt (hnone i z hi'))
  · obtain ⟨hi', hiv'⟩ := (hiff i y).2 ⟨hi, hiv⟩
    refine .inr ⟨i, hi', hiv', fun j z hj hjv => ?_⟩
    obtain ⟨hj', hjv'⟩ := (hiff j z).1 ⟨hj, hjv⟩
    rw [hversion j z hj' hjv', hversion i y hi hiv]
    exact hmax j z hj' hjv'

/-- The writers that satisfy `p`. -/
def restrict (W : VersionedWrites ι α β κ) (p : ι → Prop) : VersionedWrites ι α β κ where
  wrote i a y := p i ∧ W.wrote i a y
  version := W.version

/-- The latest value of the writers up to `v` is what a reader of version `v` sees. -/
theorem Latest.readsAt_of_restrict {p : ι → Prop} (h : (W.restrict p).Latest d a y)
    (hp : ∀ i z, W.wrote i a z → (p i ↔ W.version i ≤ v)) : W.ReadsAt d v a y := by
  rcases h with ⟨hd, hnone⟩ | ⟨i, hi, hmax⟩
  · refine .inl ⟨hd, fun i z hi => lt_of_not_ge fun hle => ?_⟩
    exact hnone i z ⟨(hp i z hi).2 hle, hi⟩
  · exact .inr ⟨i, hi.2, (hp i y hi.2).1 hi.1,
      fun j z hj hjv => hmax j z ⟨(hp j z hj).2 hjv, hj⟩⟩

/-- If the latest writer is at most at `v`, a reader of version `v` sees the latest value. -/
theorem Latest.readsAt (h : W.Latest d a y) (hle : ∀ i, W.wrote i a y → W.version i ≤ v) :
    W.ReadsAt d v a y := by
  rcases h with ⟨hd, hnone⟩ | ⟨i, hi, hmax⟩
  · exact .inl ⟨hd, fun i z hi => absurd hi (hnone i z)⟩
  · exact .inr ⟨i, hi, hle i hi, fun j z hj _ => hmax j z hj⟩

/-- The latest value depends only on the writers of its address. -/
theorem Latest.congr (hiff : ∀ i z, W'.wrote i a z ↔ W.wrote i a z)
    (hversion : ∀ i z, W.wrote i a z → W'.version i = W.version i) (h : W.Latest d a y) :
    W'.Latest d a y := by
  rcases h with ⟨hd, hnone⟩ | ⟨i, hi, hmax⟩
  · exact .inl ⟨hd, fun i z hi => hnone i z ((hiff i z).1 hi)⟩
  · refine .inr ⟨i, (hiff i y).2 hi, fun j z hj => ?_⟩
    have hj' := (hiff j z).1 hj
    rw [hversion j z hj', hversion i y hi]
    exact hmax j z hj'

/-- The write of a writer whose version is the greatest becomes the latest value. -/
theorem Latest.write (hi : W.wrote i a y)
    (hmax : ∀ j z, W.wrote j a z → W.version j ≤ W.version i) : W.Latest d a y :=
  .inr ⟨i, hi, hmax⟩

end VersionedWrites
