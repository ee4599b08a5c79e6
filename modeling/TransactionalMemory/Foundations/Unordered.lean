import Mathlib.Data.List.AList

/-!
# Unordered containers

Hash sets and hash maps hold distinct elements, respectively at most one value for a key, and are
traversed in an order that the program does not choose.

* `UnorderedSet α` is a duplicate-free list; `UnorderedMap α β` is an association list with
  distinct keys, Mathlib's `AList`.
* `Traversal α` is an arbitrary reordering of lists. `UnorderedSet.toList τ` and
  `UnorderedMap.toList τ` enumerate a container in the order `τ` picks; what the enumeration
  contains does not depend on `τ` (`mem_toList`, `nodup_toList`).
-/

/-- A traversal order: a reordering of every list. -/
structure Traversal (α : Type*) where
  /-- The list, in the order of the traversal. -/
  order : List α → List α
  /-- A traversal visits every entry exactly once. -/
  perm : ∀ l, (order l).Perm l

namespace Traversal

variable {α : Type*} (τ : Traversal α)

/-- Traversal in the order of the underlying list. -/
def inOrder : Traversal α := ⟨id, fun l => List.Perm.refl l⟩

/-- A traversal visits the elements. -/
@[simp] theorem mem_order {l : List α} {a : α} : a ∈ τ.order l ↔ a ∈ l := (τ.perm l).mem_iff

/-- A traversal visits each element once. -/
@[simp] theorem nodup_order {l : List α} : (τ.order l).Nodup ↔ l.Nodup := (τ.perm l).nodup_iff

/-- There is nothing to visit in an empty list. -/
@[simp] theorem order_nil : τ.order [] = [] := (τ.perm []).eq_nil

end Traversal

/-- A finite set given by its distinct elements. -/
structure UnorderedSet (α : Type*) where
  /-- The elements, each once. -/
  elems : List α
  /-- No element occurs twice. -/
  nodup : elems.Nodup

namespace UnorderedSet

variable {α : Type*} {s : UnorderedSet α} {a b : α} (τ : Traversal α)

instance : Membership α (UnorderedSet α) := ⟨fun s a => a ∈ s.elems⟩

instance : EmptyCollection (UnorderedSet α) := ⟨⟨[], List.nodup_nil⟩⟩

instance [DecidableEq α] (s : UnorderedSet α) (a : α) : Decidable (a ∈ s) :=
  inferInstanceAs (Decidable (a ∈ s.elems))

/-- Add an element, without effect if it is present. -/
def insert [DecidableEq α] (a : α) (s : UnorderedSet α) : UnorderedSet α :=
  ⟨s.elems.insert a, s.nodup.insert⟩

/-- The elements of a set are its members. -/
@[simp] theorem mem_elems : a ∈ s.elems ↔ a ∈ s := Iff.rfl

/-- The empty set has no member. -/
@[simp] theorem not_mem_empty : a ∉ (∅ : UnorderedSet α) := List.not_mem_nil

/-- The members after an insertion. -/
@[simp] theorem mem_insert [DecidableEq α] : a ∈ s.insert b ↔ a = b ∨ a ∈ s :=
  List.mem_insert_iff

/-- The elements in the order of a traversal. -/
def toList (s : UnorderedSet α) : List α := τ.order s.elems

/-- A traversal of a set lists its members. -/
@[simp] theorem mem_toList : a ∈ s.toList τ ↔ a ∈ s := τ.mem_order

/-- A traversal of a set lists each member once. -/
theorem nodup_toList : (s.toList τ).Nodup := τ.nodup_order.2 s.nodup

/-- A traversal of a set is as long as the set. -/
theorem length_toList : (s.toList τ).length = s.elems.length := (τ.perm s.elems).length_eq

/-- An insertion adds at most one element. -/
theorem length_insert_le [DecidableEq α] : (s.insert a).elems.length ≤ s.elems.length + 1 := by
  show (s.elems.insert a).length ≤ s.elems.length + 1
  rw [List.length_insert]
  split <;> omega

end UnorderedSet

/-- A finite map with distinct keys. -/
abbrev UnorderedMap (α β : Type*) := AList (fun _ : α => β)

namespace UnorderedMap

variable {α β : Type*} {m : UnorderedMap α β} {a b : α} {x y : β} (τ : Traversal (α × β))

/-- The entries in the order of a traversal. -/
def toList (m : UnorderedMap α β) : List (α × β) :=
  τ.order (m.entries.map fun e => (e.1, e.2))

/-- The keys of a list of entries. -/
abbrev keysOf (l : List (α × β)) : List α := l.map Prod.fst

/-- A key is one of a pair. -/
theorem mem_keysOf {l : List (α × β)} : a ∈ keysOf l ↔ ∃ x, (a, x) ∈ l := by
  simp [keysOf]

/-- A traversal of a map lists its entries. -/
theorem mem_toList_iff_mem_entries : (a, x) ∈ m.toList τ ↔ (⟨a, x⟩ : (_ : α) × β) ∈ m.entries := by
  rw [toList, Traversal.mem_order, List.mem_map]
  constructor
  · rintro ⟨⟨b, y⟩, hmem, heq⟩
    obtain ⟨rfl, rfl⟩ := Prod.mk.inj heq
    exact hmem
  · exact fun hmem => ⟨⟨a, x⟩, hmem, rfl⟩

/-- A traversal meets exactly the entries of the map. -/
@[simp] theorem mem_toList [DecidableEq α] : (a, x) ∈ m.toList τ ↔ m.lookup a = some x := by
  rw [mem_toList_iff_mem_entries, ← AList.mem_lookup_iff, Option.mem_def]

/-- A traversal of a map is as long as the map. -/
theorem length_toList : (m.toList τ).length = m.entries.length := by
  rw [toList, (τ.perm _).length_eq, List.length_map]

/-- A traversal meets every key once. -/
theorem nodup_keysOf_toList : (keysOf (m.toList τ)).Nodup := by
  have hperm : (keysOf (m.toList τ)).Perm m.keys := by
    have h := (τ.perm (m.entries.map fun e => (e.1, e.2))).map Prod.fst
    simpa [keysOf, toList, AList.keys, List.keys, Function.comp_def] using h
  exact hperm.nodup_iff.2 m.keys_nodup

/-- The keys that a traversal lists are those of the map. -/
@[simp] theorem mem_keysOf_toList : a ∈ keysOf (m.toList τ) ↔ a ∈ m := by
  rw [mem_keysOf, AList.mem_keys]
  simp only [mem_toList_iff_mem_entries, AList.keys, List.mem_keys]

/-- A key is one that a lookup finds. -/
theorem mem_iff_lookup [DecidableEq α] : a ∈ m ↔ ∃ x, m.lookup a = some x := by
  rw [← AList.lookup_isSome, Option.isSome_iff_exists]

end UnorderedMap
