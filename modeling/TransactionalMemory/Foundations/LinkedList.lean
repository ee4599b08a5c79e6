import Mathlib.Algebra.BigOperators.Group.List.Basic
import Mathlib.Data.List.Perm.Subperm
import Mathlib.Tactic.Abel

/-!
# Linked lists

A store maps addresses to nodes, and a node links to an address or to nothing. `Links node next
p l q` says that following the links from `p` visits the nodes in `l`, with their addresses, and
then arrives at `q`. A list that ends, `Links node next p l none`, visits no address twice
(`Links.nodup`), and so is not longer than any list of addresses that has all of its own.

A store is changed in two ways: the end of a list is replaced, and its front is not touched
(`Links.splice`), or one node is replaced by a node with the same link (`Links.replace`).
-/

variable {P N : Type*}

/-- Following the links from `p` visits the nodes of the list and arrives at `q`. -/
def Links (node : P → Option N) (next : N → Option P) : Option P → List (P × N) → Option P → Prop
  | p, [], q => p = q
  | p, e :: l, q => p = some e.1 ∧ node e.1 = some e.2 ∧ Links node next (next e.2) l q

variable {node node' : P → Option N} {next : N → Option P} {p q r : Option P} {e : P × N}
  {l l' : List (P × N)}

/-- An empty path ends where it starts. -/
@[simp] theorem links_nil : Links node next p [] q ↔ p = q := Iff.rfl

/-- A path starts with a node and goes on where its link leads. -/
@[simp] theorem links_cons : Links node next p (e :: l) q ↔
    p = some e.1 ∧ node e.1 = some e.2 ∧ Links node next (next e.2) l q := Iff.rfl

/-- Lists are appended where the first one arrives. -/
theorem links_append :
    Links node next p (l ++ l') q ↔ ∃ r, Links node next p l r ∧ Links node next r l' q := by
  induction l generalizing p with
  | nil => simp
  | cons e l ih => simp only [List.cons_append, links_cons, ih, exists_and_left, and_assoc]

namespace Links

/-- The nodes on a path are in memory. -/
theorem node_of_mem (h : Links node next p l q) (he : e ∈ l) : node e.1 = some e.2 := by
  induction l generalizing p with
  | nil => cases he
  | cons e' l ih =>
    rcases List.mem_cons.1 he with rfl | he
    · exact h.2.1
    · exact ih h.2.2 he

/-- The nodes of a list that ends are determined by where it starts. -/
theorem unique (h : Links node next p l none) (h' : Links node next p l' none) : l = l' := by
  induction l generalizing p l' with
  | nil =>
    cases l' with
    | nil => rfl
    | cons e' l' =>
      rw [links_nil.1 h] at h'
      cases h'.1
  | cons e l ih =>
    cases l' with
    | nil =>
      rw [links_nil.1 h'] at h
      cases h.1
    | cons e' l' =>
      have haddr : e.1 = e'.1 := Option.some.inj (h.1.symm.trans h'.1)
      have hnode : e.2 = e'.2 := by
        apply Option.some.inj
        rw [← h.2.1, ← h'.2.1, haddr]
      have htail := h'.2.2
      -- the same node is followed by the same link
      rw [← hnode] at htail
      rw [Prod.ext haddr hnode, ih h.2.2 htail]

/-- A list that ends visits no address twice. -/
theorem nodup (h : Links node next p l none) : (l.map Prod.fst).Nodup := by
  induction l generalizing p with
  | nil => exact List.nodup_nil
  | cons e l ih =>
    refine List.nodup_cons.2 ⟨fun hmem => ?_, ih h.2.2⟩
    obtain ⟨e', he', heq⟩ := List.mem_map.1 hmem
    -- from the second visit on, the list would have to be the same again
    obtain ⟨front, back, rfl⟩ := List.append_of_mem he'
    obtain ⟨r, -, hsuffix⟩ := links_append.1 h.2.2
    have hsame : e :: (front ++ e' :: back) = e' :: back := by
      apply h.unique (p := p)
      rw [h.1, ← heq, ← hsuffix.1]
      exact hsuffix
    have hlength := congrArg List.length hsame
    simp only [List.length_cons, List.length_append] at hlength
    omega

/-- A list that ends is not longer than the addresses of the store. -/
theorem length_le (h : Links node next p l none) {addrs : List P}
    (haddrs : ∀ a, (node a).isSome → a ∈ addrs) : l.length ≤ addrs.length := by
  -- every address visited holds a node
  have hsub : l.map Prod.fst ⊆ addrs := by
    intro a ha
    obtain ⟨e, he, rfl⟩ := List.mem_map.1 ha
    exact haddrs _ (by rw [h.node_of_mem he]; rfl)
  rw [← List.length_map (f := Prod.fst)]
  exact (List.subperm_of_subset h.nodup hsub).length_le

/-- A change at other addresses. -/
theorem congr (h : Links node next p l q) (hnode : ∀ e ∈ l, node' e.1 = node e.1) :
    Links node' next p l q := by
  induction l generalizing p with
  | nil => exact h
  | cons e l ih =>
    refine ⟨h.1, ?_, ih h.2.2 fun e' he' => hnode e' (List.mem_cons_of_mem _ he')⟩
    rw [hnode e List.mem_cons_self, h.2.1]

/-- The end of a list, from one of its nodes on, is replaced. -/
theorem splice {front back rest : List (P × N)} (h : Links node next p (front ++ e :: rest) q)
    (hnode : ∀ e ∈ front, node' e.1 = node e.1) (hback : Links node' next (some e.1) back r) :
    Links node' next p (front ++ back) r := by
  obtain ⟨s, hfront, hrest⟩ := links_append.1 h
  obtain rfl := hrest.1
  exact links_append.2 ⟨_, hfront.congr hnode, hback⟩

end Links

/-- Replace the node at one address. -/
def replaceNode [DecidableEq P] (a : P) (n : N) (l : List (P × N)) : List (P × N) :=
  l.map fun e => if e.1 = a then (a, n) else e

section Replace

variable [DecidableEq P] {a : P} {n n' : N}

/-- Without the node nothing is replaced. -/
theorem replaceNode_of_not_mem (h : a ∉ l.map Prod.fst) : replaceNode a n l = l := by
  refine (List.map_congr_left fun e he => if_neg ?_).trans (List.map_id l)
  rintro rfl
  exact h (List.mem_map_of_mem he)

/-- The nodes after a replacement: the new one and the others. -/
theorem mem_replaceNode {e' : P × N} : e' ∈ replaceNode a n l ↔
    (e' = (a, n) ∧ a ∈ l.map Prod.fst) ∨ (e' ∈ l ∧ e'.1 ≠ a) := by
  simp only [replaceNode, List.mem_map]
  constructor
  · rintro ⟨e, he, rfl⟩
    split
    next hea => exact .inl ⟨rfl, e, he, hea⟩
    next hea => exact .inr ⟨he, hea⟩
  · rintro (⟨rfl, e, he, hea⟩ | ⟨he, hea⟩)
    · exact ⟨e, he, if_pos hea⟩
    · exact ⟨e', he, if_neg hea⟩

/-- What the nodes keep in common with the one that replaces them does not change. -/
theorem map_replaceNode {B : Type*} (f : N → B) (h : ∀ m, (a, m) ∈ l → f m = f n) :
    ((replaceNode a n l).map fun e => f e.2) = l.map fun e => f e.2 := by
  rw [replaceNode, List.map_map]
  apply List.map_congr_left
  rintro ⟨b, m⟩ he
  show f (if b = a then (a, n) else (b, m)).2 = f m
  split
  next hba =>
    subst hba
    exact (h m he).symm
  next => rfl

/-- A node with the same link takes the place of another. -/
theorem Links.replace (h : Links node next p l q) (hlink : ∀ m, node a = some m → next n = next m)
    (hself : node' a = some n) (hother : ∀ b, b ≠ a → node' b = node b) :
    Links node' next p (replaceNode a n l) q := by
  induction l generalizing p with
  | nil => exact h
  | cons e l ih =>
    show Links node' next p ((if e.1 = a then (a, n) else e) :: replaceNode a n l) q
    -- the first node is the one replaced, or stays
    split
    next hea =>
      refine ⟨by rw [h.1, hea], hself, ?_⟩
      show Links node' next (next n) _ q
      rw [hlink e.2 (by rw [← hea, h.2.1])]
      exact ih h.2.2
    next hea => exact ⟨h.1, by rw [hother _ hea, h.2.1], ih h.2.2⟩

/-- What the replacement does to a sum over the nodes. -/
theorem sum_replaceNode {M : Type*} [AddCommGroup M] (weight : N → M)
    (hnodup : (l.map Prod.fst).Nodup) (hmem : (a, n) ∈ l) :
    ((replaceNode a n' l).map fun e => weight e.2).sum =
      (l.map fun e => weight e.2).sum + (weight n' - weight n) := by
  induction l with
  | nil => cases hmem
  | cons e l ih =>
    obtain ⟨hhead, hnodup⟩ := List.nodup_cons.1 hnodup
    show (((if e.1 = a then (a, n') else e) :: replaceNode a n' l).map _).sum = _
    -- the address occurs once: in front or in the rest
    rcases List.mem_cons.1 hmem with heq | hmem
    · subst heq
      rw [replaceNode_of_not_mem hhead, if_pos rfl]
      simp only [List.map_cons, List.sum_cons]
      abel
    · have hne : e.1 ≠ a := by
        rintro rfl
        exact hhead (List.mem_map.2 ⟨_, hmem, rfl⟩)
      rw [if_neg hne]
      simp only [List.map_cons, List.sum_cons, ih hnodup hmem]
      abel

end Replace
