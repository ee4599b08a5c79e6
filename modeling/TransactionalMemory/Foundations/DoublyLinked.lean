import Mathlib.Data.List.Nodup

/-!
# Doubly linked lists

Every address has two links, `next` and `prev`, and `null` is the address of no node.
`DoublyLinked next prev null before head nodes` says that following `next` from `head` visits the
`nodes` and arrives at `null`, and that each of them links back to the one visited before it, the
first one to `before`. Such a list visits no node twice (`DoublyLinked.nodup`), and `head`
determines it (`DoublyLinked.unique`).

Two operations change a list: a node is put in front of it (`DoublyLinked.push`), and any of its
nodes is taken out (`DoublyLinked.unlink`). Both are stated by what the links of the nodes are
afterwards, so the links of other addresses may change as they like.
-/

variable {A : Type*}

/-- Following `next` from the head visits the nodes and arrives at `null`; each node links back to
the one before it. -/
def DoublyLinked (next prev : A → A) (null : A) : A → A → List A → Prop
  | _, head, [] => head = null
  | before, head, n :: nodes =>
    head = n ∧ n ≠ null ∧ prev n = before ∧ DoublyLinked next prev null n (next n) nodes

namespace DoublyLinked

variable {next prev next' prev' : A → A} {null before before' head n : A}
variable {nodes nodes' xs ys : List A}

/-- An empty list is the null pointer. -/
@[simp] theorem nil_iff : DoublyLinked next prev null before head [] ↔ head = null := Iff.rfl

/-- A list starts with a node that points back to the one before. -/
@[simp] theorem cons_iff : DoublyLinked next prev null before head (n :: nodes) ↔
    head = n ∧ n ≠ null ∧ prev n = before ∧ DoublyLinked next prev null n (next n) nodes := Iff.rfl

/-- No node is null. -/
theorem ne_null (h : DoublyLinked next prev null before head nodes) (hn : n ∈ nodes) :
    n ≠ null := by
  induction nodes generalizing before head with
  | nil => cases hn
  | cons m nodes ih =>
    obtain ⟨-, hm, -, htail⟩ := h
    rcases List.mem_cons.1 hn with rfl | hn
    · exact hm
    · exact ih htail hn

/-- The head is a node, unless there is none. -/
theorem head_mem (h : DoublyLinked next prev null before head nodes) (hne : head ≠ null) :
    head ∈ nodes := by
  cases nodes with
  | nil => exact absurd h hne
  | cons m nodes =>
    rw [h.1]
    exact List.mem_cons_self

/-- The nodes from one of them on are a list of their own. -/
theorem suffix (h : DoublyLinked next prev null before head (xs ++ n :: ys)) :
    DoublyLinked next prev null (prev n) n (n :: ys) := by
  induction xs generalizing before head with
  | nil => exact ⟨rfl, h.2.1, rfl, h.2.2.2⟩
  | cons x xs ih => exact ih h.2.2.2

/-- The head determines the nodes. -/
theorem unique (h : DoublyLinked next prev null before head nodes)
    (h' : DoublyLinked next prev null before' head nodes') : nodes = nodes' := by
  induction nodes generalizing before before' head nodes' with
  | nil =>
    cases nodes' with
    | nil => rfl
    | cons m nodes' => exact absurd (h'.1.symm.trans h) h'.2.1
  | cons m nodes ih =>
    cases nodes' with
    | nil => exact absurd (h.1.symm.trans h') h.2.1
    | cons m' nodes' =>
      obtain rfl : m = m' := h.1.symm.trans h'.1
      rw [ih h.2.2.2 h'.2.2.2]

/-- No node is visited twice. -/
theorem nodup (h : DoublyLinked next prev null before head nodes) : nodes.Nodup := by
  induction nodes generalizing before head with
  | nil => exact List.nodup_nil
  | cons m nodes ih =>
    refine List.nodup_cons.2 ⟨fun hmem => ?_, ih h.2.2.2⟩
    -- from the second visit on, the list would have to be the same again
    obtain ⟨front, back, rfl⟩ := List.append_of_mem hmem
    have hsecond : DoublyLinked next prev null (prev m) m (m :: back) := h.2.2.2.suffix
    have hfirst : DoublyLinked next prev null before m (m :: (front ++ m :: back)) := by
      rw [h.1] at h
      exact h
    have hlength := congrArg List.length (hfirst.unique hsecond)
    simp only [List.length_cons, List.length_append] at hlength
    omega

/-- A node links back to one before it, the first one to `before`. -/
theorem prev_mem (h : DoublyLinked next prev null before head (xs ++ n :: ys)) :
    prev n ∈ before :: xs := by
  induction xs generalizing before head with
  | nil =>
    rw [h.2.2.1]
    exact List.mem_cons_self
  | cons x xs ih => exact List.mem_cons_of_mem _ (ih h.2.2.2)

/-- A node links to one after it, the last one to `null`. -/
theorem next_mem (h : DoublyLinked next prev null before head (xs ++ n :: ys))
    (hne : next n ≠ null) : next n ∈ ys :=
  h.suffix.2.2.2.head_mem hne

/-- The node after a node links back to it. -/
theorem prev_next (h : DoublyLinked next prev null before head nodes) (hn : n ∈ nodes)
    (hne : next n ≠ null) : prev (next n) = n := by
  obtain ⟨xs, ys, rfl⟩ := List.append_of_mem hn
  have htail := h.suffix.2.2.2
  cases ys with
  | nil => exact absurd htail hne
  | cons m ys =>
    rw [htail.1]
    exact htail.2.2.1

/-! ## Changing the links -/

/-- The links of the nodes are all that matters. -/
theorem congr (h : DoublyLinked next prev null before head nodes)
    (hnext : ∀ m ∈ nodes, next' m = next m) (hprev : ∀ m ∈ nodes, prev' m = prev m) :
    DoublyLinked next' prev' null before head nodes := by
  induction nodes generalizing before head with
  | nil => exact h
  | cons m nodes ih =>
    -- the links of the first node, then those of the rest
    obtain ⟨hhead, hne, hbefore, htail⟩ := h
    refine ⟨hhead, hne, by rw [hprev m List.mem_cons_self, hbefore], ?_⟩
    rw [hnext m List.mem_cons_self]
    exact ih htail (fun k hk => hnext k (List.mem_cons_of_mem _ hk))
      fun k hk => hprev k (List.mem_cons_of_mem _ hk)

variable [DecidableEq A]

/-- Only the first node links back to another address than before. -/
theorem rehead (h : DoublyLinked next prev null before head nodes)
    (hnext : ∀ m ∈ nodes, next' m = next m)
    (hprev : ∀ m ∈ nodes, prev' m = if m = head then before' else prev m) :
    DoublyLinked next' prev' null before' head nodes := by
  have hnodup := h.nodup
  cases nodes with
  | nil => exact h
  | cons m nodes =>
    obtain ⟨rfl, hne, -, htail⟩ := h
    refine ⟨rfl, hne, ?_, ?_⟩
    · rw [hprev head List.mem_cons_self, if_pos rfl]
    · rw [hnext head List.mem_cons_self]
      apply htail.congr (fun k hk => hnext k (List.mem_cons_of_mem _ hk))
      intro k hk
      have hother : k ≠ head := by
        rintro rfl
        exact (List.nodup_cons.1 hnodup).1 hk
      rw [hprev k (List.mem_cons_of_mem _ hk), if_neg hother]

/-- A node is put in front: the old head links back to it. -/
theorem push (h : DoublyLinked next prev null before head nodes) (hn : n ≠ null)
    (hself : next' n = head) (hback : prev' n = before') (hnext : ∀ m ∈ nodes, next' m = next m)
    (hprev : ∀ m ∈ nodes, prev' m = if m = head then n else prev m) :
    DoublyLinked next' prev' null before' n (n :: nodes) := by
  refine ⟨rfl, hn, hback, ?_⟩
  rw [hself]
  exact h.rehead hnext hprev

/-- A node is taken out: the one before it links to the one after it and back. -/
theorem unlink (h : DoublyLinked next prev null before head (xs ++ n :: ys))
    (hbefore : before ∉ xs ++ n :: ys)
    (hnext : ∀ m ∈ xs ++ ys, next' m = if m = prev n then next n else next m)
    (hprev : ∀ m ∈ xs ++ ys, prev' m = if m = next n then prev n else prev m) :
    DoublyLinked next' prev' null before (if before = prev n then next n else head)
      (xs ++ ys) := by
  induction xs generalizing before head with
  -- the node taken out is the first: the head moves on
  | nil =>
    obtain ⟨-, -, hback, htail⟩ := h
    rw [if_pos hback.symm]
    rw [hback] at hnext hprev
    refine htail.rehead (fun m hm => ?_) hprev
    have hother : m ≠ before := by
      rintro rfl
      exact hbefore (List.mem_cons_of_mem _ hm)
    rw [hnext m hm, if_neg hother]
  -- the first node stays, and may be the one that links past the node taken out
  | cons x xs ih =>
    have hnodup := h.nodup
    obtain ⟨rfl, hne, hback, htail⟩ := h
    have hx : head ∉ xs ++ n :: ys := (List.nodup_cons.1 hnodup).1
    have hfirst : before ≠ prev n := by
      intro heq
      have hmem := htail.prev_mem
      rw [← heq] at hmem
      exact hbefore (List.mem_append_left (n :: ys) hmem)
    -- the links go forward only
    have hlast : head ≠ next n := by
      intro heq
      have hmem := htail.next_mem (heq ▸ hne)
      rw [← heq] at hmem
      exact hx (List.mem_append_right _ (List.mem_cons_of_mem _ hmem))
    rw [if_neg hfirst]
    refine ⟨rfl, hne, ?_, ?_⟩
    · rw [hprev head List.mem_cons_self, if_neg hlast, hback]
    · rw [hnext head List.mem_cons_self]
      exact ih htail hx (fun m hm => hnext m (List.mem_cons_of_mem _ hm))
        fun m hm => hprev m (List.mem_cons_of_mem _ hm)

end DoublyLinked
