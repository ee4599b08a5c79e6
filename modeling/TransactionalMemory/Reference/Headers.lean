import TransactionalMemory.Foundations.DoublyLinked
import TransactionalMemory.Reference.SegmentList

/-!
# Headers in memory

What the assignments of `reference/tm.c` do to the links of the headers, as long as the headers do
not overlap (`Headers`). `insertNode` puts a header in front of the list (`insertNode_linked`) and
`removeNode` takes one out, wherever it stands (`removeNode_linked`). Both write to headers only.
-/

namespace TransactionalMemory.SegmentList

variable {mem mem' : ℕ → BitVec 8} {sn m p allocs b : ℕ} {nodes : List ℕ}

/-! ## Headers -/

/-- The bytes of a header. -/
def node (sn : ℕ) : Block := ⟨sn, nodeSize⟩

/-- The bytes of a header. -/
theorem mem_node : b ∈ node sn ↔ sn ≤ b ∧ b < sn + nodeSize := Iff.rfl

/-- The back link depends on the bytes of the header. -/
theorem prev_congr (h : ∀ b ∈ node sn, mem' b = mem b) : prev mem' sn = prev mem sn := by
  refine loadPointer_congr fun b hle hlt => h b (mem_node.2 ⟨hle, ?_⟩)
  unfold nodeSize
  omega

/-- The forward link depends on the bytes of the header. -/
theorem next_congr (h : ∀ b ∈ node sn, mem' b = mem b) : next mem' sn = next mem sn := by
  unfold next pointerSize
  refine loadPointer_congr fun b hle hlt => h b (mem_node.2 ⟨?_, ?_⟩)
  · omega
  · unfold nodeSize
    omega

/-- Setting a back link changes the bytes of the header only. -/
theorem setPrev_of_not_mem (h : b ∉ node sn) : setPrev mem sn p b = mem b := by
  refine storePointer_of_not_mem fun hb => h (mem_node.2 ⟨hb.1, ?_⟩)
  unfold nodeSize
  omega

/-- Setting a forward link changes the bytes of the header only. -/
theorem setNext_of_not_mem (h : b ∉ node sn) : setNext mem sn p b = mem b := by
  refine storePointer_of_not_mem fun hb => h (mem_node.2 ?_)
  unfold pointerSize at hb
  unfold nodeSize
  omega

/-- The null pointer is an address. -/
theorem null_lt : null < 2 ^ 64 := Nat.two_pow_pos 64

/-- Addresses of headers that lie inside of the address space and do not overlap. -/
structure Headers (nodes : List ℕ) : Prop where
  ne_null : ∀ n ∈ nodes, n ≠ null
  lt : ∀ n ∈ nodes, n < 2 ^ 64
  disjoint : ∀ m ∈ nodes, ∀ n ∈ nodes, m ≠ n → (node m).Disjoint (node n)

namespace Headers

/-- The back links after one of them is set. -/
theorem prev_setPrev (h : Headers nodes) (hsn : sn ∈ nodes) (hm : m ∈ nodes) (hp : p < 2 ^ 64) :
    prev (setPrev mem sn p) m = if m = sn then p else prev mem m := by
  split
  next heq =>
    subst heq
    exact loadPointer_storePointer mem m hp
  next hne =>
    exact prev_congr fun b hb => setPrev_of_not_mem ((h.disjoint m hm sn hsn hne).not_mem hb)

/-- The forward links after one of them is set. -/
theorem next_setNext (h : Headers nodes) (hsn : sn ∈ nodes) (hm : m ∈ nodes) (hp : p < 2 ^ 64) :
    next (setNext mem sn p) m = if m = sn then p else next mem m := by
  split
  next heq =>
    subst heq
    exact loadPointer_storePointer mem (m + pointerSize) hp
  next hne =>
    exact next_congr fun b hb => setNext_of_not_mem ((h.disjoint m hm sn hsn hne).not_mem hb)

/-- Setting a back link keeps the forward links. -/
theorem next_setPrev (h : Headers nodes) (hsn : sn ∈ nodes) (hm : m ∈ nodes) :
    next (setPrev mem sn p) m = next mem m := by
  by_cases heq : m = sn
  · -- the two links of one header do not overlap
    subst heq
    exact loadPointer_storePointer_of_disjoint (Or.inl le_rfl)
  · exact next_congr fun b hb => setPrev_of_not_mem ((h.disjoint m hm sn hsn heq).not_mem hb)

/-- Setting a forward link keeps the back links. -/
theorem prev_setNext (h : Headers nodes) (hsn : sn ∈ nodes) (hm : m ∈ nodes) :
    prev (setNext mem sn p) m = prev mem m := by
  by_cases heq : m = sn
  · -- the two links of one header do not overlap
    subst heq
    exact loadPointer_storePointer_of_disjoint (Or.inr le_rfl)
  · exact prev_congr fun b hb => setNext_of_not_mem ((h.disjoint m hm sn hsn heq).not_mem hb)

/-- The assignment to the back link of the next node, if there is one. -/
theorem prev_guarded (h : Headers nodes) (hsn : sn ≠ null → sn ∈ nodes) (hm : m ∈ nodes)
    (hp : p < 2 ^ 64) :
    prev (if sn ≠ null then setPrev mem sn p else mem) m = if m = sn then p else prev mem m := by
  by_cases hnull : sn = null
  · rw [if_neg (not_not.2 hnull), if_neg (hnull ▸ h.ne_null m hm)]
  · rw [if_pos hnull, h.prev_setPrev (hsn hnull) hm hp]

/-- The same, if the header is not null. -/
theorem next_setPrev_guarded (h : Headers nodes) (hsn : sn ≠ null → sn ∈ nodes) (hm : m ∈ nodes) :
    next (if sn ≠ null then setPrev mem sn p else mem) m = next mem m := by
  split
  next hne => exact h.next_setPrev (hsn hne) hm
  next => rfl

/-- The assignment to the link of the node before, if there is one. -/
theorem next_guarded (h : Headers nodes) (hsn : sn ≠ null → sn ∈ nodes) (hm : m ∈ nodes)
    (hp : p < 2 ^ 64) :
    next (if sn ≠ null then setNext mem sn p else mem) m = if m = sn then p else next mem m := by
  by_cases hnull : sn = null
  · rw [if_neg (not_not.2 hnull), if_neg (hnull ▸ h.ne_null m hm)]
  · rw [if_pos hnull, h.next_setNext (hsn hnull) hm hp]

/-- The same, if the header is not null. -/
theorem prev_setNext_guarded (h : Headers nodes) (hsn : sn ≠ null → sn ∈ nodes) (hm : m ∈ nodes) :
    prev (if sn ≠ null then setNext mem sn p else mem) m = prev mem m := by
  split
  next hne => exact h.prev_setNext (hsn hne) hm
  next => rfl

/-- A pointer to one of the headers or to nothing. -/
theorem lt_of_guarded (h : Headers nodes) (hsn : sn ≠ null → sn ∈ nodes) : sn < 2 ^ 64 := by
  by_cases hnull : sn = null
  · rw [hnull]
    exact null_lt
  · exact h.lt sn (hsn hnull)

end Headers

/-! ## Inserting and removing -/

/-- The header that `tm_alloc` inserts becomes the head. -/
theorem insertNode_linked
    (h : DoublyLinked (next mem) (prev mem) null null allocs nodes)
    (hheaders : Headers (sn :: nodes)) (hnew : sn ∉ nodes) :
    DoublyLinked (next (insertNode mem sn allocs)) (prev (insertNode mem sn allocs)) null null sn
      (sn :: nodes) := by
  have hself : sn ∈ sn :: nodes := List.mem_cons_self
  have hallocs : allocs ≠ null → allocs ∈ sn :: nodes :=
    fun hne => List.mem_cons_of_mem sn (h.head_mem hne)
  have hlt : allocs < 2 ^ 64 := hheaders.lt_of_guarded hallocs
  -- the links after the two assignments to the new header
  have hnext : ∀ m ∈ sn :: nodes, next (setNext (setPrev mem sn null) sn allocs) m =
      if m = sn then allocs else next mem m := by
    intro m hm
    rw [hheaders.next_setNext hself hm hlt, hheaders.next_setPrev hself hm]
  have hprev : ∀ m ∈ sn :: nodes, prev (setNext (setPrev mem sn null) sn allocs) m =
      if m = sn then null else prev mem m := by
    intro m hm
    rw [hheaders.prev_setNext hself hm, hheaders.prev_setPrev hself hm null_lt]
  have hhead := hnext sn hself
  rw [if_pos rfl] at hhead
  have hother : ∀ m ∈ nodes, m ≠ sn := by
    rintro m hm rfl
    exact hnew hm
  -- the new header was not in the list
  have hfirst : sn ≠ allocs := by
    rintro rfl
    exact hnew (h.head_mem (hheaders.ne_null sn hself))
  unfold insertNode
  simp only [hhead]
  refine h.push (hheaders.ne_null sn hself) ?_ ?_ (fun m hm => ?_) fun m hm => ?_
  · rw [hheaders.next_setPrev_guarded hallocs hself, hhead]
  · rw [hheaders.prev_guarded hallocs hself (hheaders.lt sn hself), if_neg hfirst, hprev sn hself,
      if_pos rfl]
  · have hm' := List.mem_cons_of_mem sn hm
    rw [hheaders.next_setPrev_guarded hallocs hm', hnext m hm', if_neg (hother m hm)]
  · have hm' := List.mem_cons_of_mem sn hm
    rw [hheaders.prev_guarded hallocs hm' (hheaders.lt sn hself), hprev m hm',
      if_neg (hother m hm)]

/-- Only the new header and the old head are written. -/
theorem insertNode_of_not_mem (hsn : b ∉ node sn) (hallocs : allocs ≠ null → b ∉ node allocs)
    (hlt : allocs < 2 ^ 64) : insertNode mem sn allocs b = mem b := by
  have hhead : next (setNext (setPrev mem sn null) sn allocs) sn = allocs :=
    loadPointer_storePointer _ _ hlt
  unfold insertNode
  simp only [hhead]
  split
  next hne =>
    rw [setPrev_of_not_mem (hallocs hne), setNext_of_not_mem hsn, setPrev_of_not_mem hsn]
  next => rw [setNext_of_not_mem hsn, setPrev_of_not_mem hsn]

section Remove

variable {xs ys : List ℕ}

/-- The node before a node of the list is in the list. -/
theorem prev_mem_of_linked
    (h : DoublyLinked (next mem) (prev mem) null null allocs (xs ++ sn :: ys))
    (hne : prev mem sn ≠ null) : prev mem sn ∈ xs ++ sn :: ys :=
  List.mem_append_left _ ((List.mem_cons.1 h.prev_mem).resolve_left hne)

/-- The node after a node of the list is in the list. -/
theorem next_mem_of_linked
    (h : DoublyLinked (next mem) (prev mem) null null allocs (xs ++ sn :: ys))
    (hne : next mem sn ≠ null) : next mem sn ∈ xs ++ sn :: ys :=
  List.mem_append_right _ (List.mem_cons_of_mem _ (h.next_mem hne))

/-- The first assignment of `tm_free` does not change the links of the removed header. -/
theorem removeNode_eq
    (h : DoublyLinked (next mem) (prev mem) null null allocs (xs ++ sn :: ys))
    (hheaders : Headers (xs ++ sn :: ys)) :
    removeNode mem sn allocs =
      (let mem' := if prev mem sn ≠ null then setNext mem (prev mem sn) (next mem sn) else mem
        if next mem sn ≠ null then setPrev mem' (next mem sn) (prev mem sn) else mem',
        if null = prev mem sn then next mem sn else allocs) := by
  have hsn : sn ∈ xs ++ sn :: ys := List.mem_append_right _ List.mem_cons_self
  -- without a node before it, the first assignment is to `allocs`
  by_cases hnull : prev mem sn = null
  · simp [removeNode, hnull]
  · have hprev := prev_mem_of_linked h hnull
    have hne : sn ≠ prev mem sn := by
      intro heq
      have hmem := (List.mem_cons.1 h.prev_mem).resolve_left hnull
      rw [← heq] at hmem
      exact List.disjoint_of_nodup_append h.nodup hmem List.mem_cons_self
    have hnext' : next (setNext mem (prev mem sn) (next mem sn)) sn = next mem sn :=
      next_congr fun b hb =>
        setNext_of_not_mem ((hheaders.disjoint sn hsn _ hprev hne).not_mem hb)
    have hprev' : prev (setNext mem (prev mem sn) (next mem sn)) sn = prev mem sn :=
      hheaders.prev_setNext hprev hsn
    simp only [removeNode, if_pos hnull, if_neg (Ne.symm hnull), hnext', hprev']

/-- The header that `tm_free` removes is taken out of the list. -/
theorem removeNode_linked
    (h : DoublyLinked (next mem) (prev mem) null null allocs (xs ++ sn :: ys))
    (hheaders : Headers (xs ++ sn :: ys)) :
    DoublyLinked (next (removeNode mem sn allocs).1) (prev (removeNode mem sn allocs).1) null null
      (removeNode mem sn allocs).2 (xs ++ ys) := by
  have hsub : ∀ m ∈ xs ++ ys, m ∈ xs ++ sn :: ys := by
    intro m hm
    rcases List.mem_append.1 hm with hm | hm
    · exact List.mem_append_left _ hm
    · exact List.mem_append_right _ (List.mem_cons_of_mem _ hm)
  have hprev := prev_mem_of_linked h
  have hnext := next_mem_of_linked h
  have hbefore : null ∉ xs ++ sn :: ys := fun hnull => hheaders.ne_null null hnull rfl
  rw [removeNode_eq h hheaders]
  dsimp only
  refine h.unlink hbefore (fun m hm => ?_) fun m hm => ?_
  · rw [hheaders.next_setPrev_guarded hnext (hsub m hm),
      hheaders.next_guarded hprev (hsub m hm) (hheaders.lt_of_guarded hnext)]
  · rw [hheaders.prev_guarded hnext (hsub m hm) (hheaders.lt_of_guarded hprev),
      hheaders.prev_setNext_guarded hprev (hsub m hm)]

/-- Only headers are written. -/
theorem removeNode_of_not_mem
    (h : DoublyLinked (next mem) (prev mem) null null allocs (xs ++ sn :: ys))
    (hheaders : Headers (xs ++ sn :: ys)) (hb : ∀ n ∈ xs ++ sn :: ys, b ∉ node n) :
    (removeNode mem sn allocs).1 b = mem b := by
  have hfirst : (if prev mem sn ≠ null then setNext mem (prev mem sn) (next mem sn) else mem) b =
      mem b := by
    split
    next hne => exact setNext_of_not_mem (hb _ (prev_mem_of_linked h hne))
    next => rfl
  rw [removeNode_eq h hheaders]
  dsimp only
  split
  next hne => rw [setPrev_of_not_mem (hb _ (next_mem_of_linked h hne)), hfirst]
  next => exact hfirst

end Remove

/-- The bytes of the headers are all that matters. -/
theorem linked_congr {before : ℕ}
    (h : DoublyLinked (next mem) (prev mem) null before allocs nodes)
    (hmem : ∀ n ∈ nodes, ∀ b ∈ node n, mem' b = mem b) :
    DoublyLinked (next mem') (prev mem') null before allocs nodes :=
  h.congr (fun n hn => next_congr (hmem n hn)) fun n hn => prev_congr (hmem n hn)

end TransactionalMemory.SegmentList
