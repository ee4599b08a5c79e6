import TransactionalMemory.Reference.Headers

/-!
# The segment list is exact

In every state that is reached from a new region by `tm_alloc`, `tm_free` and `tm_write`, the list
at `region->allocs` consists of the headers of the live segments (`WellFormed`). The invariant also
says which blocks are not yet freed. They are disjoint, and that separates the headers from the
bytes that a transaction may write.

`tm_destroy` follows the list, so it frees the blocks of the live segments, the first segment and
the region object, each once (`WellFormed.destroy`).
-/

namespace TransactionalMemory.SegmentList

variable {b : ℕ} {nodes : List ℕ}

/-! ## The blocks of the segments -/

/-- The header of a segment. -/
def header (g : Block) : ℕ := g.start - nodeSize

/-- The block of a segment and its header. -/
def block (g : Block) : Block := ⟨header g, nodeSize + g.size⟩

variable {g k : Block} {heap : BlockHeap}

/-- The header of a segment is in its block. -/
theorem mem_block_of_mem_node (hb : b ∈ node (header g)) : b ∈ block g := by
  rw [mem_node] at hb
  rw [Block.mem_def, block]
  dsimp only
  omega

/-- The headers at the start of blocks. -/
theorem headers_of_blocks (heap : BlockHeap)
    (h : ∀ n ∈ nodes, ∃ size, (⟨n, nodeSize + size⟩ : Block) ∈ heap.blocks) : Headers nodes where
  ne_null n hn := by
    obtain ⟨size, hmem⟩ := h n hn
    have hpos : 0 < n := (heap.valid _ hmem).not_null
    unfold null
    omega
  lt n hn := by
    obtain ⟨size, hmem⟩ := h n hn
    have hbounded : n + (nodeSize + size) ≤ 2 ^ 64 := (heap.valid _ hmem).bounded
    unfold nodeSize at hbounded
    omega
  disjoint m hm n hn hne := by
    obtain ⟨size, hmem⟩ := h m hm
    obtain ⟨size', hmem'⟩ := h n hn
    have hdisjoint := heap.disjoint_of_ne hmem hmem' (by simp [hne])
    unfold Block.Disjoint at hdisjoint ⊢
    unfold node
    dsimp only at hdisjoint ⊢
    omega

variable {s s' : State} {junk : ℕ → BitVec 8}

/-! ## What the calls do -/

/-- What `tm_create` returns, if it returns a region: there is no segment but the first, which is
cleared. -/
theorem tmCreate_cases {regionSize size align : ℕ} {shared start : Option ℕ} {lockInit : Bool}
    (hcreate : (tmCreate junk regionSize size align shared start lockInit heap).bind Prod.snd =
      some s) :
    s.live = [] ∧ s.region.allocs = null ∧ s.heap.blocks = s.first :: s.shared :: heap.blocks ∧
      ∀ b ∈ s.first, s.heap.mem b = 0 := by
  -- `malloc`, `posix_memalign` and the initialization of the lock can fail, in this order
  simp only [tmCreate, BlockHeap.malloc] at hcreate
  split at hcreate
  next => cases hcreate
  next => cases hcreate
  next heap' shared hmalloc =>
    split at hcreate
    next => cases hcreate
    next =>
      obtain ⟨r, hr, hnone⟩ := Option.bind_eq_some_iff.1 hcreate
      obtain ⟨heap, -, heq⟩ := Option.map_eq_some_iff.1 hr
      rw [← heq] at hnone
      cases hnone
    next heap'' start hmemalign =>
      split at hcreate
      next =>
        obtain rfl : _ = s := by simpa using hcreate
        obtain ⟨-, -, hshared⟩ := BlockHeap.posixMemalign_cases hmalloc
        obtain ⟨-, -, hstart⟩ := BlockHeap.posixMemalign_cases hmemalign
        rcases hshared with ⟨-, hnone, -⟩ | ⟨_, -, hsome, -, hshared⟩
        · cases hnone
        rcases hstart with ⟨-, hnone, -⟩ | ⟨_, -, hsome', -, hstart⟩
        · cases hnone
        cases hsome
        cases hsome'
        exact ⟨rfl, rfl, hstart.trans (congrArg (List.cons _) hshared), fun b hb => if_pos hb⟩
      -- the lock could not be initialized, and both blocks are freed again
      next =>
        obtain ⟨r, hr, hnone⟩ := Option.bind_eq_some_iff.1 hcreate
        obtain ⟨heap, -, heq⟩ := Option.map_eq_some_iff.1 hr
        rw [← heq] at hnone
        cases hnone

/-- The outcomes of `tm_alloc`: there is no memory, or the segment behind a new header is linked in
and cleared. -/
theorem tmAlloc_cases {size : ℕ} {answer r : Option ℕ} (hsize : size ≤ 2 ^ 48)
    (halloc : tmAlloc junk size answer s = some (r, s')) :
    ∃ heap : BlockHeap, (∀ g ∈ s.heap.blocks, ∀ b ∈ g, heap.mem b = s.heap.mem b) ∧
      (answer = none ∧ r = none ∧ heap.blocks = s.heap.blocks ∧ s' = { s with heap } ∨
        ∃ sn, answer = some sn ∧ r = some (sn + nodeSize) ∧
          (∀ g ∈ s.heap.blocks, (⟨sn, nodeSize + size⟩ : Block).Disjoint g) ∧
          heap.blocks = ⟨sn, nodeSize + size⟩ :: s.heap.blocks ∧
          s' = { s with
            heap := { heap with
              mem := ByteMemory.fill (insertNode heap.mem sn s.region.allocs) (sn + nodeSize) size
                0 }
            region := { s.region with allocs := sn }
            live := ⟨sn + nodeSize, size⟩ :: s.live }) := by
  have hmod : (nodeSize + size) % 2 ^ 64 = nodeSize + size := by
    apply Nat.mod_eq_of_lt
    unfold nodeSize
    omega
  simp only [tmAlloc, hmod] at halloc
  split at halloc
  next => cases halloc
  next heap hanswer =>
    obtain ⟨rfl, rfl⟩ : none = r ∧ _ = s' := by simpa using halloc
    obtain ⟨-, hmem, hcase⟩ := BlockHeap.posixMemalign_cases hanswer
    rcases hcase with ⟨hnone, -, hblocks⟩ | ⟨_, -, hsome, -⟩
    · exact ⟨heap, hmem, .inl ⟨hnone, rfl, hblocks, rfl⟩⟩
    · cases hsome
  next heap sn hanswer =>
    obtain ⟨rfl, rfl⟩ : some (sn + nodeSize) = r ∧ _ = s' := by simpa using halloc
    obtain ⟨-, hmem, hcase⟩ := BlockHeap.posixMemalign_cases hanswer
    rcases hcase with ⟨-, hnone, -⟩ | ⟨_, hanswer, hsome, hfits, hblocks⟩
    · cases hnone
    · cases hsome
      exact ⟨heap, hmem, .inr ⟨sn, hanswer, rfl, hfits.2.2, hblocks, rfl⟩⟩

/-! ## The invariant -/

/-- The list of the region consists of the headers of the live segments, and the blocks not yet
freed are theirs, the first segment, the region object and those of others. -/
structure WellFormed (others : List Block) (s : State) : Prop where
  linked : DoublyLinked (next s.heap.mem) (prev s.heap.mem) null null s.region.allocs
    (s.live.map header)
  blocks : s.heap.blocks.Perm (s.live.map block ++ s.first :: s.shared :: others)

namespace WellFormed

variable {others : List Block}

/-- A live segment has its block. -/
theorem block_mem (h : WellFormed others s) (hg : g ∈ s.live) : block g ∈ s.heap.blocks := by
  rw [h.blocks.mem_iff]
  exact List.mem_append_left _ (List.mem_map_of_mem hg)

/-- The first segment has its block. -/
theorem first_mem (h : WellFormed others s) : s.first ∈ s.heap.blocks := by
  rw [h.blocks.mem_iff]
  exact List.mem_append_right _ List.mem_cons_self

/-- There is room for a header in front of a live segment. -/
theorem lt_start (h : WellFormed others s) (hg : g ∈ s.live) : nodeSize < g.start := by
  have hpos : 0 < g.start - nodeSize := (s.heap.valid _ (h.block_mem hg)).not_null
  omega

/-- The headers of the live segments do not overlap. -/
theorem headers (h : WellFormed others s) : Headers (s.live.map header) := by
  apply headers_of_blocks s.heap
  intro n hn
  obtain ⟨g, hg, rfl⟩ := List.mem_map.1 hn
  exact ⟨g.size, h.block_mem hg⟩

/-- The bytes of a live segment are those of its block that are not in its header. -/
theorem mem_block (h : WellFormed others s) (hg : g ∈ s.live) :
    b ∈ g ↔ b ∈ block g ∧ b ∉ node (header g) := by
  have hlt := h.lt_start hg
  rw [Block.mem_def, Block.mem_def, mem_node]
  unfold block header
  dsimp only
  omega

/-- A byte belongs to at most one block. -/
theorem pairwise (h : WellFormed others s) :
    (s.live.map block ++ s.first :: s.shared :: others).Pairwise Block.Disjoint :=
  (h.blocks.pairwise_iff Block.Disjoint.symm).1 s.heap.disjoint

/-- A live segment is apart from the first one. -/
theorem first_disjoint (h : WellFormed others s) (hg : g ∈ s.live) :
    (block g).Disjoint s.first :=
  (List.pairwise_append.1 h.pairwise).2.2 _ (List.mem_map_of_mem hg) _ List.mem_cons_self

/-- Live segments are apart. -/
theorem live_disjoint (h : WellFormed others s) (hg : g ∈ s.live) (hk : k ∈ s.live) (hne : g ≠ k) :
    (block g).Disjoint (block k) := by
  have hlive := List.pairwise_map.1 (List.pairwise_append.1 h.pairwise).1
  have hsymm : Std.Symm fun g k : Block => (block g).Disjoint (block k) :=
    ⟨fun _ _ => Block.Disjoint.symm⟩
  exact hlive.forall hg hk hne

/-- No byte of a header belongs to a segment. -/
theorem not_mem_of_mem_node (h : WellFormed others s) (hg : g ∈ s.segments) (hk : k ∈ s.live)
    (hb : b ∈ node (header k)) : b ∉ g := by
  have hblock : b ∈ block k := mem_block_of_mem_node hb
  rcases List.mem_cons.1 hg with rfl | hg
  · exact (h.first_disjoint hk).not_mem hblock
  · intro hmem
    obtain ⟨hmem, hnot⟩ := (h.mem_block hg).1 hmem
    by_cases hne : g = k
    · subst hne
      exact hnot hb
    · exact (h.live_disjoint hg hk hne).not_mem hmem hblock

/-- No byte belongs to two segments. -/
theorem segments_disjoint (h : WellFormed others s) (hg : g ∈ s.segments) (hk : k ∈ s.segments)
    (hne : g ≠ k) (hb : b ∈ g) : b ∉ k := by
  intro hb'
  rcases List.mem_cons.1 hg with rfl | hg
  · rcases List.mem_cons.1 hk with rfl | hk
    · exact hne rfl
    · exact (h.first_disjoint hk).not_mem ((h.mem_block hk).1 hb').1 hb
  · have hblock := ((h.mem_block hg).1 hb).1
    rcases List.mem_cons.1 hk with rfl | hk
    · exact (h.first_disjoint hg).not_mem hblock hb'
    · exact (h.live_disjoint hg hk hne).not_mem hblock ((h.mem_block hk).1 hb').1

/-- The block of `tm_alloc` has no byte of the block of a live segment. -/
theorem alloc_disjoint {size sn : ℕ} (h : WellFormed others s)
    (hfits : ∀ g ∈ s.heap.blocks, (⟨sn, nodeSize + size⟩ : Block).Disjoint g) (hg : g ∈ s.live) :
    (⟨sn, nodeSize + size⟩ : Block).Disjoint (block g) :=
  hfits _ (h.block_mem hg)

/-- The header of a new segment overlaps no other. -/
theorem headers_alloc {size sn : ℕ} (h : WellFormed others s)
    (hblocks : heap.blocks = ⟨sn, nodeSize + size⟩ :: s.heap.blocks) :
    Headers (sn :: s.live.map header) := by
  apply headers_of_blocks heap
  intro n hn
  rw [hblocks]
  rcases List.mem_cons.1 hn with rfl | hn
  · exact ⟨size, List.mem_cons_self⟩
  · obtain ⟨g, hg, rfl⟩ := List.mem_map.1 hn
    exact ⟨g.size, List.mem_cons_of_mem _ (h.block_mem hg)⟩

/-- The header of a new segment is not in the list. -/
theorem header_new {size sn : ℕ} (h : WellFormed others s)
    (hfits : ∀ g ∈ s.heap.blocks, (⟨sn, nodeSize + size⟩ : Block).Disjoint g) :
    sn ∉ s.live.map header := by
  intro hmem
  obtain ⟨g, hg, heq⟩ := List.mem_map.1 hmem
  have hdisjoint := h.alloc_disjoint hfits hg
  unfold Block.Disjoint block nodeSize at hdisjoint
  rw [heq] at hdisjoint
  dsimp only at hdisjoint
  omega

/-- `tm_free` takes the header of a live segment out of the list. -/
theorem removed_linked {front back : List Block} (h : WellFormed others s)
    (hsplit : s.live = front ++ k :: back) :
    DoublyLinked (next (removeNode s.heap.mem (header k) s.region.allocs).1)
      (prev (removeNode s.heap.mem (header k) s.region.allocs).1) null null
      (removeNode s.heap.mem (header k) s.region.allocs).2
      (front.map header ++ back.map header) := by
  have hmap : s.live.map header = front.map header ++ header k :: back.map header := by
    rw [hsplit, List.map_append, List.map_cons]
  have hlinked := h.linked
  have hheaders := h.headers
  rw [hmap] at hlinked hheaders
  exact removeNode_linked hlinked hheaders

/-- `tm_free` of a live segment: its header is taken out of the list, and its block is freed. -/
theorem tmFree_cases {segment : ℕ} {r : Bool} (h : WellFormed others s)
    (hlive : ∃ g ∈ s.live, g.start = segment) (hfree : tmFree junk segment s = some (r, s')) :
    ∃ front k back, ∃ heap : BlockHeap, s.live = front ++ k :: back ∧ k.start = segment ∧
      s' = { s with
        heap
        region := { s.region with
          allocs := (removeNode s.heap.mem (header k) s.region.allocs).2 }
        live := front ++ back } ∧
      heap.blocks.Perm ((front ++ back).map block ++ s.first :: s.shared :: others) ∧
      ∀ g ∈ heap.blocks, ∀ b ∈ g,
        heap.mem b = (removeNode s.heap.mem (header k) s.region.allocs).1 b := by
  obtain ⟨g, hg, hstart⟩ := hlive
  -- the live segment with this start, and those before and after it in the list
  obtain ⟨k, front, back, -, hk, hsplit, herase⟩ :=
    List.exists_of_eraseP hg (p := fun g => g.start = segment) (by simp [hstart])
  have hk : k.start = segment := of_decide_eq_true hk
  have hsn : segment - nodeSize = header k := by rw [← hk, header]
  have hmem : block k ∈ s.heap.blocks := h.block_mem (by rw [hsplit]; simp)
  simp only [tmFree, hsn] at hfree
  obtain ⟨heap, hheap, heq⟩ := Option.map_eq_some_iff.1 hfree
  obtain ⟨-, rfl⟩ := Prod.mk.inj heq
  obtain ⟨heap', hheap', hblocks, -, hkept⟩ := BlockHeap.exists_free junk
    (h := { s.heap with mem := (removeNode s.heap.mem (header k) s.region.allocs).1 }) hmem
  obtain rfl : heap = heap' := Option.some.inj (hheap.symm.trans hheap')
  dsimp only at hblocks hkept
  refine ⟨front, k, back, heap, hsplit, hk, ?_, ?_, hkept⟩
  · rw [herase]
  · refine List.Perm.cons_inv (a := block k) (hblocks.symm.trans (h.blocks.trans ?_))
    rw [hsplit, List.map_append, List.map_append, List.map_cons, List.append_assoc,
      List.append_assoc]
    exact List.perm_middle

/-! ## What the calls keep -/

/-- A new region has no live segment. -/
theorem create {regionSize size align : ℕ} {shared start : Option ℕ} {lockInit : Bool}
    {others : BlockHeap}
    (hcreate : (tmCreate junk regionSize size align shared start lockInit others).bind Prod.snd =
      some s) : WellFormed others.blocks s := by
  obtain ⟨hlive, hallocs, hblocks, -⟩ := tmCreate_cases hcreate
  constructor
  · rw [hlive, hallocs]
    rfl
  · rw [hlive, hblocks]
    rfl

/-- `tm_write` changes the bytes of one segment only. -/
theorem write_of_not_mem {target : ℕ} {data : List (BitVec 8)}
    (hg : g.Contains ⟨target, data.length⟩) (hb : b ∉ g) :
    (tmWrite s target data).2.heap.mem b = s.heap.mem b :=
  ByteMemory.store_of_not_mem (mt hg.mem hb)

/-- `tm_write` within a segment keeps the list. -/
theorem write {target : ℕ} {data : List (BitVec 8)} (h : WellFormed others s) (hg : g ∈ s.segments)
    (hcontains : g.Contains ⟨target, data.length⟩) :
    WellFormed others (tmWrite s target data).2 := by
  refine ⟨linked_congr h.linked fun n hn b hb => ?_, h.blocks⟩
  obtain ⟨k, hk, rfl⟩ := List.mem_map.1 hn
  exact write_of_not_mem hcontains (h.not_mem_of_mem_node hg hk hb)

/-- `tm_alloc` keeps the list well formed. -/
theorem alloc {size : ℕ} {answer r : Option ℕ} (h : WellFormed others s) (hsize : size ≤ 2 ^ 48)
    (halloc : tmAlloc junk size answer s = some (r, s')) : WellFormed others s' := by
  obtain ⟨heap, hmem, hcase⟩ := tmAlloc_cases hsize halloc
  have hlinked : DoublyLinked (next heap.mem) (prev heap.mem) null null s.region.allocs
      (s.live.map header) := by
    apply linked_congr h.linked
    intro n hn b hb
    obtain ⟨g, hg, rfl⟩ := List.mem_map.1 hn
    exact hmem _ (h.block_mem hg) b (mem_block_of_mem_node hb)
  rcases hcase with ⟨-, -, hblocks, rfl⟩ | ⟨sn, -, -, hfits, hblocks, rfl⟩
  · refine ⟨hlinked, ?_⟩
    show heap.blocks.Perm _
    rw [hblocks]
    exact h.blocks
  · have hheader : header ⟨sn + nodeSize, size⟩ = sn := Nat.add_sub_cancel sn nodeSize
    have hblock : block ⟨sn + nodeSize, size⟩ = ⟨sn, nodeSize + size⟩ := by
      unfold block
      rw [hheader]
    have hheaders := h.headers_alloc hblocks
    refine ⟨?_, ?_⟩
    · show DoublyLinked _ _ null null sn (header ⟨sn + nodeSize, size⟩ :: s.live.map header)
      rw [hheader]
      have hinserted := insertNode_linked hlinked hheaders (h.header_new hfits)
      apply linked_congr hinserted
      intro n hn b hb
      -- `memset` stays behind the new header and inside of the new block
      apply ByteMemory.fill_of_not_mem
      rcases List.mem_cons.1 hn with rfl | hn
      · rw [mem_node] at hb
        omega
      · obtain ⟨g, hg, rfl⟩ := List.mem_map.1 hn
        have hout := (h.alloc_disjoint hfits hg).symm.not_mem (mem_block_of_mem_node hb)
        rw [Block.mem_def] at hout
        dsimp only at hout
        omega
    · show heap.blocks.Perm (block ⟨sn + nodeSize, size⟩ ::
        (s.live.map block ++ s.first :: s.shared :: others))
      rw [hblocks, hblock]
      exact h.blocks.cons _

/-- `tm_free` of a live segment keeps the list well formed. -/
theorem free {segment : ℕ} {r : Bool} (h : WellFormed others s)
    (hlive : ∃ g ∈ s.live, g.start = segment)
    (hfree : tmFree junk segment s = some (r, s')) : WellFormed others s' := by
  obtain ⟨front, k, back, heap, hsplit, -, rfl, hblocks, hkept⟩ := h.tmFree_cases hlive hfree
  refine ⟨?_, hblocks⟩
  dsimp only
  rw [List.map_append]
  apply linked_congr (h.removed_linked hsplit)
  intro n hn b hb
  rw [← List.map_append] at hn
  obtain ⟨g, hg, rfl⟩ := List.mem_map.1 hn
  have hmem : block g ∈ heap.blocks := by
    rw [hblocks.mem_iff]
    exact List.mem_append_left _ (List.mem_map_of_mem hg)
  exact hkept (block g) hmem b (mem_block_of_mem_node hb)

/-- Every call keeps the list well formed. -/
theorem step {c : Call} (h : WellFormed others s) (hstep : SegmentList.step s c = some s') :
    WellFormed others s' := by
  cases c with
  | alloc size answer junk =>
    simp only [SegmentList.step, Option.ite_none_right_eq_some] at hstep
    obtain ⟨hsize, hstep⟩ := hstep
    obtain ⟨⟨r, s'⟩, halloc, rfl⟩ := Option.map_eq_some_iff.1 hstep
    exact h.alloc hsize halloc
  | free segment junk =>
    simp only [SegmentList.step, Option.ite_none_right_eq_some] at hstep
    obtain ⟨hlive, hstep⟩ := hstep
    obtain ⟨⟨r, s'⟩, hfree, rfl⟩ := Option.map_eq_some_iff.1 hstep
    exact h.free hlive hfree
  | read source size =>
    simp only [SegmentList.step, Option.ite_none_right_eq_some, Option.some.injEq] at hstep
    obtain ⟨-, rfl⟩ := hstep
    exact h
  | write target data =>
    simp only [SegmentList.step, Option.ite_none_right_eq_some, Option.some.injEq] at hstep
    obtain ⟨⟨g, hg, hcontains⟩, rfl⟩ := hstep
    exact h.write hg hcontains

end WellFormed

/-- Every reachable state has a well-formed list. -/
theorem wellFormed_of_reachable {others : List Block} {created s : State}
    (hcreated : WellFormed others created) (h : (calls created).Reachable LabelledSystem.always s) :
    WellFormed others s :=
  h.invariant hcreated fun _ _ _ _ hs hstep _ => hs.step hstep

/-! ## Destroying the region -/

/-- The loop of `tm_destroy` frees the blocks whose headers are in the list. -/
theorem freeAllocs_eq_some (junk : ℕ → ℕ → BitVec 8) {bs rest : List Block} {allocs before fuel : ℕ}
    (hlinked : DoublyLinked (next heap.mem) (prev heap.mem) null before allocs (bs.map header))
    (hblocks : heap.blocks.Perm (bs.map block ++ rest)) (hfuel : bs.length < fuel) :
    ∃ heap', freeAllocs junk fuel allocs heap = some heap' ∧ heap'.blocks.Perm rest ∧
      heap'.freed = heap.freed ++ bs.map header := by
  induction bs generalizing heap allocs before fuel with
  | nil =>
    obtain ⟨fuel, rfl⟩ := Nat.exists_eq_succ_of_ne_zero (Nat.ne_of_gt hfuel)
    refine ⟨heap, if_neg (not_not.2 hlinked), hblocks, ?_⟩
    rw [List.map_nil, List.append_nil]
  | cons g bs ih =>
    obtain ⟨fuel, rfl⟩ := Nat.exists_eq_succ_of_ne_zero (Nat.ne_of_gt (Nat.zero_lt_of_lt hfuel))
    obtain ⟨rfl, hne, -, htail⟩ := hlinked
    have hmem : block g ∈ heap.blocks := by
      rw [hblocks.mem_iff]
      exact List.mem_cons_self
    obtain ⟨heap', hfree, hperm, hfreed, hkept⟩ := BlockHeap.exists_free (junk (header g)) hmem
    have hrest : heap'.blocks.Perm (bs.map block ++ rest) :=
      List.Perm.cons_inv (hperm.symm.trans hblocks)
    -- the freed block has no byte of the headers that are left
    have hlinked : DoublyLinked (next heap'.mem) (prev heap'.mem) null (header g)
        (next heap.mem (header g)) (bs.map header) := by
      apply linked_congr htail
      intro n hn b hb
      obtain ⟨k, hk, rfl⟩ := List.mem_map.1 hn
      have hmem : block k ∈ heap'.blocks := by
        rw [hrest.mem_iff]
        exact List.mem_append_left _ (List.mem_map_of_mem hk)
      exact hkept (block k) hmem b (mem_block_of_mem_node hb)
    obtain ⟨heap'', hloop, hblocks', hfreed'⟩ := ih hlinked hrest (Nat.lt_of_succ_lt_succ hfuel)
    refine ⟨heap'', ?_, hblocks', ?_⟩
    · have hfree' : heap.free (junk (header g)) (header g) = some heap' := hfree
      rw [freeAllocs, if_pos hne]
      dsimp only
      rw [hfree', Option.bind_some, hloop]
    · have hfreed'' : heap'.freed = heap.freed ++ [header g] := hfreed
      rw [hfreed', hfreed'', List.append_assoc, List.map_cons, List.singleton_append]

/-- `tm_destroy` follows the list to its end and frees every block of the region. -/
theorem WellFormed.destroy {others : List Block} {s : State} (h : WellFormed others s)
    (junk : ℕ → ℕ → BitVec 8) {fuel : ℕ} (hfuel : s.live.length < fuel) :
    ∃ heap, tmDestroy junk fuel s = some heap ∧ heap.blocks.Perm others ∧
      heap.freed = s.heap.freed ++ s.live.map header ++ [s.region.start, s.shared.start] := by
  obtain ⟨heap, hloop, hblocks, hfreed⟩ := freeAllocs_eq_some junk h.linked h.blocks hfuel
  have hfirst : s.first ∈ heap.blocks := by
    rw [hblocks.mem_iff]
    exact List.mem_cons_self
  obtain ⟨heap', hfree, hperm, hfreed', -⟩ :=
    BlockHeap.exists_free (junk s.region.start) hfirst
  -- the list is empty now; the first segment and the region object are left
  have hblocks' : heap'.blocks.Perm (s.shared :: others) :=
    List.Perm.cons_inv (hperm.symm.trans hblocks)
  have hshared : s.shared ∈ heap'.blocks := by
    rw [hblocks'.mem_iff]
    exact List.mem_cons_self
  obtain ⟨heap'', hfree', hperm', hfreed'', -⟩ :=
    BlockHeap.exists_free (junk s.shared.start) hshared
  have hfree : heap.free (junk s.region.start) s.region.start = some heap' := hfree
  refine ⟨heap'', ?_, List.Perm.cons_inv (hperm'.symm.trans hblocks'), ?_⟩
  · rw [tmDestroy, hloop, Option.bind_some, hfree, Option.bind_some, hfree']
  · have hfreed' : heap'.freed = heap.freed ++ [s.region.start] := hfreed'
    rw [hfreed'', hfreed', hfreed, List.append_assoc, List.append_assoc, List.append_assoc]
    rfl

/-! ## The list of a reachable state -/

/-- The list at `region->allocs` is doubly linked and ends, and its nodes are the headers of the
live segments; a write stays inside of its segment; the region can be destroyed. -/
structure ListExact (others : List Block) (s : State) : Prop where
  linked : DoublyLinked (next s.heap.mem) (prev s.heap.mem) null null s.region.allocs
    (s.live.map header)
  back : ∀ n ∈ s.live.map header, next s.heap.mem n ≠ null →
    prev s.heap.mem (next s.heap.mem n) = n
  nodup : (s.live.map header).Nodup
  /-- A write changes no header, no other segment and not the region object. -/
  write : ∀ target data s', step s (.write target data) = some s' →
    s'.region = s.region ∧ s'.live = s.live ∧
      (∀ g ∈ s.live, ∀ b ∈ node (header g), s'.heap.mem b = s.heap.mem b) ∧
      ∀ g ∈ s.segments, g.Contains ⟨target, data.length⟩ →
        ∀ k ∈ s.segments, k ≠ g → ∀ b ∈ k, s'.heap.mem b = s.heap.mem b
  /-- `tm_destroy` ends, and frees each block of the region once and no other. -/
  destroy : ∀ junk fuel, s.live.length < fuel → ∃ heap, tmDestroy junk fuel s = some heap ∧
    heap.freed = s.heap.freed ++ s.live.map header ++ [s.region.start, s.shared.start] ∧
      (s.live.map header ++ [s.region.start, s.shared.start]).Nodup ∧ heap.blocks.Perm others

/-- The blocks of the region have different starts. -/
theorem WellFormed.nodup_starts {others : List Block} {s : State} (h : WellFormed others s) :
    (s.live.map header ++ [s.region.start, s.shared.start]).Nodup := by
  have hstarts : (s.heap.blocks.map Block.start).Nodup := by
    refine List.pairwise_map.2 (s.heap.disjoint.imp_of_mem fun {g k} hg hk hdisjoint => ?_)
    have hg' := (s.heap.valid g hg).nonempty
    have hk' := (s.heap.valid k hk).nonempty
    unfold Block.Disjoint at hdisjoint
    omega
  rw [(h.blocks.map Block.start).nodup_iff, List.map_append, List.map_map] at hstarts
  refine hstarts.sublist ?_
  exact (List.Sublist.refl _).append (((List.nil_sublist _).cons_cons _).cons_cons _)

/-- The list of every state that sequences of calls reach from a new region is exact. -/
theorem listExact {junk : ℕ → BitVec 8} {regionSize size align : ℕ} {shared start : Option ℕ}
    {lockInit : Bool} {heap : BlockHeap} {created s : State}
    (hcreate : (tmCreate junk regionSize size align shared start lockInit heap).bind Prod.snd =
      some created)
    (h : (calls created).Reachable LabelledSystem.always s) : ListExact heap.blocks s := by
  have hwf := wellFormed_of_reachable (WellFormed.create hcreate) h
  refine ⟨hwf.linked, fun n hn hne => hwf.linked.prev_next hn hne, hwf.linked.nodup, ?_, ?_⟩
  · intro target data s' hstep
    simp only [step, Option.ite_none_right_eq_some, Option.some.injEq] at hstep
    obtain ⟨⟨g, hg, hcontains⟩, rfl⟩ := hstep
    refine ⟨rfl, rfl, fun k hk b hb => ?_, fun g' hg' hcontains' k hk hne b hb => ?_⟩
    · exact WellFormed.write_of_not_mem hcontains (hwf.not_mem_of_mem_node hg hk hb)
    · exact WellFormed.write_of_not_mem hcontains' (hwf.segments_disjoint hk hg' hne hb)
  · intro junk fuel hfuel
    obtain ⟨heap', hdestroy, hblocks, hfreed⟩ := hwf.destroy junk hfuel
    exact ⟨heap', hdestroy, hfreed, hwf.nodup_starts, hblocks⟩

/-- A process that has one block of its own. -/
def busyHeap : BlockHeap where
  mem := fun _ => 170
  blocks := [⟨16, 8⟩]
  freed := []
  valid := by decide
  disjoint := by decide

/-- A new region with one segment of 16 bytes at address 256. -/
def newRegion : Option State :=
  (tmCreate (fun _ => 255) 48 16 8 (some 64) (some 256) true busyHeap).bind Prod.snd

theorem newRegion_isSome : newRegion.isSome := by decide

/-- Three segments are allocated and written to, the one in the middle of the list is freed and its
block handed out again; then the last one of the list and the first one are freed, and an allocation
fails. -/
def reusedBlock : List Call :=
  [.alloc 8 (some 512) (fun _ => 1), .alloc 24 (some 1024) (fun _ => 2),
    .alloc 8 (some 2048) (fun _ => 3), .write 528 [1, 2, 3, 4, 5, 6, 7, 8], .write 1045 [9, 9],
    .write 256 [7], .free 1040 (fun _ => 4), .alloc 16 (some 1024) (fun _ => 5),
    .free 528 (fun _ => 6), .free 1040 (fun _ => 7), .alloc 8 none (fun _ => 8)]

theorem reusedBlock_isSome : ((calls (newRegion.get newRegion_isSome)).exec (fun _ _ _ => true)
    (newRegion.get newRegion_isSome) reusedBlock).isSome := by decide

theorem listExact_reusedBlock : ListExact busyHeap.blocks
    (((calls (newRegion.get newRegion_isSome)).exec (fun _ _ _ => true)
      (newRegion.get newRegion_isSome) reusedBlock).get reusedBlock_isSome) :=
  listExact (Option.some_get newRegion_isSome).symm
    (LabelledSystem.reachable_of_exec (fun _ _ _ _ => trivial) reusedBlock_isSome)

end TransactionalMemory.SegmentList
