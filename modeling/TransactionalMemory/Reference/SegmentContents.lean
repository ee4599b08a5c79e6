import TransactionalMemory.Reference
import TransactionalMemory.Reference.SegmentListExact

/-!
# The segments without their headers

The functions of `TransactionalMemory.Reference` work on segments that have no headers. Here the
functions on headers and blocks are shown to refine them: as long as the calls are those of
`SegmentList.step`, the segments that can be accessed are the same and hold the same bytes
(`sameContents_of_created`), so a transaction reads the same (`SameContents.read`).
-/

namespace TransactionalMemory.SegmentList

variable {s s' : State} {others : List Block} {g : Block} {b : ℕ}

/-- A segment, as the functions without headers name it. -/
def segment (g : Block) : Segment := ⟨g.start, g.size⟩

/-- The region has the segments of the process, with the same bytes in them. -/
structure SameContents (r : Reference.Region) (s : State) : Prop where
  first : r.first = segment s.first
  allocs : r.allocs = s.live.map segment
  bytes : ∀ g ∈ s.segments, ∀ b ∈ g, r.mem b = s.heap.mem b

/-- The same call without headers. -/
def segmentCall (r : Reference.Region) : Call → Reference.Region
  | .alloc size (some sn) _ => Reference.tmAlloc r ⟨sn + nodeSize, size⟩
  | .alloc _ none _ => r
  | .free segment junk => Reference.tmFree junk r segment
  | .read _ _ => r
  | .write target data => Reference.tmWrite r target data

/-- The bytes of a segment belong to a block. -/
theorem WellFormed.exists_block (h : WellFormed others s) (hg : g ∈ s.segments) (hb : b ∈ g) :
    ∃ k ∈ s.heap.blocks, b ∈ k := by
  rcases List.mem_cons.1 hg with rfl | hg
  · exact ⟨_, h.first_mem, hb⟩
  · exact ⟨block g, h.block_mem hg, ((h.mem_block hg).1 hb).1⟩

/-- The live segments have different starts. -/
theorem WellFormed.start_injective (h : WellFormed others s) {k : Block} (hg : g ∈ s.live)
    (hk : k ∈ s.live) (hstart : g.start = k.start) : g = k := by
  by_contra hne
  have hdisjoint := h.live_disjoint hg hk hne
  unfold Block.Disjoint block header at hdisjoint
  unfold nodeSize at hdisjoint
  dsimp only at hdisjoint
  omega

/-- The live segments around one of them start elsewhere. -/
theorem WellFormed.start_ne (h : WellFormed others s) {front back : List Block} {k : Block}
    (hsplit : s.live = front ++ k :: back) (hg : g ∈ front ++ back) : g.start ≠ k.start := by
  have hk : k ∈ s.live := by
    rw [hsplit]
    exact List.mem_append_right _ List.mem_cons_self
  have hlive : g ∈ s.live := by
    rw [hsplit]
    exact List.mem_append.2 ((List.mem_append.1 hg).imp_right (List.mem_cons_of_mem _))
  have hnodup := hsplit ▸ h.linked.nodup.of_map
  -- a second segment with this start would be the same one
  intro hstart
  obtain rfl := h.start_injective hlive hk hstart
  exact (List.nodup_cons.1 (List.perm_middle.nodup_iff.1 hnodup)).1 hg

/-- Linking in the header of a new block changes no byte of a segment. -/
theorem WellFormed.insertNode_of_mem (h : WellFormed others s) {size sn : ℕ} (mem : ℕ → BitVec 8)
    (hfits : ∀ g ∈ s.heap.blocks, (⟨sn, nodeSize + size⟩ : Block).Disjoint g)
    (hg : g ∈ s.segments) (hb : b ∈ g) : insertNode mem sn s.region.allocs b = mem b := by
  have hnode : b ∉ node sn := by
    intro hnode
    obtain ⟨k, hk, hbk⟩ := h.exists_block hg hb
    refine (hfits k hk).not_mem ?_ hbk
    rw [mem_node] at hnode
    rw [Block.mem_def]
    dsimp only
    omega
  have hhead : s.region.allocs ≠ null → s.region.allocs ∈ s.live.map header := h.linked.head_mem
  apply insertNode_of_not_mem hnode ?_ (h.headers.lt_of_guarded hhead)
  intro hne hb'
  obtain ⟨k, hk, heq⟩ := List.mem_map.1 (hhead hne)
  rw [← heq] at hb'
  exact h.not_mem_of_mem_node hg hk hb' hb

/-- Taking out a header changes no byte of a segment. -/
theorem WellFormed.removeNode_of_mem (h : WellFormed others s) {front back : List Block}
    {k : Block} (hsplit : s.live = front ++ k :: back) (hg : g ∈ s.segments) (hb : b ∈ g) :
    (removeNode s.heap.mem (header k) s.region.allocs).1 b = s.heap.mem b := by
  have hnode : ∀ n ∈ s.live.map header, b ∉ node n := by
    intro n hn hb'
    obtain ⟨g', hg', rfl⟩ := List.mem_map.1 hn
    exact h.not_mem_of_mem_node hg hg' hb' hb
  have hlinked := h.linked
  have hheaders := h.headers
  rw [hsplit, List.map_append, List.map_cons] at hlinked hheaders hnode
  exact removeNode_of_not_mem hlinked hheaders hnode

namespace SameContents

variable {r : Reference.Region} {junk : ℕ → BitVec 8}

/-- `tm_create` clears the first segment on both sides. -/
theorem create {regionSize size align : ℕ} {shared start : Option ℕ} {lockInit : Bool}
    {heap : BlockHeap} (mem : ℕ → BitVec 8)
    (hcreate : (tmCreate junk regionSize size align shared start lockInit heap).bind Prod.snd =
      some s) : SameContents (Reference.tmCreate mem (segment s.first)) s := by
  obtain ⟨hlive, -, -, hcleared⟩ := tmCreate_cases hcreate
  refine ⟨rfl, by rw [hlive]; rfl, fun g hg b hb => ?_⟩
  obtain rfl : g = s.first := by
    rw [State.segments, hlive] at hg
    exact List.mem_singleton.1 hg
  rw [hcleared b hb]
  exact if_pos hb

/-- A range inside of a segment is read alike. -/
theorem read {source size : ℕ} (h : SameContents r s) (hg : g ∈ s.segments)
    (hcontains : g.Contains ⟨source, size⟩) :
    tmRead s source size = (true, Reference.tmRead r source size) := by
  rw [tmRead, Reference.tmRead]
  congr 1
  apply ByteMemory.slice_congr
  intro b hle hlt
  exact (h.bytes g hg b (hcontains.mem ⟨hle, hlt⟩)).symm

/-- `tm_write` on the bytes of the heap is `tm_write` on segments. -/
theorem write (h : SameContents r s) (target : ℕ) (data : List (BitVec 8)) :
    SameContents (Reference.tmWrite r target data) (tmWrite s target data).2 := by
  refine ⟨h.first, h.allocs, fun g hg b hb => ?_⟩
  show ByteMemory.store r.mem target data b = ByteMemory.store s.heap.mem target data b
  unfold ByteMemory.store
  rw [h.bytes g hg b hb]

/-- `tm_alloc` on the heap is `tm_alloc` on segments. -/
theorem alloc {size : ℕ} {answer q : Option ℕ} (h : SameContents r s) (hwf : WellFormed others s)
    (hsize : size ≤ 2 ^ 48) (halloc : tmAlloc junk size answer s = some (q, s')) :
    SameContents (segmentCall r (.alloc size answer junk)) s' := by
  obtain ⟨heap, hmem, hcase⟩ := tmAlloc_cases hsize halloc
  have hkept : ∀ g ∈ s.segments, ∀ b ∈ g, r.mem b = heap.mem b := by
    intro g hg b hb
    obtain ⟨k, hk, hbk⟩ := hwf.exists_block hg hb
    rw [hmem k hk b hbk, h.bytes g hg b hb]
  -- without memory nothing changes but the bytes outside of the blocks
  rcases hcase with ⟨rfl, -, -, rfl⟩ | ⟨sn, rfl, -, hfits, -, rfl⟩
  · exact ⟨h.first, h.allocs, hkept⟩
  · refine ⟨h.first, ?_, fun g hg b hb => ?_⟩
    · show segment ⟨sn + nodeSize, size⟩ :: r.allocs = _
      rw [h.allocs, List.map_cons]
    show ByteMemory.fill r.mem (sn + nodeSize) size 0 b =
      ByteMemory.fill (insertNode heap.mem sn s.region.allocs) (sn + nodeSize) size 0 b
    by_cases hin : sn + nodeSize ≤ b ∧ b < sn + nodeSize + size
    · -- the new segment is cleared on both sides
      rw [ByteMemory.fill, ByteMemory.fill, if_pos hin, if_pos hin]
    · have hold : g ∈ s.segments := by
        rcases List.mem_cons.1 hg with rfl | hg
        · exact List.mem_cons_self
        · rcases List.mem_cons.1 hg with rfl | hg
          · exact absurd hb hin
          · exact List.mem_cons_of_mem _ hg
      rw [ByteMemory.fill_of_not_mem hin, ByteMemory.fill_of_not_mem hin,
        hwf.insertNode_of_mem _ hfits hold hb]
      exact hkept g hold b hb

/-- `tm_free` on the heap is `tm_free` on segments. -/
theorem free {start : ℕ} {q : Bool} (h : SameContents r s) (hwf : WellFormed others s)
    (hlive : ∃ g ∈ s.live, g.start = start) (hfree : tmFree junk start s = some (q, s')) :
    SameContents (Reference.tmFree junk r start) s' := by
  have hwf' := hwf.free hlive hfree
  obtain ⟨front, k, back, heap, hsplit, rfl, rfl, -, hkept⟩ := hwf.tmFree_cases hlive hfree
  have hk : k ∈ s.live := by
    rw [hsplit]
    exact List.mem_append_right _ List.mem_cons_self
  have hne : ∀ g ∈ front ++ back, g.start ≠ k.start := fun g hg => hwf.start_ne hsplit hg
  refine ⟨h.first, ?_, fun g hg b hb => ?_⟩
  · -- filtering by the start takes out the one segment
    show r.allocs.filter (fun g => g.start ≠ k.start) = (front ++ back).map segment
    have hfilter : ∀ l : List Block, (∀ g ∈ l, g ∈ front ++ back) →
        (l.map segment).filter (fun g => g.start ≠ k.start) = l.map segment := by
      intro l hl
      apply List.filter_eq_self.2
      intro x hx
      obtain ⟨g, hg, rfl⟩ := List.mem_map.1 hx
      exact decide_eq_true (hne g (hl g hg))
    rw [h.allocs, hsplit, List.map_append, List.map_cons, List.filter_append,
      hfilter front fun g hg => List.mem_append_left _ hg,
      List.filter_cons_of_neg (by simp [segment]),
      hfilter back fun g hg => List.mem_append_right _ hg, List.map_append]
  · have hold : g ∈ s.segments := by
      rcases List.mem_cons.1 hg with rfl | hg
      · exact List.mem_cons_self
      · refine List.mem_cons_of_mem _ ?_
        rw [hsplit]
        exact List.mem_append.2 ((List.mem_append.1 hg).imp_right (List.mem_cons_of_mem _))
    have hout : b ∉ k := by
      intro hbk
      rcases List.mem_cons.1 hg with rfl | hg
      · exact (hwf.first_disjoint hk).not_mem ((hwf.mem_block hk).1 hbk).1 hb
      · refine hwf.segments_disjoint hold (List.mem_cons_of_mem _ hk) ?_ hb hbk
        rintro rfl
        exact hne _ hg rfl
    have hany : ¬ (r.allocs.any fun g => g.start = k.start ∧ b ∈ g) = true := by
      rw [List.any_eq_true]
      rintro ⟨x, hx, hmem⟩
      rw [h.allocs] at hx
      obtain ⟨g', hg', rfl⟩ := List.mem_map.1 hx
      obtain ⟨hstart, hb'⟩ := of_decide_eq_true hmem
      obtain rfl := hwf.start_injective hg' hk hstart
      exact hout hb'
    -- only the headers and the freed block may have changed
    obtain ⟨c, hc, hbc⟩ := hwf'.exists_block hg hb
    calc (Reference.tmFree junk r k.start).mem b
        = r.mem b := if_neg hany
      _ = s.heap.mem b := h.bytes g hold b hb
      _ = (removeNode s.heap.mem (header k) s.region.allocs).1 b :=
        (hwf.removeNode_of_mem hsplit hold hb).symm
      _ = heap.mem b := (hkept c hc b hbc).symm

/-- Every call keeps the contents the same. -/
theorem step {c : Call} (h : SameContents r s) (hwf : WellFormed others s)
    (hstep : SegmentList.step s c = some s') : SameContents (segmentCall r c) s' := by
  cases c with
  | alloc size answer junk =>
    simp only [SegmentList.step, Option.ite_none_right_eq_some] at hstep
    obtain ⟨hsize, hstep⟩ := hstep
    obtain ⟨⟨q, s'⟩, halloc, rfl⟩ := Option.map_eq_some_iff.1 hstep
    exact h.alloc hwf hsize halloc
  | free segment junk =>
    simp only [SegmentList.step, Option.ite_none_right_eq_some] at hstep
    obtain ⟨hlive, hstep⟩ := hstep
    obtain ⟨⟨q, s'⟩, hfree, rfl⟩ := Option.map_eq_some_iff.1 hstep
    exact h.free hwf hlive hfree
  | read source size =>
    simp only [SegmentList.step, Option.ite_none_right_eq_some, Option.some.injEq] at hstep
    obtain ⟨-, rfl⟩ := hstep
    exact h
  | write target data =>
    simp only [SegmentList.step, Option.ite_none_right_eq_some, Option.some.injEq] at hstep
    obtain ⟨-, rfl⟩ := hstep
    exact h.write target data

end SameContents

/-- A sequence of calls on a well-formed list does the same with and without headers. -/
theorem sameContents_of_run {r : Reference.Region} {cs : List Call}
    (hwf : WellFormed others s) (h : SameContents r s)
    (hrun : (calls s).Run LabelledSystem.always s cs s') :
    SameContents (cs.foldl segmentCall r) s' := by
  have hboth : WellFormed others s' ∧ SameContents (cs.foldl segmentCall r) s' := by
    refine hrun.history (P := fun cs u => WellFormed others u ∧
      SameContents (cs.foldl segmentCall r) u) ⟨hwf, h⟩ fun cs u c v _ hu hstep _ => ?_
    rw [List.foldl_append]
    exact ⟨hu.1.step hstep, hu.2.step hu.1 hstep⟩
  exact hboth.2

/-- On a new region, a sequence of calls does the same with and without headers. -/
theorem sameContents_of_created {junk : ℕ → BitVec 8} {regionSize size align : ℕ}
    {shared start : Option ℕ} {lockInit : Bool} {heap : BlockHeap} {created : State}
    {cs : List Call} (mem : ℕ → BitVec 8)
    (hcreate : (tmCreate junk regionSize size align shared start lockInit heap).bind Prod.snd =
      some created)
    (hrun : (calls created).Run LabelledSystem.always created cs s) :
    SameContents (cs.foldl segmentCall (Reference.tmCreate mem (segment created.first))) s :=
  sameContents_of_run (WellFormed.create hcreate) (SameContents.create mem hcreate) hrun

end TransactionalMemory.SegmentList
