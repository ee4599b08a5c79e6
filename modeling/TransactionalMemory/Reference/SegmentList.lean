import TransactionalMemory.Foundations.BlockHeap
import TransactionalMemory.Foundations.LabelledSystem

/-!
# The segment list of the reference implementation

The functions of `reference/tm.c` on the bytes of the process. `tm_alloc` puts a header, the two
pointers of a `struct segment_node`, in front of every segment, in the same block; the headers form
a doubly linked list that starts at `region->allocs`. `tm_free` finds the header at a fixed distance
in front of the segment and takes it out of the list, and `tm_destroy` follows the list to its end.

What `malloc` and `posix_memalign` answer is a parameter of each call, as is what the allocator does
to the bytes outside of the blocks. The lock of the region is left out: the calls run one after
another, as they do while one transaction holds the lock.
-/

namespace TransactionalMemory.SegmentList

/-- `NULL`. -/
def null : ℕ := 0

/-- `sizeof(struct segment_node)`. -/
def nodeSize : ℕ := 16

/-- `sizeof(struct segment_node*)`. -/
def pointerSize : ℕ := 8

/-- `sn->prev`. -/
def prev (mem : ℕ → BitVec 8) (sn : ℕ) : ℕ := loadPointer mem sn

/-- `sn->next`. -/
def next (mem : ℕ → BitVec 8) (sn : ℕ) : ℕ := loadPointer mem (sn + pointerSize)

/-- `sn->prev = p`. -/
def setPrev (mem : ℕ → BitVec 8) (sn p : ℕ) : ℕ → BitVec 8 := storePointer mem sn p

/-- `sn->next = p`. -/
def setNext (mem : ℕ → BitVec 8) (sn p : ℕ) : ℕ → BitVec 8 := storePointer mem (sn + pointerSize) p

/-- Insert in the linked list. -/
def insertNode (mem : ℕ → BitVec 8) (sn allocs : ℕ) : ℕ → BitVec 8 :=
  let mem := setPrev mem sn null
  let mem := setNext mem sn allocs
  -- the node that was the head links back to the new one
  if next mem sn ≠ null then setPrev mem (next mem sn) sn else mem

/-- Remove from the linked list: the bytes and the new `allocs`. -/
def removeNode (mem : ℕ → BitVec 8) (sn allocs : ℕ) : (ℕ → BitVec 8) × ℕ :=
  let (mem, allocs) :=
    if prev mem sn ≠ null then (setNext mem (prev mem sn) (next mem sn), allocs)
    -- the head is removed
    else (mem, next mem sn)
  (if next mem sn ≠ null then setPrev mem (next mem sn) (prev mem sn) else mem, allocs)

/-- Simple Shared Memory Region. -/
structure Region where
  /-- Start of the non-deallocable memory segment. -/
  start : ℕ
  /-- Shared memory segments dynamically allocated via `tm_alloc` within transactions. -/
  allocs : ℕ
  /-- Size of the non-deallocable memory segment (in bytes). -/
  size : ℕ
  /-- Size of a word in the shared memory region (in bytes). -/
  align : ℕ

/-- A process with one region. -/
structure State where
  /-- The bytes and the blocks. -/
  heap : BlockHeap
  /-- The region object. -/
  region : Region
  /-- The block of the region object. -/
  shared : Block
  /-- History: the segments that `tm_alloc` has returned and `tm_free` has not been given. -/
  live : List Block

/-- The first segment. -/
def State.first (s : State) : Block := ⟨s.region.start, s.region.size⟩

/-- The segments that can be accessed. -/
def State.segments (s : State) : List Block := s.first :: s.live

/-- `tm_create`, given `sizeof(struct region)`, the answers of the allocator and whether the lock
is initialized. No region is returned if one of these fails. -/
def tmCreate (junk : ℕ → BitVec 8) (regionSize size align : ℕ) (shared start : Option ℕ)
    (lockInit : Bool) (heap : BlockHeap) : Option (BlockHeap × Option State) :=
  match heap.malloc junk regionSize shared with
  | none => none
  | some (heap, none) => some (heap, none)
  | some (heap, some shared) =>
    match heap.posixMemalign junk align size start with
    | none => none
    -- `posix_memalign` failed: the region object is freed again
    | some (heap, none) => (heap.free junk shared).map fun heap => (heap, none)
    | some (heap, some start) =>
      if lockInit then
        let heap := { heap with mem := ByteMemory.fill heap.mem start size 0 }
        some (heap, some {
          heap
          region := { start, allocs := null, size, align }
          shared := ⟨shared, regionSize⟩
          live := [] })
      else
        -- the lock was not initialized: both blocks are freed again
        ((heap.free junk start).bind (BlockHeap.free junk shared)).map fun heap => (heap, none)

/-- The loop of `tm_destroy`, at most `fuel` evaluations of its condition. -/
def freeAllocs (junk : ℕ → ℕ → BitVec 8) : ℕ → ℕ → BlockHeap → Option BlockHeap
  | 0, _, _ => none
  | fuel + 1, allocs, heap =>
    if allocs ≠ null then
      let tail := next heap.mem allocs
      (heap.free (junk allocs) allocs).bind (freeAllocs junk fuel tail)
    else some heap

/-- `tm_destroy`. -/
def tmDestroy (junk : ℕ → ℕ → BitVec 8) (fuel : ℕ) (s : State) : Option BlockHeap :=
  (freeAllocs junk fuel s.region.allocs s.heap).bind fun heap =>
    (heap.free (junk s.region.start) s.region.start).bind fun heap =>
      heap.free (junk s.shared.start) s.shared.start

/-- `tm_read`. -/
def tmRead (s : State) (source size : ℕ) : Bool × List (BitVec 8) :=
  (true, ByteMemory.slice s.heap.mem source size)

/-- `tm_write`. -/
def tmWrite (s : State) (target : ℕ) (data : List (BitVec 8)) : Bool × State :=
  (true, { s with heap := { s.heap with mem := ByteMemory.store s.heap.mem target data } })

/-- `tm_alloc`: the segment, if there is memory for it. -/
def tmAlloc (junk : ℕ → BitVec 8) (size : ℕ) (answer : Option ℕ) (s : State) :
    Option (Option ℕ × State) :=
  -- `posix_memalign` refuses alignments below the size of a pointer
  let align := if s.region.align < pointerSize then pointerSize else s.region.align
  match s.heap.posixMemalign junk align ((nodeSize + size) % 2 ^ 64) answer with
  | none => none
  | some (heap, none) => some (none, { s with heap })
  | some (heap, some sn) =>
    let mem := insertNode heap.mem sn s.region.allocs
    let segment := sn + nodeSize
    some (some segment, { s with
      heap := { heap with mem := ByteMemory.fill mem segment size 0 }
      region := { s.region with allocs := sn }
      live := ⟨segment, size⟩ :: s.live })

/-- `tm_free`. -/
def tmFree (junk : ℕ → BitVec 8) (segment : ℕ) (s : State) : Option (Bool × State) :=
  let sn := segment - nodeSize
  let (mem, allocs) := removeNode s.heap.mem sn s.region.allocs
  (BlockHeap.free junk sn { s.heap with mem }).map fun heap => (true, { s with
    heap
    region := { s.region with allocs }
    live := s.live.eraseP fun g => g.start = segment })

/-! ## Sequences of calls -/

/-- A call, with what the allocator answers and does. -/
inductive Call where
  | alloc (size : ℕ) (answer : Option ℕ) (junk : ℕ → BitVec 8)
  | free (segment : ℕ) (junk : ℕ → BitVec 8)
  | read (source size : ℕ)
  | write (target : ℕ) (data : List (BitVec 8))

/-- One call. At most `2 ^ 48` bytes are allocated at once, only live segments are freed, and a
range that is read or written belongs to one segment. -/
def step (s : State) : Call → Option State
  | .alloc size answer junk =>
    if size ≤ 2 ^ 48 then (tmAlloc junk size answer s).map Prod.snd else none
  | .free segment junk =>
    if ∃ g ∈ s.live, g.start = segment then (tmFree junk segment s).map Prod.snd else none
  | .read source size =>
    if ∃ g ∈ s.segments, g.Contains ⟨source, size⟩ then some s else none
  | .write target data =>
    if ∃ g ∈ s.segments, g.Contains ⟨target, data.length⟩ then some (tmWrite s target data).2
    else none

/-- The sequences of calls on a region. -/
def calls (created : State) : LabelledSystem State Call where
  init := created
  step := step

end TransactionalMemory.SegmentList
