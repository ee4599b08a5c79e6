import TransactionalMemory.DataStructures
import TransactionalMemory.Foundations.Bytes

/-!
# The reference implementation

The functions of `reference/tm.c`, on the bytes of the segments. A transaction holds the one lock
of the region from `tm_begin` to `tm_end`, so it works on the shared memory in place: `tm_read` and
`tm_write` are one `memcpy` of the whole range, and `tm_end` only releases the lock.

A segment is given by its first byte and its size; the header that `tm_alloc` puts in front of it
is not part of it. `tm_free` gives the block of a segment back to the allocator, which may do
anything to its bytes: `junk` is what they hold from then on.
-/

namespace TransactionalMemory

/-- A byte of shared memory. -/
abbrev Byte := BitVec 8

/-- A segment of shared memory. -/
structure Segment where
  /-- The address of its first byte. -/
  start : Addr
  /-- Its size in bytes. -/
  size : ℕ
  deriving DecidableEq

namespace Segment

/-- The addresses of the bytes of a segment. -/
instance : Membership Addr Segment := ⟨fun g b => g.start ≤ b ∧ b < g.start + g.size⟩

/-- The bytes of a segment. -/
theorem mem_def {g : Segment} {b : Addr} : b ∈ g ↔ g.start ≤ b ∧ b < g.start + g.size := Iff.rfl

instance (g : Segment) (b : Addr) : Decidable (b ∈ g) := inferInstanceAs (Decidable (_ ∧ _))

/-- A nonempty segment of whole words. -/
def Aligned (align : ℕ) (g : Segment) : Prop := align ∣ g.start ∧ align ∣ g.size ∧ 0 < g.size

instance (align : ℕ) (g : Segment) : Decidable (g.Aligned align) :=
  inferInstanceAs (Decidable (_ ∧ _))

/-- Two segments have no byte in common. -/
def Disjoint (g h : Segment) : Prop := g.start + g.size ≤ h.start ∨ h.start + h.size ≤ g.start

instance (g h : Segment) : Decidable (g.Disjoint h) := inferInstanceAs (Decidable (_ ∨ _))

/-- All bytes of `h` belong to `g`. -/
def Contains (g h : Segment) : Prop := g.start ≤ h.start ∧ h.start + h.size ≤ g.start + g.size

instance (g h : Segment) : Decidable (g.Contains h) := inferInstanceAs (Decidable (_ ∧ _))

variable {g h : Segment} {b : Addr}

/-- Disjointness is symmetric. -/
theorem Disjoint.symm (hd : g.Disjoint h) : h.Disjoint g := Or.symm hd

/-- Disjoint segments have no byte in common. -/
theorem Disjoint.not_mem (hd : g.Disjoint h) (hb : b ∈ g) : b ∉ h := by
  intro hb'
  rcases hd with hd | hd
  · exact absurd (hb.2.trans_le hd) (not_lt.2 hb'.1)
  · exact absurd (hb'.2.trans_le hd) (not_lt.2 hb.1)

/-- A segment has the bytes of every segment that it contains. -/
theorem Contains.mem (hc : g.Contains h) (hb : b ∈ h) : b ∈ g :=
  ⟨hc.1.trans hb.1, hb.2.trans_le hc.2⟩

end Segment

namespace Reference

/-- A region of the reference implementation. -/
structure Region where
  /-- The bytes of the segments. -/
  mem : Addr → Byte
  /-- The first, non-deallocable segment. -/
  first : Segment
  /-- The segments allocated and not freed, the latest first. -/
  allocs : List Segment

/-- The segments that can be accessed. -/
def Region.segments (r : Region) : List Segment := r.first :: r.allocs

/-- `tm_create`. -/
def tmCreate (mem : Addr → Byte) (first : Segment) : Region where
  mem := ByteMemory.fill mem first.start first.size 0
  first := first
  allocs := []

/-- `tm_read`. -/
def tmRead (r : Region) (source : Addr) (size : ℕ) : List Byte := ByteMemory.slice r.mem source size

/-- `tm_write`. -/
def tmWrite (r : Region) (target : Addr) (data : List Byte) : Region :=
  { r with mem := ByteMemory.store r.mem target data }

/-- `tm_alloc`, given the segment that the allocator makes room for. -/
def tmAlloc (r : Region) (segment : Segment) : Region :=
  { r with
    mem := ByteMemory.fill r.mem segment.start segment.size 0
    allocs := segment :: r.allocs }

/-- `tm_free`: the segment is unlinked and given back to the allocator. -/
def tmFree (junk : Addr → Byte) (r : Region) (segment : Addr) : Region :=
  { r with
    mem := fun b =>
      if (r.allocs.any fun g => g.start = segment ∧ b ∈ g) then junk b else r.mem b
    allocs := r.allocs.filter fun g => g.start ≠ segment }

/-- `tm_end`. -/
def tmEnd (r : Region) : Bool × Region := (true, r)

end Reference

end TransactionalMemory
