import TransactionalMemory.DataStructures

/-!
# Memory regions and their segments

The region object of `394984/data-structures.cpp` with its allocator, and the functions of
`394984/tm.cpp` that create, destroy, allocate and free. A segment is owned by the list of the
transaction that allocated it until the transaction ends: `delete txn` frees the segments still in
that list, and a commit splices the list into the one of the region first.
-/

namespace TransactionalMemory

variable {V : Type}

/-- The allocator's record of the segments of a region: how many were handed out, and the calls
to `free` in their order. -/
structure Heap where
  /-- The number of segments handed out. -/
  count : ℕ
  /-- The segments passed to `free`. -/
  freed : List SegId

namespace Heap

/-- Free the segments of a list, in its order. -/
def free (h : Heap) (segs : List SegId) : Heap := { h with freed := h.freed ++ segs }

/-- Freeing segments creates none. -/
@[simp] theorem free_count (h : Heap) (segs : List SegId) : (h.free segs).count = h.count := rfl

/-- Freed segments are recorded. -/
@[simp] theorem free_freed (h : Heap) (segs : List SegId) :
    (h.free segs).freed = h.freed ++ segs := rfl

end Heap

/-- A memory region. Segment 0 is the first, non-deallocable one (`start`). -/
structure Region (V : Type) where
  /-- The clock, the locks and the shared words. -/
  shared : Shared V
  /-- The segments of the committed transactions. -/
  segList : List SegId
  /-- The segments handed out and freed. -/
  heap : Heap

/-- `memset` to zero on some words. -/
def clearWords [Zero V] (words : List Addr) (mem : Addr → V) : Addr → V :=
  fun a => if a ∈ words then 0 else mem a

/-- `delete txn`: the destructor frees the segments of the transaction. -/
def Region.deleteTxn (r : Region V) (txn : Transaction V) : Region V :=
  { r with heap := r.heap.free txn.segList }

/-- The end of a committing `tm_end`: the segments of the transaction are spliced into the list of
the region, and the transaction, its list now empty, is deleted. -/
def Region.commitTxn (r : Region V) (txn : Transaction V) : Region V :=
  { r with segList := r.segList ++ txn.segList }.deleteTxn { txn with segList := [] }

/-- The deleted transaction has no segment left to free. -/
theorem Region.commitTxn_eq (r : Region V) (txn : Transaction V) :
    r.commitTxn txn = { r with segList := r.segList ++ txn.segList } := by
  simp [commitTxn, deleteTxn, Heap.free]

/-! ## Creating and destroying a region -/

/-- `tm_create`: all locks are free with version zero, and the words of the first segment are
zero. The clock is a global variable. -/
def tmCreate [Zero V] (gvc : Version) (mem : Addr → V) (start : List Addr) : Region V where
  shared := { gvc, locks := fun _ => 0, mem := clearWords start mem }
  segList := []
  heap := { count := 1, freed := [] }

/-- `tm_destroy`: the destructor of the region frees the listed segments and the first one. -/
def tmDestroy (r : Region V) : Region V :=
  { r with segList := [], heap := r.heap.free (r.segList ++ [0]) }

/-! ## Allocating and freeing -/

/-- `tm_alloc`, given the words of the block that `aligned_alloc` returns, if it returns one. -/
def tmAlloc [Zero V] (r : Region V) (txn : Transaction V) (block : Option (List Addr)) :
    Region V × Transaction V × Option SegId :=
  match block with
  | none => (r, txn, none)
  | some words =>
    ({ r with
        shared := { r.shared with mem := clearWords words r.shared.mem }
        heap := { r.heap with count := r.heap.count + 1 } },
      { txn with segList := txn.segList ++ [r.heap.count] }, some r.heap.count)

/-- `tm_free` does nothing. -/
def tmFree (r : Region V) (_ : SegId) : Region V × Bool := (r, true)

end TransactionalMemory
