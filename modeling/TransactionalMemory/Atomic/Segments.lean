import TransactionalMemory.Atomic.Stages
import TransactionalMemory.Foundations.Placement
import TransactionalMemory.Region

/-!
# Segments

The machine of `Atomic.Machine` leaves out what `tm_alloc`, `tm_free`, `tm_destroy` and the
deletion of a transaction object do to the segments. `regionMachine` adds it: the atomic accesses
of any number of transactions are interleaved with allocations, and the step that ends a
transaction also runs the rest of its call, which is the splice under `list_lock` and the
destructor of the transaction.

The lists a segment can be in are the `contents` of a `Place`. The invariant `Conserved` says that
the segments are `Placed`: where a segment is depends only on what became of the transaction that
allocated it.
-/

namespace TransactionalMemory

variable {V : Type} {S : Setup V} {t u : Tid} {gvc : Version} {words : Addr → V}
  {start : List Addr}

/-- A region with its transactions. -/
structure RegionState (V : Type) where
  /-- The region. -/
  region : Region V
  /-- The transactions. -/
  tx : Tid → Tx V
  /-- History: the transaction that `tm_alloc` returned a segment to. -/
  allocBy : SegId → Option Tid
  /-- `tm_destroy` has been called. -/
  destroyed : Bool

/-- A command of one transaction, an allocation (`none` if `aligned_alloc` fails), a call to
`tm_free`, the destruction of the region, or a commit attempt in another region. -/
inductive RegionLabel (V : Type) where
  | tx (t : Tid) (c : Command V)
  | alloc (t : Tid) (block : Option (List Addr))
  | free (t : Tid) (seg : SegId)
  | destroy
  | otherRegion

namespace RegionState

variable {s s' : RegionState V}

/-- A command of `t` has led to `sh` and `x`. If it ended the transaction, the call also deletes
the transaction object, after the segments of a committing one have been spliced. -/
def finish (s : RegionState V) (t : Tid) (sh : Shared V) (x : Tx V) : RegionState V :=
  let region := { s.region with shared := sh }
  let emptied := { x with txn := { x.txn with segList := [] } }
  -- `~Transaction` frees what is still in the list of the transaction
  match x.pc with
  | .aborted =>
    { s with region := region.deleteTxn x.txn, tx := Function.update s.tx t emptied }
  | .committed =>
    { s with
      region := if x.txn.isRo then region.deleteTxn x.txn else region.commitTxn x.txn
      tx := Function.update s.tx t emptied }
  | _ => { s with region, tx := Function.update s.tx t x }

/-- The state after `tm_alloc` has returned a block. -/
def allocated [Zero V] (s : RegionState V) (t : Tid) (words : List Addr) : RegionState V :=
  { s with
    region := { s.region with
      shared := { s.region.shared with mem := clearWords words s.region.shared.mem }
      heap := { s.region.heap with count := s.region.heap.count + 1 } }
    tx := Function.update s.tx t { s.tx t with
      txn := { (s.tx t).txn with segList := (s.tx t).txn.segList ++ [s.region.heap.count] } }
    allocBy := Function.update s.allocBy s.region.heap.count (some t) }

/-- The state after `tm_destroy`. -/
def demolished (s : RegionState V) : RegionState V :=
  { s with region := tmDestroy s.region, destroyed := true }

/-- The state after a tick of the clock from another region. -/
def ticked (s : RegionState V) : RegionState V :=
  { s with region := { s.region with shared := s.region.shared.tick } }

/-- Only an update transaction between two calls allocates and frees. -/
def step [Zero V] (S : Setup V) (s : RegionState V) : RegionLabel V → Option (RegionState V)
  | .tx t c =>
    if s.destroyed then none
    else ((s.tx t).act S t s.region.shared c).map fun res => s.finish t res.1 res.2
  | .alloc t block =>
    match (s.tx t).pc with
    | .idle =>
      if (s.tx t).txn.isRo ∨ s.destroyed then none
      else
        match tmAlloc s.region (s.tx t).txn block with
        -- a segment that could not be allocated is recorded for nobody
        | (region, txn, seg) =>
          some { s with
            region
            tx := Function.update s.tx t { s.tx t with txn }
            allocBy := seg.elim s.allocBy fun g => Function.update s.allocBy g (some t) }
    | _ => none
  | .free t seg =>
    match (s.tx t).pc with
    | .idle =>
      if (s.tx t).txn.isRo ∨ s.destroyed then none
      else
        match tmFree s.region seg with
        | (region, _) => some { s with region }
    | _ => none
  | .destroy => if s.destroyed then none else some s.demolished
  | .otherRegion => some s.ticked

end RegionState

/-- The machine of a region, with its segments. -/
def regionMachine [Zero V] (S : Setup V) (gvc : Version) (words : Addr → V)
    (start : List Addr) : LabelledSystem (RegionState V) (RegionLabel V) where
  init := {
    region := tmCreate gvc words start
    tx := fun _ => .unborn
    allocBy := fun _ => none
    destroyed := false }
  step := RegionState.step S

/-- The region is destroyed only when no transaction is open. -/
def destroyedIdle : RegionState V → RegionLabel V → RegionState V → Prop := fun s lab _ =>
  lab = .destroy → ∀ t, ¬ (s.tx t).Open

/-- The transitions of the machine, one by one. -/
inductive RegionMove [Zero V] (S : Setup V) (s : RegionState V) :
    RegionLabel V → RegionState V → Prop where
  | tx (t : Tid) (c : Command V) (sh : Shared V) (x : Tx V) (halive : s.destroyed = false)
      (hmove : Move S t s.region.shared (s.tx t) sh x) :
      RegionMove S s (.tx t c) (s.finish t sh x)
  | noMemory (t : Tid) : RegionMove S s (.alloc t none) s
  | alloc (t : Tid) (words : List Addr) (halive : s.destroyed = false)
      (hpc : (s.tx t).pc = .idle) (hupdate : (s.tx t).txn.isRo = false) :
      RegionMove S s (.alloc t (some words)) (s.allocated t words)
  | free (t : Tid) (seg : SegId) : RegionMove S s (.free t seg) s
  | destroy (halive : s.destroyed = false) : RegionMove S s .destroy s.demolished
  | tick : RegionMove S s .otherRegion s.ticked

variable {s s' : RegionState V} {lab : RegionLabel V}

/-- Every step of the machine is one of the moves. -/
theorem regionMove_of_step [Zero V] (h : (regionMachine S gvc words start).step s lab = some s') :
    RegionMove S s lab s' := by
  change RegionState.step S s lab = some s' at h
  cases lab with
  | tx t c =>
    simp only [RegionState.step, Option.ite_none_left_eq_some, Option.map_eq_some_iff] at h
    obtain ⟨halive, ⟨sh, x⟩, hact, rfl⟩ := h
    exact .tx t c sh x (by simpa using halive) (move_of_act hact)
  | alloc t block =>
    simp only [RegionState.step] at h
    split at h
    next hpc =>
      rw [Option.ite_none_left_eq_some, not_or, Bool.not_eq_true, Bool.not_eq_true] at h
      obtain ⟨⟨hupdate, halive⟩, h⟩ := h
      cases block with
      | none =>
        obtain rfl : s = s' := by simpa [tmAlloc] using h
        exact .noMemory t
      | some block =>
        obtain rfl : s.allocated t block = s' := Option.some.inj h
        exact .alloc t block halive hpc hupdate
    next => cases h
  | free t seg =>
    simp only [RegionState.step] at h
    split at h
    next =>
      rw [Option.ite_none_left_eq_some] at h
      obtain rfl : s = s' := by simpa [tmFree] using h.2
      exact .free t seg
    next => cases h
  | destroy =>
    simp only [RegionState.step, Option.ite_none_left_eq_some, Option.some.injEq] at h
    obtain ⟨halive, rfl⟩ := h
    exact .destroy (by simpa using halive)
  | otherRegion =>
    simp only [RegionState.step, Option.some.injEq] at h
    subst h
    exact .tick

/-! ## What a move does to the segments of a transaction -/

section Move

variable {sh sh' : Shared V} {x x' : Tx V}

/-- A finished transaction does not move. -/
theorem Move.not_finished (h : Move S t sh x sh' x') : x.pc ≠ .aborted ∧ x.pc ≠ .committed := by
  cases h with
  -- the version is loaded after the lock bit, or without it if the lock is held
  | validateVersionPass _ _ hpc | validateVersionFail _ _ hpc =>
    rcases hpc with hpc | ⟨hpc, -⟩ <;> simp [hpc]
  | _ => simp [*]

/-- A move of a transaction that has begun changes neither its segments nor its kind; a new
transaction has no segment. -/
theorem Move.segList (h : Move S t sh x sh' x') :
    (x.pc = .unborn ∧ x'.txn.segList = []) ∨
    (x.pc ≠ .unborn ∧ x'.txn.segList = x.txn.segList ∧ x'.txn.isRo = x.txn.isRo) := by
  cases h with
  | begin isRo hpc => exact .inl ⟨hpc, rfl⟩
  | validateVersionPass _ _ hpc | validateVersionFail _ _ hpc =>
    refine .inr ⟨?_, rfl, rfl⟩
    rcases hpc with hpc | ⟨hpc, -⟩ <;> simp [hpc]
  | _ => exact .inr ⟨by simp [*], rfl, rfl⟩

/-- A transaction that has moved has begun. -/
theorem Move.not_unborn (h : Move S t sh x sh' x') : x'.pc ≠ .unborn := by
  cases h <;> simp_all [Tx.acceptWord, Tx.giveUp, Tx.startWriteBack]

/-- The transaction is in the write-back loop of `tm_end`, or past it. -/
def Tx.Publishing (x : Tx V) : Prop :=
  match x.pc with
  | .writeBack _ | .publish .. | .committed => True
  | _ => False

/-- The write-back loop is not left before the transaction has committed. -/
theorem Move.publishing (h : Move S t sh x sh' x') (hx : x.Publishing) : x'.Publishing := by
  unfold Tx.Publishing at hx
  cases h with
  | validateVersionPass _ _ hpc | validateVersionFail _ _ hpc =>
    rcases hpc with hpc | ⟨hpc, -⟩ <;> simp [hpc] at hx
  | writeDone | store | publish => trivial
  | _ => simp_all

/-- A transaction stores to shared memory only in its write-back loop. -/
theorem Move.mem_or_publishing (h : Move S t sh x sh' x') : sh'.mem = sh.mem ∨ x'.Publishing := by
  cases h with
  | store e todo hpc => exact .inr trivial
  | _ => exact .inl rfl

end Move

/-! ## The places of the segments -/

/-- Where a segment can be. -/
inductive Place where
  /-- In the `seg_list` of an open transaction. -/
  | txn (t : Tid)
  /-- In the `seg_list` of the region. -/
  | region
  /-- Passed to `free`. -/
  | freed
  deriving DecidableEq

/-- Where the segments that a transaction allocated belong. -/
def Tx.place (t : Tid) (x : Tx V) : Place :=
  match x.pc with
  | .aborted => .freed
  | .committed => .region
  | _ => .txn t

/-- The segments of an open transaction are in its own list. -/
theorem Tx.place_of_open {x : Tx V} (h : x.pc ≠ .aborted) (h' : x.pc ≠ .committed) :
    x.place t = .txn t := by
  unfold Tx.place
  -- the splits follow the cases of `Tx.place`
  split
  next hpc => exact absurd hpc h
  next hpc => exact absurd hpc h'
  next => rfl

/-- The segments of a finished transaction are freed or in the list of the region. -/
theorem Tx.place_of_closed {x : Tx V} (hbegun : x.pc ≠ .unborn) (hclosed : ¬ x.Open) :
    x.place t = .freed ∨ x.place t = .region := by
  unfold Tx.place
  split
  next => exact .inl rfl
  next => exact .inr rfl
  next haborted hcommitted =>
    refine absurd ?_ hclosed
    unfold Tx.Open
    split
    next hpc => exact hbegun hpc
    next hpc => exact haborted hpc
    next hpc => exact hcommitted hpc
    next => trivial

namespace RegionState

/-- The segments in a place. -/
def contents (s : RegionState V) : Place → List SegId
  | .txn t => (s.tx t).txn.segList
  | .region => s.region.segList
  | .freed => s.region.heap.freed

/-- Where a segment belongs. The first segment, which no transaction has allocated, belongs to
the region object until that is destroyed. -/
def place (s : RegionState V) (g : SegId) : Option Place :=
  if s.destroyed then if g < s.region.heap.count then some .freed else none
  else (s.allocBy g).map fun t => (s.tx t).place t

/-- Every segment is in its place. Transactions that have not begun, and read-only ones, have
allocated nothing. -/
structure Conserved (s : RegionState V) : Prop where
  placed : Placed s.contents s.place
  first : 0 < s.region.heap.count
  returned : ∀ g, (∃ t, s.allocBy g = some t) ↔ 0 < g ∧ g < s.region.heap.count
  allocator : ∀ g t, s.allocBy g = some t → (s.tx t).pc ≠ .unborn ∧ (s.tx t).txn.isRo = false

section Finish

variable {sh : Shared V} {x : Tx V}

/-- A step records no allocation. -/
@[simp] theorem finish_allocBy : (s.finish t sh x).allocBy = s.allocBy := by
  unfold finish
  split <;> rfl

/-- A step does not destroy the region. -/
@[simp] theorem finish_destroyed : (s.finish t sh x).destroyed = s.destroyed := by
  unfold finish
  split <;> rfl

/-- A step creates no segment. -/
@[simp] theorem finish_count : (s.finish t sh x).region.heap.count = s.region.heap.count := by
  unfold finish
  split
  · rfl
  · split <;> rfl
  · rfl

/-- A step leaves the other transactions alone. -/
theorem finish_tx_of_ne (h : u ≠ t) : (s.finish t sh x).tx u = s.tx u := by
  unfold finish
  split <;> exact Function.update_of_ne h _ _

/-- The control point after a step. -/
@[simp] theorem finish_pc : ((s.finish t sh x).tx t).pc = x.pc := by
  unfold finish
  split <;> simp

/-- The mode after a step. -/
@[simp] theorem finish_isRo : ((s.finish t sh x).tx t).txn.isRo = x.txn.isRo := by
  unfold finish
  split <;> simp

/-- The place of the segments of the transaction after a step. -/
@[simp] theorem finish_place : ((s.finish t sh x).tx t).place t = x.place t := by
  simp only [Tx.place, finish_pc]

/-- The segments of a transaction that has just ended are moved to where they belong. -/
theorem contents_finish_of_finished (sh : Shared V) (h : x.pc = .aborted ∨ x.pc = .committed)
    (hnil : x.pc = .committed → x.txn.isRo = true → x.txn.segList = []) :
    (s.finish t sh x).contents (.txn t) = [] ∧
    (s.finish t sh x).contents (x.place t) = s.contents (x.place t) ++ x.txn.segList ∧
    ∀ p, p ≠ .txn t → p ≠ x.place t → (s.finish t sh x).contents p = s.contents p := by
  have hother : ∀ u, u ≠ t → (s.finish t sh x).contents (.txn u) = s.contents (.txn u) := by
    intro u hu
    -- another transaction is not touched
    show ((s.finish t sh x).tx u).txn.segList = _
    rw [finish_tx_of_ne hu]
    rfl
  rcases h with hpc | hpc
  · -- refused: `~Transaction` frees the segments
    have hplace : x.place t = .freed := by rw [Tx.place, hpc]
    refine ⟨?_, ?_, fun p hp hp' => ?_⟩
    · simp [finish, hpc, contents]
    · rw [hplace]
      simp [finish, hpc, contents, Region.deleteTxn]
    · cases p with
      | txn u => exact hother u (fun hu => hp (by rw [hu]))
      | region => simp [finish, hpc, contents, Region.deleteTxn]
      | freed => exact absurd hplace.symm hp'
  · -- committed: an update transaction splices its list into the one of the region
    have hplace : x.place t = .region := by rw [Tx.place, hpc]
    cases hro : x.txn.isRo with
    | true =>
      have hempty := hnil hpc hro
      refine ⟨?_, ?_, fun p hp hp' => ?_⟩
      · simp [finish, hpc, contents]
      · rw [hplace]
        simp [finish, hpc, hro, contents, Region.deleteTxn, hempty]
      · cases p with
        | txn u => exact hother u (fun hu => hp (by rw [hu]))
        | region => exact absurd hplace.symm hp'
        | freed => simp [finish, hpc, hro, contents, Region.deleteTxn, hempty]
    | false =>
      refine ⟨?_, ?_, fun p hp hp' => ?_⟩
      · simp [finish, hpc, contents]
      · rw [hplace]
        simp [finish, hpc, hro, contents, Region.commitTxn_eq]
      · cases p with
        | txn u => exact hother u (fun hu => hp (by rw [hu]))
        | region => exact absurd hplace.symm hp'
        | freed => simp [finish, hpc, hro, contents, Region.commitTxn_eq]

/-- Nothing happens to the segments of a transaction that stays open. -/
theorem contents_finish_of_open (h : x.pc ≠ .aborted) (h' : x.pc ≠ .committed)
    (hsame : x.txn.segList = s.contents (.txn t)) (p : Place) :
    (s.finish t sh x).contents p = s.contents p := by
  have hfinish : s.finish t sh x =
      { s with region := { s.region with shared := sh }, tx := Function.update s.tx t x } := by
    unfold finish
    split
    next hpc => exact absurd hpc h
    next hpc => exact absurd hpc h'
    next => rfl
  rw [hfinish]
  cases p with
  | txn u =>
    by_cases hu : u = t
    · subst hu
      show (Function.update s.tx u x u).txn.segList = _
      rw [Function.update_self, hsame]
    · show (Function.update s.tx t x u).txn.segList = _
      rw [Function.update_of_ne hu]
      rfl
  | region | freed => rfl

end Finish

/-- Before `tm_destroy` a segment belongs where its allocator has got to. -/
theorem place_of_alive (halive : s.destroyed = false) (g : SegId) :
    s.place g = (s.allocBy g).map fun u => (s.tx u).place u := by
  rw [place, halive]
  rfl

/-- A segment in the list of a transaction was allocated by it. -/
theorem allocBy_of_place_txn {g : SegId} (h : s.place g = some (.txn t)) :
    s.destroyed = false ∧ s.allocBy g = some t := by
  unfold place at h
  split at h
  next =>
    split at h <;> cases h
  next halive =>
    obtain ⟨u, hu, hplace⟩ := Option.map_eq_some_iff.1 h
    unfold Tx.place at hplace
    split at hplace <;> cases hplace
    exact ⟨by simpa using halive, hu⟩

/-- The segments of the other transactions stay where they belong. -/
theorem place_finish {sh : Shared V} {x : Tx V} (halive : s.destroyed = false)
    (hmove : Move S t s.region.shared (s.tx t) sh x) {g : SegId}
    (hg : s.place g ≠ some (.txn t)) : (s.finish t sh x).place g = s.place g := by
  rw [place_of_alive halive] at hg
  rw [place_of_alive (finish_destroyed.trans halive), finish_allocBy, place_of_alive halive]
  apply Option.map_congr
  intro u hu
  have hut : u ≠ t := by
    rintro rfl
    rw [hu, Option.map_some, Tx.place_of_open hmove.not_finished.1 hmove.not_finished.2] at hg
    exact hg rfl
  rw [finish_tx_of_ne hut]

/-- The segments that the transaction allocated belong where it has got to. -/
theorem place_finish_self {sh : Shared V} {x : Tx V} {g : SegId}
    (hg : s.place g = some (.txn t)) : (s.finish t sh x).place g = some (x.place t) := by
  obtain ⟨halive, hby⟩ := allocBy_of_place_txn hg
  rw [place_of_alive (finish_destroyed.trans halive), finish_allocBy, hby, Option.map_some,
    finish_place]

section Moved

variable {sh : Shared V} {x : Tx V} (h : s.Conserved) (halive : s.destroyed = false)
  (hmove : Move S t s.region.shared (s.tx t) sh x)

include h hmove

/-- A transaction that moves keeps its segments; before it has begun it has none. -/
theorem Conserved.segList_moved : x.txn.segList = s.contents (.txn t) := by
  rcases hmove.segList with ⟨hpc, hnil⟩ | ⟨-, heq, -⟩
  · rw [hnil]
    refine (h.placed.eq_nil fun g hg => ?_).symm
    exact (h.allocator g t (allocBy_of_place_txn hg).2).1 hpc
  · exact heq

/-- A transaction that has allocated something is not a read-only one. -/
theorem Conserved.isRo_moved {g : SegId} (hg : s.allocBy g = some t) : x.txn.isRo = false := by
  obtain ⟨hpc, hupdate⟩ := h.allocator g t hg
  rcases hmove.segList with ⟨hpc', -⟩ | ⟨-, -, hro⟩
  · exact absurd hpc' hpc
  · rw [hro, hupdate]

include halive

/-- The segments are where they belong after a step. -/
theorem Conserved.placed_finish :
    Placed (s.finish t sh x).contents (s.finish t sh x).place := by
  have hsame := h.segList_moved hmove
  by_cases hfinished : x.pc = .aborted ∨ x.pc = .committed
  · -- the list of a read-only transaction is empty, so it does not matter that it is not spliced
    have hnil : x.pc = .committed → x.txn.isRo = true → x.txn.segList = [] := by
      intro _ hro
      rw [hsame]
      apply h.placed.eq_nil
      intro g hg
      rw [h.isRo_moved hmove (allocBy_of_place_txn hg).2] at hro
      cases hro
    obtain ⟨hfrom, hto, hother⟩ := contents_finish_of_finished (s := s) (t := t) sh hfinished hnil
    have hne : Place.txn t ≠ x.place t := by
      unfold Tx.place
      rcases hfinished with hpc | hpc <;> simp [hpc]
    rw [hsame] at hto
    exact h.placed.move hne hfrom hto hother (fun g hg => place_finish_self hg)
      fun g hg => place_finish halive hmove hg
  · rw [not_or] at hfinished
    apply h.placed.congr (contents_finish_of_open hfinished.1 hfinished.2 hsame)
    intro g
    by_cases hg : s.place g = some (.txn t)
    · rw [place_finish_self hg, hg, Tx.place_of_open hfinished.1 hfinished.2]
    · exact place_finish halive hmove hg

/-- The segments are conserved by a step of a transaction. -/
theorem Conserved.finish : (s.finish t sh x).Conserved := by
  refine ⟨h.placed_finish halive hmove, ?_, fun g => ?_, fun g u hu => ?_⟩
  · rw [finish_count]
    exact h.first
  · rw [finish_allocBy, finish_count]
    exact h.returned g
  · rw [finish_allocBy] at hu
    by_cases hut : u = t
    · subst hut
      rw [finish_pc, finish_isRo]
      exact ⟨hmove.not_unborn, h.isRo_moved hmove hu⟩
    · rw [finish_tx_of_ne hut]
      exact h.allocator g u hu

end Moved

/-- The segments are conserved by `tm_alloc`. -/
theorem Conserved.allocated [Zero V] (h : s.Conserved) (halive : s.destroyed = false)
    (hpc : (s.tx t).pc = .idle) (hupdate : (s.tx t).txn.isRo = false) (block : List Addr) :
    (s.allocated t block).Conserved := by
  -- segments are numbered in the order of their allocation
  have hnew : s.allocBy s.region.heap.count = none := by
    rw [Option.eq_none_iff_forall_ne_some]
    intro u hu
    exact lt_irrefl _ ((h.returned _).1 ⟨u, hu⟩).2
  have htx : ∀ u, ((s.allocated t block).tx u).pc = (s.tx u).pc ∧
      ((s.allocated t block).tx u).txn.isRo = (s.tx u).txn.isRo := by
    intro u
    by_cases hut : u = t
    · subst hut
      simp [RegionState.allocated]
    · simp [RegionState.allocated, hut]
  have hplace : ∀ g, (s.allocated t block).place g =
      ((s.allocated t block).allocBy g).map fun u => (s.tx u).place u := by
    intro g
    rw [place, show (s.allocated t block).destroyed = false from halive]
    simp only [Bool.false_eq_true, if_false, Tx.place, htx]
  refine ⟨?_, Nat.succ_pos _, fun g => ?_, fun g u hu => ?_⟩
  · refine h.placed.add (p := .txn t) (g := s.region.heap.count) ?_ ?_ (fun q hq => ?_) ?_
      fun g hg => ?_
    · rw [place, halive, hnew]
      rfl
    · simp [contents, RegionState.allocated]
    · cases q with
      | txn u =>
        have hut : u ≠ t := fun hut => hq (by rw [hut])
        simp [contents, RegionState.allocated, hut]
      | region | freed => rfl
    · rw [hplace]
      simp [RegionState.allocated, Tx.place, hpc]
    · rw [hplace, place, halive]
      simp [RegionState.allocated, hg]
  · show (∃ u, Function.update s.allocBy s.region.heap.count (some t) g = some u) ↔
      0 < g ∧ g < s.region.heap.count + 1
    -- the new segment has the next number
    by_cases hg : g = s.region.heap.count
    · subst hg
      rw [Function.update_self]
      exact ⟨fun _ => ⟨h.first, Nat.lt_succ_self _⟩, fun _ => ⟨t, rfl⟩⟩
    · rw [Function.update_of_ne hg, h.returned g, Nat.lt_succ_iff_lt_or_eq, or_iff_left hg]
  · rw [(htx u).1, (htx u).2]
    by_cases hg : g = s.region.heap.count
    · subst hg
      obtain rfl : t = u := by simpa [RegionState.allocated] using hu
      exact ⟨by rw [hpc]; exact nofun, hupdate⟩
    · exact h.allocator g u (by simpa [RegionState.allocated, hg] using hu)

/-- The lists once `tm_destroy` has freed the segments in the list of the region. -/
def emptied (s : RegionState V) : Place → List SegId
  | .txn t => s.contents (.txn t)
  | .region => []
  | .freed => s.contents .freed ++ s.contents .region

/-- `tm_destroy` moves the segments of the region to the freed ones. -/
theorem Conserved.placed_emptied (h : s.Conserved) :
    Placed s.emptied fun g => if s.place g = some .region then some .freed else s.place g := by
  refine h.placed.move (p := .region) (q := .freed) nofun rfl rfl (fun r hr hr' => ?_)
    (fun g hg => if_pos hg) fun g hg => if_neg hg
  cases r with
  | txn t => rfl
  | region => exact absurd rfl hr
  | freed => exact absurd rfl hr'

/-- `tm_destroy` moves the segments of the region to the freed ones, and the first segment after
them. -/
theorem Conserved.demolished (h : s.Conserved) (halive : s.destroyed = false)
    (hclosed : ∀ t, ¬ (s.tx t).Open) : s.demolished.Conserved := by
  refine ⟨?_, h.first, h.returned, h.allocator⟩
  have hplace := place_of_alive halive
  have hfirst : s.allocBy 0 = none := by
    rw [Option.eq_none_iff_forall_ne_some]
    intro u hu
    exact lt_irrefl _ ((h.returned 0).1 ⟨u, hu⟩).1
  have hfinished : ∀ g u, s.allocBy g = some u →
      (s.tx u).place u = .freed ∨ (s.tx u).place u = .region :=
    fun g u hu => Tx.place_of_closed (h.allocator g u hu).1 (hclosed u)
  -- the segments of the list are freed first, and then the first segment
  refine h.placed_emptied.add (p := .freed) (g := 0) ?_ ?_ (fun q hq => ?_) ?_ fun g hg => ?_
  · simp only [hplace, hfirst, Option.map_none, reduceCtorEq, if_false]
  · show s.region.heap.freed ++ (s.region.segList ++ [0]) = _
    exact (List.append_assoc _ _ _).symm
  · cases q with
    | txn t | region => rfl
    | freed => exact absurd rfl hq
  · exact if_pos h.first
  · show (if g < s.region.heap.count then some Place.freed else none) = _
    cases hby : s.allocBy g with
    | none =>
      -- apart from the first segment, what nobody allocated does not exist
      have hge : ¬ g < s.region.heap.count := by
        intro hlt
        obtain ⟨u, hu⟩ := (h.returned g).2 ⟨Nat.pos_of_ne_zero hg, hlt⟩
        rw [hby] at hu
        cases hu
      rw [if_neg hge, hplace, hby]
      rfl
    | some u =>
      rw [if_pos ((h.returned g).1 ⟨u, hby⟩).2, hplace, hby]
      rcases hfinished g u hby with hu | hu <;> simp [hu]

/-- The segments are conserved by every step. -/
theorem Conserved.step [Zero V] {lab : RegionLabel V} (h : s.Conserved)
    (hstep : RegionMove S s lab s') (hok : destroyedIdle s lab s') : s'.Conserved := by
  cases hstep with
  | tx t c sh x halive hmove => exact h.finish halive hmove
  | noMemory t | free t seg => exact h
  | alloc t block halive hpc hupdate => exact h.allocated halive hpc hupdate block
  | destroy halive => exact h.demolished halive (hok rfl)
  | tick => exact ⟨h.placed, h.first, h.returned, h.allocator⟩

end RegionState

open RegionState

/-- The segments are conserved in every run. -/
theorem conserved_of_reachable [Zero V]
    (h : (regionMachine S gvc words start).Reachable destroyedIdle s) : s.Conserved := by
  refine h.invariant ?_ fun s lab s' _ ih hstep hok => ih.step (regionMove_of_step hstep) hok
  refine ⟨fun p g => ?_, Nat.one_pos, fun g => ?_, fun g t hg => nomatch hg⟩
  · -- no list holds a segment yet
    cases p <;> rfl
  · show (∃ t, none = some t) ↔ 0 < g ∧ g < 1
    simp only [reduceCtorEq, exists_false, false_iff, not_and, Nat.lt_one_iff]
    exact fun hpos => hpos.ne'

/-! ## A refused transaction publishes nothing -/

/-- A transaction that publishes keeps doing so until it has committed. -/
theorem publishing_of_step [Zero V] (hmove : RegionMove S s lab s')
    (ht : (s.tx t).Publishing) : (s'.tx t).Publishing := by
  have hpc : ∀ {x y : Tx V}, x.pc = y.pc → y.Publishing → x.Publishing := by
    intro x y hpc hy
    rwa [Tx.Publishing, hpc]
  cases hmove with
  | tx u c sh x halive hmove =>
    by_cases hut : t = u
    · subst hut
      exact hpc finish_pc (hmove.publishing ht)
    · rwa [finish_tx_of_ne hut]
  | noMemory | free | destroy | tick => exact ht
  | alloc u block =>
    by_cases hut : t = u
    · subst hut
      exact hpc (by simp [allocated]) ht
    · rwa [show (s.allocated u block).tx t = s.tx t from Function.update_of_ne hut _ _]

/-- A step of a transaction that changes a shared word is part of its write-back loop. -/
theorem publishing_of_mem [Zero V] {c : Command V} (hmove : RegionMove S s (.tx t c) s')
    (hmem : s'.region.shared.mem ≠ s.region.shared.mem) : (s'.tx t).Publishing := by
  cases hmove with
  | tx _ _ sh x halive hmove =>
    have hshared : (s.finish t sh x).region.shared = sh := by
      unfold finish
      split
      · rfl
      · split <;> rfl
      · rfl
    -- only the write-back loop stores to shared memory
    rcases hmove.mem_or_publishing with hsame | hx
    · rw [hshared] at hmem
      exact absurd hsame hmem
    · unfold Tx.Publishing
      rw [finish_pc]
      exact hx

/-- No step of the transaction `t` in a run changes a shared word, or is one of the write-back loop,
where it could store an equal word. -/
def NeverStores [Zero V] (sys : LabelledSystem (RegionState V) (RegionLabel V))
    (labs : List (RegionLabel V)) (t : Tid) : Prop :=
  ∀ pre c post s s', labs = pre ++ .tx t c :: post →
    sys.Run LabelledSystem.always sys.init pre s → sys.step s (.tx t c) = some s' →
    s'.region.shared.mem = s.region.shared.mem ∧ ¬ (s'.tx t).Publishing

section Refused

variable [Zero V] {labs : List (RegionLabel V)}

/-- A refused transaction takes no further step. -/
theorem aborted_of_run {ok : RegionState V → RegionLabel V → RegionState V → Prop}
    (h : (regionMachine S gvc words start).Run ok s labs s') (ht : (s.tx t).pc = .aborted) :
    (s'.tx t).pc = .aborted := by
  refine h.invariant (I := fun u => (u.tx t).pc = .aborted) (fun u lab v ih hstep _ => ?_) ht
  -- no move starts at `aborted`
  cases regionMove_of_step hstep with
  | tx w c sh x halive hmove =>
    by_cases hut : t = w
    · subst hut
      exact absurd ih hmove.not_finished.1
    · rwa [finish_tx_of_ne hut]
  | noMemory | free | destroy | tick => exact ih
  | alloc w block halive hpc =>
    have hut : t ≠ w := by
      rintro rfl
      exact nomatch hpc.symm.trans ih
    rwa [show (u.allocated w block).tx t = u.tx t from Function.update_of_ne hut _ _]

/-- A refused transaction has never stored a word. -/
theorem neverStores_of_aborted {ok : RegionState V → RegionLabel V → RegionState V → Prop}
    (h : (regionMachine S gvc words start).Run ok (regionMachine S gvc words start).init labs s)
    (ht : (s.tx t).pc = .aborted) : NeverStores (regionMachine S gvc words start) labs t := by
  rintro pre c post u v rfl hpre hstep
  -- split the run at the step `c`
  rw [← List.singleton_append, ← List.append_assoc] at h
  obtain ⟨v', hfirst, hrest⟩ := h.split
  obtain ⟨u', hpre', hstep', -⟩ := hfirst.of_concat
  obtain rfl := hpre.eq_of_run hpre'
  obtain rfl : v = v' := Option.some.inj (hstep.symm.trans hstep')
  -- the write-back loop ends in a commit, so the step is not one of it
  have hnot : ¬ (v.tx t).Publishing := by
    intro hv
    have hpublishing : (s.tx t).Publishing :=
      hrest.invariant (I := fun u => (u.tx t).Publishing)
        (fun _ _ _ ih hstep _ => publishing_of_step (regionMove_of_step hstep) ih) hv
    rw [Tx.Publishing, ht] at hpublishing
    exact hpublishing
  refine ⟨?_, hnot⟩
  by_contra hmem
  exact hnot (publishing_of_mem (regionMove_of_step hstep) hmem)

end Refused

/-! ## Segment conservation -/

/-- The segments at the end of a run of the system `sys` that has the labels `labs`. -/
structure SegmentsConserved [Zero V] (sys : LabelledSystem (RegionState V) (RegionLabel V))
    (labs : List (RegionLabel V)) (s : RegionState V) : Prop where
  /-- A segment that `tm_alloc` returned is in exactly one place, once. -/
  once : ∀ g t, s.allocBy g = some t →
    ∃ p, (s.contents p).count g = 1 ∧ ∀ q, q ≠ p → g ∉ s.contents q
  /-- A segment in the list of a transaction was allocated by it, and the transaction is open. -/
  held : ∀ t, ∀ g ∈ s.contents (.txn t), s.allocBy g = some t ∧ (s.tx t).Open
  /-- Before `tm_destroy`, a freed segment was allocated by a refused transaction. -/
  freed : s.destroyed = false → ∀ g ∈ s.contents .freed,
    ∃ t, s.allocBy g = some t ∧ (s.tx t).pc = .aborted
  /-- Before `tm_destroy`, the region holds the segments of the committed transactions. -/
  kept : s.destroyed = false → ∀ g t, s.allocBy g = some t → (s.tx t).pc = .committed →
    g ∈ s.contents .region
  /-- After `tm_destroy`, the first segment and all others have been freed exactly once. -/
  destroyed : s.destroyed = true →
    ∀ g, (g = 0 ∨ ∃ t, s.allocBy g = some t) → (s.contents .freed).count g = 1
  /-- A refused transaction has not stored a word, and never will. -/
  silent : ∀ t, (s.tx t).pc = .aborted → ∀ labs' s', sys.Run destroyedIdle s labs' s' →
    NeverStores sys (labs ++ labs') t

/-- The segments are conserved in every run. -/
theorem segmentsConserved [Zero V] {labs : List (RegionLabel V)}
    (h : (regionMachine S gvc words start).Run destroyedIdle
      (regionMachine S gvc words start).init labs s) :
    SegmentsConserved (regionMachine S gvc words start) labs s := by
  have hconserved := conserved_of_reachable ⟨labs, h⟩
  have hplace : ∀ g t, s.allocBy g = some t → s.destroyed = false →
      s.place g = some ((s.tx t).place t) := by
    intro g t ht halive
    rw [place_of_alive halive, ht, Option.map_some]
  have hdestroyed : ∀ g, s.destroyed = true → g < s.region.heap.count →
      s.place g = some .freed := by
    intro g hd hlt
    rw [place, hd, if_pos rfl, if_pos hlt]
  refine ⟨fun g t ht => ?_, fun t g hg => ?_, fun halive g hg => ?_, fun halive g t ht hpc => ?_,
    fun hd g hg => ?_, fun t ht labs' s' h' =>
      neverStores_of_aborted (h.append h') (aborted_of_run h' ht)⟩
  · -- exactly one place: the one where the segment belongs
    have hsome : ∃ p, s.place g = some p := by
      cases hd : s.destroyed with
      | true => exact ⟨_, hdestroyed g hd ((hconserved.returned g).1 ⟨t, ht⟩).2⟩
      | false => exact ⟨_, hplace g t ht hd⟩
    obtain ⟨p, hp⟩ := hsome
    refine ⟨p, hconserved.placed.count_eq_one hp, fun q hq hmem => hq ?_⟩
    exact Option.some.inj ((hconserved.placed.mem_iff.1 hmem).symm.trans hp)
  · -- a segment of a list of a transaction belongs to it, so it is open
    have hp := hconserved.placed.mem_iff.1 hg
    obtain ⟨halive, hby⟩ := allocBy_of_place_txn hp
    refine ⟨hby, ?_⟩
    have hbegun := (hconserved.allocator g t hby).1
    rw [hplace g t hby halive] at hp
    unfold Tx.place at hp
    unfold Tx.Open
    split at hp <;> simp_all
  · -- only an aborted transaction places its segments among the freed ones
    have hp := hconserved.placed.mem_iff.1 hg
    rw [place, halive] at hp
    obtain ⟨t, ht, hfreed⟩ := Option.map_eq_some_iff.1 hp
    refine ⟨t, ht, ?_⟩
    unfold Tx.place at hfreed
    split at hfreed
    next hpc => exact hpc
    next => cases hfreed
    next => cases hfreed
  · apply hconserved.placed.mem_iff.2
    rw [hplace g t ht halive, Tx.place, hpc]
  · refine hconserved.placed.count_eq_one (hdestroyed g hd ?_)
    rcases hg with rfl | ht
    · exact hconserved.first
    · exact ((hconserved.returned g).1 ht).2

/-- Transactions 1 and 2 allocate a segment each. Transaction 1 commits and transaction 2 is
refused. -/
def endingRun : List (RegionLabel ℕ) :=
  [.tx 1 (.begin false), .alloc 1 (some [8]), .tx 1 (.write 8 5), .tx 2 (.begin false),
    .alloc 2 (some [16]), .tx 1 .endTx] ++ List.replicate 6 (.tx 1 .step) ++
  [.tx 2 (.read [8]), .tx 2 .step, .tx 2 .step]

/-- The call is not `tm_destroy`. -/
def notDestroy (_ : RegionState ℕ) : RegionLabel ℕ → RegionState ℕ → Bool
  | .destroy, _ => false
  | _, _ => true

/-- A run without `tm_destroy` is one that destroys no region in use. -/
theorem destroyedIdle_of_notDestroy {s s' : RegionState ℕ} {lab : RegionLabel ℕ}
    (h : notDestroy s lab s' = true) : destroyedIdle s lab s' := by
  rintro rfl
  cases h

theorem endingRun_isSome : ((regionMachine (Setup.plain ℕ) 0 (fun _ => 0) []).exec notDestroy
    (regionMachine (Setup.plain ℕ) 0 (fun _ => 0) []).init endingRun).isSome := by decide

/-- The state at the end of the run. -/
def endedState : RegionState ℕ :=
  ((regionMachine (Setup.plain ℕ) 0 (fun _ => 0) []).exec notDestroy
    (regionMachine (Setup.plain ℕ) 0 (fun _ => 0) []).init endingRun).get endingRun_isSome

/-- No transaction is open at the end of the run. -/
theorem endedState_closed (t : Tid) : ¬ (endedState.tx t).Open := by
  match t with
  | 0 => exact id
  | 1 => exact id
  | 2 => exact id
  | _ + 3 => exact id

theorem segmentsConserved_destroyed :
    SegmentsConserved (regionMachine (Setup.plain ℕ) 0 (fun _ => 0) []) (endingRun ++ [.destroy])
      endedState.demolished :=
  segmentsConserved (.snoc
    (LabelledSystem.run_of_exec (fun _ _ _ => destroyedIdle_of_notDestroy)
      (Option.eq_some_of_isSome endingRun_isSome))
    rfl fun _ => endedState_closed)

end TransactionalMemory
