import Mathlib.Algebra.Notation.Pi.Defs
import Mathlib.Data.BitVec
import TransactionalMemory.Foundations.LabelledSystem
import TransactionalMemory.Reference
import TransactionalMemory.Sequential.CallSpecs

/-!
# Buffered transactions and in-place copying

Transactions that run one after another are executed by two systems with the same labels.
`direct` is the reference implementation, which works on the bytes of the shared memory in place;
it also checks the contract of the interface and refuses calls that violate it. `buffered` is the
implementation of `Sequential.Calls` on words of `align` bytes. Each call is answered by a
`Reply`.

`Simulates` relates their states: the shared words, with the buffered ones in front, hold the same
bytes as the reference memory wherever that can be accessed. Every step of `direct` is answered
by a step of `buffered` with the same reply (`Simulates.step`).
-/

namespace TransactionalMemory

open VersionedWriteLock UnorderedMap

/-- A call, with the size of a range in bytes. -/
inductive MemCall where
  | begin (t : Tid) (isRo : Bool)
  | read (source : Addr) (size : ℕ)
  | write (target : Addr) (data : List Byte)
  | alloc (segment : Segment)
  | free (segment : Addr)
  | endTx

/-- What a call returns. -/
inductive Reply where
  | done
  | refused
  | bytes (data : List Byte)
  | address (a : Addr)
  deriving DecidableEq

/-! ## The two systems -/

/-- The reference implementation, running at most one transaction. -/
structure DirectState where
  /-- The region. -/
  region : Reference.Region
  /-- Whether the open transaction is read-only. -/
  current : Option Bool
  /-- History: the segments handed out so far. -/
  handedOut : List Segment
  /-- History: what the clock of the other implementation is. -/
  clock : ℕ
  /-- History: the replies so far. -/
  replies : List Reply

/-- A range of whole words in one segment. -/
def DirectState.Accessible (align : ℕ) (s : DirectState) (range : Segment) : Prop :=
  range.Aligned align ∧ ∃ g ∈ s.region.segments, g.Contains range

instance (align : ℕ) (s : DirectState) (range : Segment) : Decidable (s.Accessible align range) :=
  inferInstanceAs (Decidable (_ ∧ _))

/-- One call of the reference implementation, refused if it violates the contract. -/
def directStep (align : ℕ) (junk : Addr → Byte) (s : DirectState) : MemCall → Option DirectState
  | .begin _ isRo =>
    if s.current = none then some { s with current := some isRo, replies := s.replies ++ [.done] }
    else none
  | .read source size =>
    if s.current ≠ none ∧ s.Accessible align ⟨source, size⟩ then
      some { s with replies := s.replies ++ [.bytes (Reference.tmRead s.region source size)] }
    else none
  | .write target data =>
    if s.current = some false ∧ s.Accessible align ⟨target, data.length⟩ then
      some { s with
        region := Reference.tmWrite s.region target data
        replies := s.replies ++ [.done] }
    else none
  | .alloc segment =>
    -- the allocator hands out fresh blocks
    if s.current = some false ∧ segment.Aligned align ∧
        ∀ g ∈ s.handedOut, g.Disjoint segment then
      some { s with
        region := Reference.tmAlloc s.region segment
        handedOut := segment :: s.handedOut
        replies := s.replies ++ [.address segment.start] }
    else none
  | .free segment =>
    if s.current = some false ∧ ∃ g ∈ s.region.allocs, g.start = segment then
      some { s with
        region := Reference.tmFree junk s.region segment
        replies := s.replies ++ [.done] }
    else none
  | .endTx =>
    match s.current with
    | none => none
    | some true =>
      some { s with
        region := (Reference.tmEnd s.region).2, current := none, replies := s.replies ++ [.done] }
    | some false =>
      -- a commit advances the clock, which stays below `2 ^ 63`
      if s.clock + 1 < 2 ^ 63 then
        some { s with
          region := (Reference.tmEnd s.region).2
          current := none
          clock := s.clock + 1
          replies := s.replies ++ [.done] }
      else none

/-- The runs of the reference implementation on a fresh region. -/
def direct (align : ℕ) (junk : Addr → Byte) (gvc : Version) (mem : Addr → Byte)
    (first : Segment) : LabelledSystem DirectState MemCall where
  init := {
    region := Reference.tmCreate mem first
    current := none
    handedOut := [first]
    clock := gvc.toNat
    replies := [] }
  step := directStep align junk

/-- A word of `align` bytes. -/
abbrev MemWord (align : ℕ) := Fin align → Byte

/-- The implementation under test, running at most one transaction. -/
structure BufferedState (align : ℕ) where
  /-- The region. -/
  region : Region (MemWord align)
  /-- The open transaction. -/
  current : Option (Tid × Transaction (MemWord align))
  /-- History: the replies so far. -/
  replies : List Reply

/-- One call. A refused call ends the transaction. -/
def bufferedStep {align : ℕ} (S : Setup (MemWord align)) (s : BufferedState align) :
    MemCall → Option (BufferedState align)
  | .begin t isRo =>
    match s.current with
    | none => some { s with
        current := some (t, tmBegin s.region isRo), replies := s.replies ++ [.done] }
    | some _ => none
  | .read source size =>
    s.current.map fun c =>
      match tmRead S s.region c.2 (ByteMemory.wordAddrs align source size) with
      | (region, none) => { region, current := none, replies := s.replies ++ [.refused] }
      | (region, some (txn, vals)) => {
          region
          current := some (c.1, txn)
          replies := s.replies ++ [.bytes (vals.flatMap List.ofFn)] }
  | .write target data =>
    s.current.map fun c => { s with
      current := some (c.1, tmWrite c.2 (ByteMemory.wordEntries align target data))
      replies := s.replies ++ [.done] }
  | .alloc segment =>
    s.current.map fun c =>
      match tmAlloc s.region c.2
          (some (ByteMemory.wordAddrs align segment.start segment.size)) with
      | (region, txn, _) => {
          region
          current := some (c.1, txn)
          replies := s.replies ++ [.address segment.start] }
  | .free segment =>
    s.current.map fun _ =>
      match tmFree s.region segment with
      | (region, true) => { s with region, replies := s.replies ++ [.done] }
      | (region, false) => { region, current := none, replies := s.replies ++ [.refused] }
  | .endTx =>
    s.current.map fun c =>
      match tmEnd S c.1 s.region c.2 with
      | (true, region) => { region, current := none, replies := s.replies ++ [.done] }
      | (false, region) => { region, current := none, replies := s.replies ++ [.refused] }

/-- The runs of the implementation on a fresh region. -/
def buffered {align : ℕ} (S : Setup (MemWord align)) (gvc : Version) (mem : Addr → MemWord align)
    (first : Segment) : LabelledSystem (BufferedState align) MemCall where
  init := {
    region := tmCreate gvc mem (ByteMemory.wordAddrs align first.start first.size)
    current := none
    replies := [] }
  step := bufferedStep S

variable {align : ℕ} {S : Setup (MemWord align)} {junk : Addr → Byte} {s s₂ : DirectState}
  {s' : BufferedState align} {c : MemCall}

/-! ## The layout of the reference memory -/

/-- The segments that can be accessed are aligned, pairwise disjoint and among those handed
out. -/
structure DirectState.Layout (align : ℕ) (s : DirectState) : Prop where
  aligned : ∀ g ∈ s.handedOut, g.Aligned align
  listed : ∀ g ∈ s.region.segments, g ∈ s.handedOut
  disjoint : s.region.segments.Pairwise Segment.Disjoint
  answered : .refused ∉ s.replies

namespace DirectState.Layout

/-- A reply that is not a refusal. -/
theorem reply (h : s.Layout align) {r : Reply} (hr : r ≠ .refused) :
    .refused ∉ s.replies ++ [r] := by
  rw [List.mem_append, List.mem_singleton, not_or]
  exact ⟨h.answered, Ne.symm hr⟩

/-- A call that leaves the segments alone. -/
theorem quiet (h : s.Layout align) {r : Reply} (hr : r ≠ .refused)
    (hsegments : s₂.region.segments = s.region.segments)
    (hhanded : s₂.handedOut = s.handedOut) (hreplies : s₂.replies = s.replies ++ [r]) :
    s₂.Layout align := by
  refine ⟨?_, ?_, ?_, ?_⟩
  · rw [hhanded]
    exact h.aligned
  · rw [hsegments, hhanded]
    exact h.listed
  · rw [hsegments]
    exact h.disjoint
  · rw [hreplies]
    exact h.reply hr

/-- The contract keeps the layout. -/
theorem step (h : s.Layout align) (hstep : directStep align junk s c = some s₂) :
    s₂.Layout align := by
  cases c with
  | begin t isRo =>
    obtain ⟨-, rfl⟩ : _ ∧ _ = s₂ := by simpa [directStep] using hstep
    exact h.quiet (r := .done) nofun rfl rfl rfl
  | read source size =>
    obtain ⟨-, rfl⟩ : _ ∧ _ = s₂ := by simpa [directStep] using hstep
    exact h.quiet (r := .bytes _) nofun rfl rfl rfl
  | write target data =>
    obtain ⟨-, rfl⟩ : _ ∧ _ = s₂ := by simpa [directStep] using hstep
    exact h.quiet (r := .done) nofun rfl rfl rfl
  | alloc segment =>
    simp only [directStep, Option.ite_none_right_eq_some, Option.some.injEq] at hstep
    obtain ⟨⟨-, haligned, hfresh⟩, rfl⟩ := hstep
    have hperm : (Reference.tmAlloc s.region segment).segments.Perm
        (segment :: s.region.segments) := List.Perm.swap _ _ _
    refine ⟨List.forall_mem_cons.2 ⟨haligned, h.aligned⟩, fun g hg => ?_, ?_, h.reply nofun⟩
    · rcases List.mem_cons.1 (hperm.mem_iff.1 hg) with rfl | hg
      · exact List.mem_cons_self
      · exact List.mem_cons_of_mem _ (h.listed g hg)
    · refine (hperm.pairwise_iff Segment.Disjoint.symm).2 (List.pairwise_cons.2 ⟨?_, h.disjoint⟩)
      exact fun g hg => (hfresh g (h.listed g hg)).symm
  | free segment =>
    simp only [directStep, Option.ite_none_right_eq_some, Option.some.injEq] at hstep
    obtain ⟨-, rfl⟩ := hstep
    have hsub : (Reference.tmFree junk s.region segment).segments.Sublist s.region.segments :=
      List.Sublist.cons_cons _ List.filter_sublist
    exact ⟨h.aligned, fun g hg => h.listed g (hsub.subset hg), h.disjoint.sublist hsub,
      h.reply nofun⟩
  | endTx =>
    simp only [directStep] at hstep
    split at hstep
    next => cases hstep
    next =>
      cases hstep
      exact h.quiet (r := .done) nofun rfl rfl rfl
    next =>
      simp only [Option.ite_none_right_eq_some, Option.some.injEq] at hstep
      obtain ⟨-, rfl⟩ := hstep
      exact h.quiet (r := .done) nofun rfl rfl rfl

end DirectState.Layout

end TransactionalMemory
