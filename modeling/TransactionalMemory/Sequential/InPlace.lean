import TransactionalMemory.Sequential.Buffered

/-!
# Buffering equals copying in place

`Simulates` is the relation between a state of the reference implementation and one of the
implementation that buffers its writes: all locks are free with versions up to the clock, and in
every segment that can be accessed the shared words, with the buffered ones in front, are those of
the reference memory. `Simulates.step` is the simulation of one call; `bufferedEqualsDirect`
concludes for all runs.
-/

namespace TransactionalMemory

open VersionedWriteLock UnorderedMap ByteMemory

variable {align : ℕ} {S : Setup (MemWord align)} {junk : Addr → Byte} {s s₂ : DirectState}
  {s' : BufferedState align} {c : MemCall} {a : Addr}

/-- The words buffered by the open transaction. -/
def BufferedState.buffer (s : BufferedState align) : UnorderedMap Addr (MemWord align) :=
  match s.current with
  | none => ∅
  | some (_, txn) => txn.writeSet

/-- The words that the open transaction sees. -/
def BufferedState.view (s : BufferedState align) : Addr → MemWord align :=
  overlay s.buffer s.region.shared.mem

/-- The open transactions are of the same kind. That of the buffering implementation has the clock
as its read version, and only an update transaction buffers words. -/
inductive SameTransaction (gvc : Version) :
    Option Bool → Option (Tid × Transaction (MemWord align)) → Prop where
  | none : SameTransaction gvc none none
  | some (t : Tid) (txn : Transaction (MemWord align)) (hrv : txn.rv = gvc)
      (hro : txn.isRo = true → txn.writeSet = ∅) :
      SameTransaction gvc (some txn.isRo) (some (t, txn))

/-- The reference implementation and the one that buffers its writes are in corresponding
states. -/
structure Simulates (s : DirectState) (s' : BufferedState align) : Prop where
  layout : s.Layout align
  replies : s'.replies = s.replies
  current : SameTransaction s'.region.shared.gvc s.current s'.current
  clock : s'.region.shared.gvc.toNat = s.clock
  clock_lt : s.clock < 2 ^ 63
  free : ∀ l, isLocked (s'.region.shared.locks l) = false
  version_le : ∀ l, versionOf (s'.region.shared.locks l) ≤ s.clock
  buffered : ∀ a ∈ s'.buffer, ∃ g ∈ s.handedOut, a ∈ g
  memory : ∀ g ∈ s.region.segments, ∀ a ∈ g, align ∣ a → s'.view a = word align s.region.mem a

/-! ## Ranges of words -/

/-- The words of an accessible range belong to one segment. -/
theorem DirectState.Accessible.exists_segment {range : Segment} (halign : 0 < align)
    (h : s.Accessible align range) : ∃ g ∈ s.region.segments,
      ∀ a ∈ wordAddrs align range.start range.size, a ∈ g ∧ align ∣ a := by
  obtain ⟨⟨hstart, hsize, -⟩, g, hg, hcontains⟩ := h
  refine ⟨g, hg, fun a ha => ?_⟩
  obtain ⟨hdvd, hrange⟩ := (mem_wordAddrs halign hstart hsize).1 ha
  exact ⟨hcontains.mem hrange, hdvd⟩

/-- An aligned segment contains all bytes of a word or none. -/
theorem Segment.Aligned.mem_iff {g : Segment} (h : g.Aligned align) (ha : align ∣ a)
    (j : Fin align) : a + j ∈ g ↔ a ∈ g :=
  mem_range_iff h.1 ha h.2.1 j.2

/-- Storing the words of some bytes has the effect of storing the bytes. -/
theorem storeAll_wordEntries (halign : 0 < align) {target : Addr} {data : List Byte}
    {f : Addr → MemWord align} {m : Addr → Byte} (htarget : align ∣ target)
    (hdata : align ∣ data.length) (ha : align ∣ a) (hf : f a = word align m a) :
    storeAll (wordEntries align target data) f a = word align (store m target data) a := by
  have hnodup : (keysOf (wordEntries align target data)).Nodup := by
    rw [keysOf, keys_wordEntries]
    exact nodup_wordAddrs halign
  rw [storeAll_apply hnodup]
  -- the word is one of those written, or has no byte in the range
  by_cases hmem : a ∈ keysOf (wordEntries align target data)
  · obtain ⟨w, hw⟩ := mem_keysOf.1 hmem
    rw [word_store_of_mem halign hdata hw]
    exact .inl hw
  · refine .inr ⟨hmem, ?_⟩
    rw [keysOf, keys_wordEntries, mem_wordAddrs halign htarget hdata] at hmem
    rw [hf, word_store_of_not_mem htarget ha hdata fun hrange => hmem ⟨ha, hrange⟩]

/-! ## One call -/

namespace Simulates

/-- Both implementations are between two transactions, or both are in one. -/
theorem transaction (h : Simulates s s') :
    (s.current = none ∧ s'.current = none) ∨
    ∃ t txn, s.current = some txn.isRo ∧ s'.current = some (t, txn) ∧
      txn.rv = s'.region.shared.gvc ∧ (txn.isRo = true → txn.writeSet = ∅) ∧
      s'.buffer = txn.writeSet := by
  have hcurrent := h.current
  generalize hc : s.current = current at hcurrent
  generalize hc' : s'.current = current' at hcurrent
  cases hcurrent with
  | none => exact .inl ⟨rfl, rfl⟩
  | some t txn hrv hro => exact .inr ⟨t, txn, rfl, rfl, hrv, hro, by rw [BufferedState.buffer, hc']⟩

/-- With all locks free and no version above the clock, every word can be read. -/
theorem readable (h : Simulates s s') {rv : Version} (hrv : rv = s'.region.shared.gvc)
    (a : Addr) : Readable S s'.region.shared.locks rv a := by
  refine ⟨h.free _, ?_⟩
  show versionOf _ ≤ rv.toNat
  rw [hrv, h.clock]
  exact h.version_le _

/-- What a transaction reads is the view. -/
theorem wordAt (_ : Simulates s s') {txn : Transaction (MemWord align)}
    (hro : txn.isRo = true → txn.writeSet = ∅) (hbuffer : s'.buffer = txn.writeSet) :
    txn.wordAt s'.region.shared.mem = s'.view := by
  rw [BufferedState.view, hbuffer]
  cases hkind : txn.isRo with
  | true =>
    rw [Transaction.wordAt_readOnly hkind, hro hkind]
    rfl
  | false => exact Transaction.wordAt_update hkind _

/-- The words of an accessible range, as bytes, are those of the reference memory. -/
theorem flatMap_view (h : Simulates s s') (halign : 0 < align) {source size : ℕ}
    (haccess : s.Accessible align ⟨source, size⟩) :
    ((wordAddrs align source size).map s'.view).flatMap List.ofFn =
      slice s.region.mem source size := by
  obtain ⟨g, hg, hwords⟩ := haccess.exists_segment halign
  rw [slice_eq_flatMap halign haccess.1.2.1, List.flatMap_map]
  apply List.flatMap_congr
  intro a ha
  rw [h.memory g hg a (hwords a ha).1 (hwords a ha).2]

/-- A call that leaves the view and the shared state alone. -/
theorem quiet (h : Simulates s s') {r : Reply} {current : Option Bool}
    {current' : Option (Tid × Transaction (MemWord align))} (hr : r ≠ .refused)
    (hcurrent : SameTransaction s'.region.shared.gvc current current')
    (hbuffer : BufferedState.buffer { s' with current := current' } = s'.buffer) :
    Simulates { s with current, replies := s.replies ++ [r] }
      { s' with current := current', replies := s'.replies ++ [r] } where
  layout := h.layout.quiet hr rfl rfl rfl
  replies := by rw [h.replies]
  current := hcurrent
  clock := h.clock
  clock_lt := h.clock_lt
  free := h.free
  version_le := h.version_le
  buffered a ha := h.buffered a (hbuffer ▸ ha)
  memory g hg a ha hdvd := by
    rw [← h.memory g hg a ha hdvd]
    show overlay (BufferedState.buffer { s' with current := current' }) _ a = _
    rw [hbuffer]
    rfl

/-- `tm_begin` is simulated. -/
theorem begin (h : Simulates s s') {t : Tid} {isRo : Bool}
    (hstep : directStep align junk s (.begin t isRo) = some s₂) :
    ∃ s₂', bufferedStep S s' (.begin t isRo) = some s₂' ∧ Simulates s₂ s₂' := by
  obtain ⟨hnone, rfl⟩ : s.current = none ∧ _ = s₂ := by simpa [directStep] using hstep
  -- both are between two transactions
  rcases h.transaction with ⟨-, hnone'⟩ | ⟨_, _, hsome, -⟩
  · refine ⟨_, by simp only [bufferedStep, hnone']; rfl, ?_⟩
    refine h.quiet (r := .done) (by rintro ⟨⟩) ?_ ?_
    · exact .some t (tmBegin s'.region isRo) rfl fun _ => rfl
    · show (∅ : UnorderedMap Addr (MemWord align)) = s'.buffer
      rw [BufferedState.buffer, hnone']
  · rw [hnone] at hsome
    cases hsome

/-- `tm_read` is simulated: a word is found in the write set or in memory. -/
theorem read (h : Simulates s s') (halign : 0 < align) {source : Addr} {size : ℕ}
    (hstep : directStep align junk s (.read source size) = some s₂) :
    ∃ s₂', bufferedStep S s' (.read source size) = some s₂' ∧ Simulates s₂ s₂' := by
  simp only [directStep, Option.ite_none_right_eq_some, Option.some.injEq] at hstep
  obtain ⟨⟨hopen, haccess⟩, rfl⟩ := hstep
  rcases h.transaction with ⟨hnone, -⟩ | ⟨t, txn, hsome, hsome', hrv, hro, hbuffer⟩
  · exact absurd hnone hopen
  -- no lock is taken and no version is too new, so every word passes its validation
  have hread : readWords S s'.region.shared (wordAddrs align source size) txn =
      some (txn.recordReads (wordAddrs align source size),
        (wordAddrs align source size).map s'.view) := by
    refine readWords_eq_some_iff.2 ⟨fun a _ => h.readable hrv a, ?_⟩
    rw [h.wordAt hro hbuffer]
  refine ⟨{ s' with
    current := some (t, txn.recordReads (wordAddrs align source size))
    replies := s'.replies ++ [.bytes (Reference.tmRead s.region source size)] }, ?_, ?_⟩
  · simp only [bufferedStep, hsome', Option.map_some, tmRead, hread]
    rw [h.flatMap_view halign haccess]
    rfl
  refine h.quiet (r := .bytes _) (by rintro ⟨⟩) ?_ ?_
  · have hro' : (txn.recordReads (wordAddrs align source size)).isRo = txn.isRo :=
      Transaction.recordReads_isRo _
    rw [hsome, ← hro']
    refine .some t _ ?_ ?_
    · rw [Transaction.recordReads_rv, hrv]
    · rwa [Transaction.recordReads_isRo, Transaction.recordReads_writeSet]
  · show ((txn.recordReads (wordAddrs align source size))).writeSet = s'.buffer
    rw [Transaction.recordReads_writeSet, hbuffer]

/-- `tm_write` is simulated: what is stored at once there is buffered here. -/
theorem write (h : Simulates s s') (halign : 0 < align) {target : Addr} {data : List Byte}
    (hstep : directStep align junk s (.write target data) = some s₂) :
    ∃ s₂', bufferedStep S s' (.write target data) = some s₂' ∧ Simulates s₂ s₂' := by
  have hlayout := h.layout.step hstep
  simp only [directStep, Option.ite_none_right_eq_some, Option.some.injEq] at hstep
  obtain ⟨⟨hopen, haccess⟩, rfl⟩ := hstep
  rcases h.transaction with ⟨hnone, -⟩ | ⟨t, txn, hsome, hsome', hrv, hro, hbuffer⟩
  · rw [hnone] at hopen
    cases hopen
  have hupdate : txn.isRo = false := Option.some.inj (hsome.symm.trans hopen)
  refine ⟨_, by simp only [bufferedStep, hsome']; rfl, ?_⟩
  exact {
    layout := hlayout
    replies := by rw [h.replies]
    current := by
      rw [hsome]
      refine .some t (tmWrite txn (wordEntries align target data)) hrv fun hkind => ?_
      cases hupdate.symm.trans hkind
    clock := h.clock
    clock_lt := h.clock_lt
    free := h.free
    version_le := h.version_le
    buffered := fun a ha => by
      -- the words written belong to a segment, the others were buffered before
      rcases (mem_tmWrite _).1 ha with ha | ha
      · obtain ⟨g, hg, hwords⟩ := haccess.exists_segment halign
        rw [keysOf, keys_wordEntries] at ha
        exact ⟨g, h.layout.listed g hg, (hwords a ha).1⟩
      · exact h.buffered a (hbuffer ▸ ha)
    memory := fun g hg a ha hdvd => by
      show overlay (tmWrite txn (wordEntries align target data)).writeSet _ a = _
      rw [overlay_tmWrite, ← hbuffer]
      exact storeAll_wordEntries halign haccess.1.1 haccess.1.2.1 hdvd (h.memory g hg a ha hdvd) }

/-- `tm_alloc` is simulated. -/
theorem alloc (h : Simulates s s') (halign : 0 < align) {segment : Segment}
    (hstep : directStep align junk s (.alloc segment) = some s₂) :
    ∃ s₂', bufferedStep S s' (.alloc segment) = some s₂' ∧ Simulates s₂ s₂' := by
  have hlayout := h.layout.step hstep
  simp only [directStep, Option.ite_none_right_eq_some, Option.some.injEq] at hstep
  obtain ⟨⟨hopen, haligned, hfresh⟩, rfl⟩ := hstep
  rcases h.transaction with ⟨hnone, -⟩ | ⟨t, txn, hsome, hsome', hrv, hro, hbuffer⟩
  · rw [hnone] at hopen
    cases hopen
  have hwords : ∀ b, b ∈ wordAddrs align segment.start segment.size ↔ align ∣ b ∧ b ∈ segment :=
    fun b => mem_wordAddrs halign haligned.1 haligned.2.1
  refine ⟨_, by simp only [bufferedStep, hsome', tmAlloc]; rfl, ?_⟩
  exact {
    layout := hlayout
    replies := by rw [h.replies]
    current := by
      rw [hsome]
      exact .some t { txn with segList := txn.segList ++ [s'.region.heap.count] } hrv hro
    clock := h.clock
    clock_lt := h.clock_lt
    free := h.free
    version_le := h.version_le
    buffered := fun a ha => by
      obtain ⟨g, hg, hmem⟩ := h.buffered a (hbuffer ▸ ha)
      exact ⟨g, List.mem_cons_of_mem _ hg, hmem⟩
    memory := fun g hg a ha hdvd => by
      show overlay txn.writeSet
        (clearWords (wordAddrs align segment.start segment.size) s'.region.shared.mem) a =
        word align (fill s.region.mem segment.start segment.size 0) a
      unfold overlay clearWords
      by_cases hnew : a ∈ segment
      · -- nothing is buffered for a fresh word
        have hlookup : txn.writeSet.lookup a = none := by
          rw [AList.lookup_eq_none, ← hbuffer]
          intro hmem
          obtain ⟨g', hg', ha'⟩ := h.buffered a hmem
          exact (hfresh g' hg').not_mem ha' hnew
        rw [hlookup, Option.getD_none, if_pos ((hwords a).2 ⟨hdvd, hnew⟩),
          word_fill_of_mem haligned.1 hdvd haligned.2.1 hnew]
        rfl
      · -- the other words are not cleared
        have hold : g ∈ s.region.segments := by
          rcases List.mem_cons.1 hg with rfl | hg
          · exact List.mem_cons_self
          · rcases List.mem_cons.1 hg with rfl | hg
            · exact absurd ha hnew
            · exact List.mem_cons_of_mem _ hg
        rw [if_neg fun hmem => hnew ((hwords a).1 hmem).2,
          word_fill_of_not_mem haligned.1 hdvd haligned.2.1 hnew, ← hbuffer]
        exact h.memory g hold a ha hdvd }

/-- `tm_free` is simulated. -/
theorem free_call (h : Simulates s s') {segment : Addr}
    (hstep : directStep align junk s (.free segment) = some s₂) :
    ∃ s₂', bufferedStep S s' (.free segment) = some s₂' ∧ Simulates s₂ s₂' := by
  have hlayout := h.layout.step hstep
  simp only [directStep, Option.ite_none_right_eq_some, Option.some.injEq] at hstep
  obtain ⟨⟨hopen, -⟩, rfl⟩ := hstep
  rcases h.transaction with ⟨hnone, -⟩ | ⟨t, txn, hsome, hsome', hrv, hro, hbuffer⟩
  · rw [hnone] at hopen
    cases hopen
  refine ⟨{ s' with replies := s'.replies ++ [.done] },
    by simp only [bufferedStep, hsome', Option.map_some, tmFree], ?_⟩
  refine { h with layout := hlayout, replies := by rw [h.replies], memory := ?_ }
  intro g hg a ha hdvd
  -- a segment that stays is disjoint from the freed ones
  have hdisjoint : ∀ g' ∈ s.region.allocs, g'.start = segment → g.Disjoint g' := by
    intro g' hg' hstart
    have hpairs := List.pairwise_cons.1 h.layout.disjoint
    rcases List.mem_cons.1 hg with rfl | hg
    · exact hpairs.1 g' hg'
    · obtain ⟨hg, hne⟩ := List.mem_filter.1 hg
      have hgg' : g ≠ g' := by
        rintro rfl
        exact absurd hstart (by simpa using hne)
      have hsymm : Std.Symm Segment.Disjoint := ⟨fun _ _ => Segment.Disjoint.symm⟩
      exact hpairs.2.forall hg hg' hgg'
  have hold : g ∈ s.region.segments := by
    rcases List.mem_cons.1 hg with rfl | hg
    · exact List.mem_cons_self
    · exact List.mem_cons_of_mem _ (List.mem_filter.1 hg).1
  have haligned := h.layout.aligned g (h.layout.listed g hold)
  show s'.view a = _
  rw [h.memory g hold a ha hdvd]
  ext1 j
  refine (if_neg ?_).symm
  rw [List.any_eq_true]
  rintro ⟨g', hg', hfreed⟩
  obtain ⟨hstart, hbyte⟩ := of_decide_eq_true hfreed
  exact (hdisjoint g' hg' hstart).not_mem ((haligned.mem_iff hdvd j).2 ha) hbyte

/-- The end of a read-only transaction: there is nothing to be stored. -/
theorem endTx_readOnly (h : Simulates s s') {t : Tid} {txn : Transaction (MemWord align)}
    (hsome : s.current = some true) (hsome' : s'.current = some (t, txn)) (hkind : txn.isRo = true)
    (hempty : s'.buffer = ∅) (hstep : directStep align junk s .endTx = some s₂) :
    ∃ s₂', bufferedStep S s' .endTx = some s₂' ∧ Simulates s₂ s₂' := by
  obtain rfl : _ = s₂ := Option.some.inj (by simpa only [directStep, hsome] using hstep)
  refine ⟨{
    region := s'.region.deleteTxn txn
    current := none
    replies := s'.replies ++ [.done] },
    by simp only [bufferedStep, hsome', Option.map_some, tmEnd_readOnly hkind], ?_⟩
  exact {
    layout := h.layout.quiet (r := .done) (by rintro ⟨⟩) rfl rfl rfl
    replies := by rw [h.replies]
    current := .none
    clock := h.clock
    clock_lt := h.clock_lt
    free := h.free
    version_le := h.version_le
    buffered := fun a ha => absurd ha (AList.notMem_empty a)
    memory := fun g hg a ha hdvd => by
      have hview := h.memory g hg a ha hdvd
      rw [BufferedState.view, hempty] at hview
      exact hview }

/-- The end of an update transaction: the shared words become what the transaction has seen. -/
theorem endTx_update (h : Simulates s s') {t : Tid} {txn : Transaction (MemWord align)}
    (hsome : s.current = some false) (hsome' : s'.current = some (t, txn))
    (hkind : txn.isRo = false) (hrv : txn.rv = s'.region.shared.gvc)
    (hbuffer : s'.buffer = txn.writeSet) (hstep : directStep align junk s .endTx = some s₂) :
    ∃ s₂', bufferedStep S s' .endTx = some s₂' ∧ Simulates s₂ s₂' := by
  simp only [directStep, hsome, Option.ite_none_right_eq_some, Option.some.injEq] at hstep
  obtain ⟨hclock, rfl⟩ := hstep
  have hfree : WriteSetFree S s'.region.shared.locks txn := fun a _ => h.free _
  have hgvc : (s'.region.shared.gvc + 1).toNat = s.clock + 1 := by
    rw [gvc_succ (by rw [h.clock]; exact h.clock_lt), h.clock]
  refine ⟨{
    region := {
      shared := {
        gvc := s'.region.shared.gvc + 1
        locks := published S (s'.region.shared.gvc + 1) s'.region.shared.locks txn
        mem := overlay txn.writeSet s'.region.shared.mem }
      segList := s'.region.segList ++ txn.segList
      heap := s'.region.heap }
    current := none
    replies := s'.replies ++ [.done] }, ?_, ?_⟩
  · simp only [bufferedStep, hsome', Option.map_some, tmEnd_of_valid hkind hfree (.inl hrv)]
  exact {
    layout := h.layout.quiet (r := .done) (by rintro ⟨⟩) rfl rfl rfl
    replies := by rw [h.replies]
    current := .none
    clock := hgvc
    clock_lt := hclock
    free := fun l => by
      show isLocked (published S _ _ txn l) = false
      unfold published
      split
      · exact isLocked_setVersion _
      · exact h.free l
    version_le := fun l => by
      show versionOf (published S _ _ txn l) ≤ s.clock + 1
      unfold published
      split
      · exact (versionOf_setVersion_le _).trans hgvc.le
      · exact (h.version_le l).trans (Nat.le_succ _)
    buffered := fun a ha => absurd ha (AList.notMem_empty a)
    memory := fun g hg a ha hdvd => by
      show overlay ∅ (overlay txn.writeSet s'.region.shared.mem) a = _
      rw [← hbuffer]
      exact h.memory g hg a ha hdvd }

/-- `tm_end` is simulated. -/
theorem endTx (h : Simulates s s') (hstep : directStep align junk s .endTx = some s₂) :
    ∃ s₂', bufferedStep S s' .endTx = some s₂' ∧ Simulates s₂ s₂' := by
  rcases h.transaction with ⟨hnone, -⟩ | ⟨t, txn, hsome, hsome', hrv, hro, hbuffer⟩
  · simp [directStep, hnone] at hstep
  cases hkind : txn.isRo with
  | true =>
    rw [hkind] at hsome
    exact h.endTx_readOnly hsome hsome' hkind (by rw [hbuffer, hro hkind]) hstep
  | false =>
    rw [hkind] at hsome
    exact h.endTx_update hsome hsome' hkind hrv hbuffer hstep

/-- Every call of the reference implementation is answered with the same reply. -/
theorem step (h : Simulates s s') (halign : 0 < align)
    (hstep : directStep align junk s c = some s₂) :
    ∃ s₂', bufferedStep S s' c = some s₂' ∧ Simulates s₂ s₂' := by
  cases c with
  | begin t isRo => exact h.begin hstep
  | read source size => exact h.read halign hstep
  | write target data => exact h.write halign hstep
  | alloc segment => exact h.alloc halign hstep
  | free segment => exact h.free_call hstep
  | endTx => exact h.endTx hstep

end Simulates

/-! ## All runs -/

variable {gvc : Version} {mem : Addr → Byte} {mem' : Addr → MemWord align} {first : Segment}

/-- Both fresh regions are zero everywhere. -/
theorem simulates_init (halign : 0 < align) (hgvc : gvc.toNat < 2 ^ 63)
    (hfirst : first.Aligned align) :
    Simulates (direct align junk gvc mem first).init (buffered S gvc mem' first).init := by
  exact {
    layout := by
      refine ⟨?_, fun g hg => hg, List.pairwise_singleton _ _, List.not_mem_nil⟩
      intro g hg
      rwa [List.mem_singleton.1 hg]
    replies := rfl
    current := .none
    clock := rfl
    clock_lt := hgvc
    free := fun l => isLocked_zero
    version_le := fun l => by
      show versionOf 0#64 ≤ _
      rw [versionOf_zero]
      exact Nat.zero_le _
    buffered := fun a ha => absurd ha (AList.notMem_empty a)
    memory := fun g hg a ha hdvd => by
      -- `tm_create` of both implementations clears the first segment
      obtain rfl : g = first := List.mem_singleton.1 hg
      show overlay ∅ (clearWords (wordAddrs align g.start g.size) mem') a =
        word align (fill mem g.start g.size 0) a
      rw [word_fill_of_mem hfirst.1 hdvd hfirst.2.1 ha]
      exact if_pos ((mem_wordAddrs halign hfirst.1 hfirst.2.1).2 ⟨hdvd, ha⟩) }

/-- A byte of the shared words. -/
def byteAt (halign : 0 < align) (mem : Addr → MemWord align) (b : Addr) : Byte :=
  mem (b / align * align) ⟨b % align, Nat.mod_lt b halign⟩

/-- Between two transactions, the shared words and the reference memory hold the same bytes. -/
theorem Simulates.byteAt_eq (h : Simulates s s') (halign : 0 < align) (hnone : s.current = none)
    {g : Segment} (hg : g ∈ s.region.segments) {b : Addr} (hb : b ∈ g) :
    byteAt halign s'.region.shared.mem b = s.region.mem b := by
  have hbyte : b / align * align + b % align = b := Nat.div_add_mod' b align
  have hdvd : align ∣ b / align * align := Nat.dvd_mul_left _ _
  have haligned := h.layout.aligned g (h.layout.listed g hg)
  have hword : b / align * align ∈ g := by
    apply (haligned.mem_iff hdvd ⟨b % align, Nat.mod_lt b halign⟩).1
    rwa [hbyte]
  -- outside of a transaction nothing is buffered
  have hempty : s'.buffer = ∅ := by
    rcases h.transaction with ⟨-, hnone'⟩ | ⟨_, _, hsome, -⟩
    · rw [BufferedState.buffer, hnone']
    · rw [hnone] at hsome
      cases hsome
  have hview := h.memory g hg _ hword hdvd
  rw [BufferedState.view, hempty] at hview
  calc byteAt halign s'.region.shared.mem b
      = word align s.region.mem (b / align * align) ⟨b % align, Nat.mod_lt b halign⟩ :=
        congrFun hview _
    _ = s.region.mem b := congrArg s.region.mem hbyte

/-- Every run of the reference implementation on a fresh region is one of the implementation that
buffers its writes: with the same replies, none of them a refusal, and with the same bytes in the
first segment and the segments not freed whenever no transaction is open. -/
theorem bufferedEqualsDirect (halign : 0 < align) (hgvc : gvc.toNat < 2 ^ 63)
    (hfirst : first.Aligned align) {cs : List MemCall}
    (h : (direct align junk gvc mem first).Run LabelledSystem.always
      (direct align junk gvc mem first).init cs s) :
    ∃ s', (buffered S gvc mem' first).Run LabelledSystem.always (buffered S gvc mem' first).init
        cs s' ∧
      s'.replies = s.replies ∧ .refused ∉ s'.replies ∧
      (s.current = none → ∀ g ∈ s.region.segments, ∀ b ∈ g,
        byteAt halign s'.region.shared.mem b = s.region.mem b) := by
  obtain ⟨s', hrun, hs'⟩ : ∃ s', (buffered S gvc mem' first).Run LabelledSystem.always
      (buffered S gvc mem' first).init cs s' ∧ Simulates s s' :=
    h.simulate (fun u c v u' hu hstep _ => hu.step halign hstep)
      (simulates_init halign hgvc hfirst)
  refine ⟨s', hrun, hs'.replies, ?_, fun hnone g hg b hb => hs'.byteAt_eq halign hnone hg hb⟩
  rw [hs'.replies]
  exact hs'.layout.answered

/-- With words of eight bytes, an update transaction writes overlapping ranges, reads them back,
allocates a segment and writes to it; a second one frees that segment, and a third one reads. -/
def overlappingWrites : List MemCall :=
  [.begin 1 false, .write 64 [1, 2, 3, 4, 5, 6, 7, 8, 9, 10, 11, 12, 13, 14, 15, 16],
    .write 72 [21, 22, 23, 24, 25, 26, 27, 28], .read 64 16, .alloc ⟨96, 8⟩,
    .write 96 [31, 32, 33, 34, 35, 36, 37, 38], .endTx, .begin 2 false, .free 96, .endTx,
    .begin 3 true, .read 72 8, .endTx]

theorem overlappingWrites_isSome : ((direct 8 (fun _ => 255) 0 (fun _ => 9) ⟨64, 16⟩).exec
    (fun _ _ _ => true) (direct 8 (fun _ => 255) 0 (fun _ => 9) ⟨64, 16⟩).init
    overlappingWrites).isSome := by decide

/-- The state of the reference implementation after these calls. -/
def overlappedState : DirectState :=
  ((direct 8 (fun _ => 255) 0 (fun _ => 9) ⟨64, 16⟩).exec (fun _ _ _ => true)
    (direct 8 (fun _ => 255) 0 (fun _ => 9) ⟨64, 16⟩).init overlappingWrites).get
      overlappingWrites_isSome

theorem bufferedEqualsDirect_overlapping :
    ∃ s', (buffered (Setup.plain (MemWord 8)) 0 (fun _ _ => 3) ⟨64, 16⟩).Run LabelledSystem.always
        (buffered (Setup.plain (MemWord 8)) 0 (fun _ _ => 3) ⟨64, 16⟩).init overlappingWrites s' ∧
      s'.replies = overlappedState.replies ∧ .refused ∉ s'.replies ∧
      (overlappedState.current = none → ∀ g ∈ overlappedState.region.segments, ∀ b ∈ g,
        byteAt (Nat.succ_pos 7) s'.region.shared.mem b = overlappedState.region.mem b) :=
  bufferedEqualsDirect (Nat.succ_pos 7) (by decide) (by decide)
    (LabelledSystem.run_of_exec (fun _ _ _ _ => trivial)
      (Option.eq_some_of_isSome overlappingWrites_isSome))

end TransactionalMemory
