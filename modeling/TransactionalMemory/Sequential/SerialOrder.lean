import Mathlib.Data.Prod.Lex
import Mathlib.Data.List.Dedup
import Mathlib.Data.List.Sort
import TransactionalMemory.Sequential.Serialization

/-!
# Strict serializability

The committed transactions, ordered by `serialKey`: the update transactions by their write
versions, and a read-only transaction after the update transactions with write versions up to its
read version. Replayed one after another in that order on memory that is zero everywhere, they
return what they returned in the interleaved run and end in the same shared memory, and the order
respects the order in which they ran (`strictlySerializable`).
-/

namespace TransactionalMemory

open VersionedWriteLock UnorderedMap

variable {V : Type} {S : Setup V} {t u : Tid} {w w' : World V}

/-- No word of a block handed out by `tm_alloc` has been written by a committed transaction. -/
def Fresh (w : World V) (words : List Addr) : Prop :=
  ∀ a ∈ words, ∀ t, (w.session t).Updated → a ∉ (w.session t).txn.writeSet

/-- The clock stays below `2 ^ 31`, and blocks are fresh. -/
def regular : World V → Call V → World V → Prop := fun w c w' =>
  w'.region.shared.gvc.toNat < 2 ^ 31 ∧ ∀ t words, c = .alloc t (some words) → Fresh w words

/-! ## The invariant along a run -/

/-- Clearing fresh words changes nothing. -/
theorem clearWords_fresh [Zero V] (h : Serial S w) {words : List Addr} (hfresh : Fresh w words) :
    clearWords words w.region.shared.mem = w.region.shared.mem := by
  ext a
  unfold clearWords
  split
  next ha =>
    rcases h.memory a with ⟨hzero, -⟩ | ⟨t, hw, -⟩
    · exact hzero.symm
    · exact absurd (mem_iff_lookup.2 ⟨_, hw.2⟩) (hfresh a ha t hw.1)
  next => rfl

/-- Distinct committed updates have distinct versions. -/
theorem Serial.functional [Zero V] (h : Serial S w) : (sessionWrites w).Functional where
  injective hi hj heq := h.wv_inj _ _ hi.1 hj.1 heq
  value hi hj := Option.some.inj (hi.2.symm.trans hj.2)

/-- A word that can be read is the one of the snapshot at the read version. -/
theorem Serial.readsAt [Zero V] (h : Serial S w) {rv : Version} {a : Addr}
    (hread : Readable S w.region.shared.locks rv a) :
    (sessionWrites w).ReadsAt 0 rv.toNat a (w.region.shared.mem a) := by
  apply (h.memory a).readsAt
  intro t hw
  have hle : versionOf (w.region.shared.locks (S.lockOf a)) ≤ rv.toNat := hread.2
  exact (h.covered t a hw.1 (mem_iff_lookup.2 ⟨_, hw.2⟩)).trans hle

/-- A successful `tm_read` replays. -/
theorem Serial.replays_read [Zero V] (h : Serial S w) (halive : (w.session t).Alive)
    {addrs : List Addr}
    (hreads : ∀ a ∈ addrs, Readable S w.region.shared.locks (w.session t).txn.rv a)
    {x : Session V} (hx : x = { w.session t with
      txn := (w.session t).txn.recordReads addrs
      ops := (w.session t).ops ++
        [.read addrs (addrs.map ((w.session t).txn.wordAt w.region.shared.mem))] })
    {m : Addr → V} (hagree : Agrees w x m) :
    Replays x.ops m (overlay x.txn.writeSet m) := by
  subst hx
  have hold : Agrees w (w.session t) m := by
    intro a ha
    have hread := hagree a (by
      rcases ha with hro | hmem
      · exact .inl (by simpa using hro)
      · exact .inr ((Transaction.mem_recordReads addrs).2 (.inl hmem)))
    simpa using hread
  have hws : ((w.session t).txn.recordReads addrs).writeSet = (w.session t).txn.writeSet :=
    Transaction.recordReads_writeSet addrs
  show Replays _ m (overlay ((w.session t).txn.recordReads addrs).writeSet m)
  rw [hws]
  refine replays_append.2 ⟨_, h.replays t halive m hold, ?_, rfl⟩
  apply List.map_congr_left
  intro a ha
  -- a word that is not buffered was read from the snapshot
  have hsame : (w.session t).txn.writeSet.lookup a = none → m a = w.region.shared.mem a := by
    intro _
    have hread := hagree a (by
      cases hro : (w.session t).txn.isRo with
      | true => exact .inl (by simpa using hro)
      | false => exact .inr ((Transaction.mem_recordReads addrs).2 (.inr ⟨hro, ha⟩)))
    rw [Transaction.recordReads_rv] at hread
    exact hread.unique h.functional (h.readsAt (hreads a ha))
  cases hro : (w.session t).txn.isRo with
  | true =>
    have hempty := h.readOnly t hro
    rw [Transaction.wordAt_readOnly hro, overlay, hempty, AList.lookup_empty, Option.getD_none]
    exact (hsame (by rw [hempty, AList.lookup_empty])).symm
  | false =>
    rw [Transaction.wordAt_update hro, overlay, overlay]
    cases hlookup : (w.session t).txn.writeSet.lookup a with
    | some v => rfl
    | none => exact (hsame hlookup).symm

/-- A rollback below `2 ^ 31` leaves the locks as they were. -/
theorem Serial.rolledBack [Zero V] (h : Serial S w)
    (hclock : w.region.shared.gvc.toNat < 2 ^ 31) (held : List LockId) :
    rolledBack w.region.shared.locks held = w.region.shared.locks := by
  apply (rolledBack_eq_self_iff fun l _ => h.free l).2
  intro l _
  exact (h.version_le l).trans_lt hclock

/-- The invariant holds at first, as nothing is committed. -/
theorem serial_init [Zero V] : Serial S (calls S).init := by
  have hupdated : ∀ t, ¬ ((calls S).init.session t).Updated := fun t h => nomatch h.1
  exact {
    free := by simp [calls, tmCreate]
    clock := by simp [calls, tmCreate]
    version_le := by simp [calls, tmCreate]
    rv_le := by simp [calls, tmCreate, Session.unborn, Transaction.create]
    wv_le := fun t h => absurd h (hupdated t)
    rv_lt := fun t h => absurd h (hupdated t)
    wv_inj := fun t _ h => absurd h (hupdated t)
    covered := fun t _ h => absurd h (hupdated t)
    memory := fun a => .inl ⟨by simp [calls, tmCreate, clearWords], fun t _ hw => hupdated t hw.1⟩
    readOnly := fun _ _ => rfl
    replays := fun t h => by rcases h with h | h <;> cases h
    validated := fun t h => absurd h (hupdated t)
    began_lt := fun t h => absurd rfl h
    realTime := fun t _ h => by cases h }

/-- The invariant is kept by every call. -/
theorem Serial.step [Zero V] (h : Serial S w) {c : Call V} (hstep : (calls S).step w c = some w')
    (hok : regular w c w') : Serial S w' := by
  obtain ⟨hclock, hfresh⟩ := hok
  have hstatus : ∀ t, w.Usable t → (w.session t).status ≠ .committed := by
    intro t huse hcommitted
    exact nomatch huse.1.symm.trans hcommitted
  have hmono : w.region.shared.gvc.toNat ≤ (w.region.shared.gvc + 1).toNat := by
    rw [gvc_succ h.clock]
    exact Nat.le_succ _
  have hclock' : w'.region.shared.gvc.toNat < 2 ^ 63 := hclock.trans (by decide)
  have hsame : KeepsWords w w.region := ⟨rfl, rfl, le_rfl, h.clock⟩
  cases outcome_of_step hstep with
  -- a transaction that begins now is later than everything committed
  | begin t isRo hnew =>
    exact h.quiet {
      hsame with
      not_updated := by
        rintro ⟨hcommitted, -⟩
        exact nomatch hnew.symm.trans hcommitted
      no_update := fun hx => nomatch hx.1
      wv := rfl
      rv_le := le_rfl
      readOnly := fun _ => rfl
      replays := fun _ m _ => rfl
      began_le := fun _ => le_rfl
      before := fun _ u hu _ => ⟨h.rv_le u, fun hro => h.wv_le u ⟨hu, hro⟩⟩
      ended_ge := fun hx => nomatch hx }
  | read t addrs huse hreads =>
    exact h.quiet_open {
      hsame with
      usable := huse
      ended := fun hx => absurd hx (hstatus t huse)
      wv := rfl
      began := rfl
      rv := Transaction.recordReads_rv addrs
      readOnly := by simpa using h.readOnly t
      replays := fun _ m hagree => h.replays_read (.inl huse.1) hreads rfl hagree }
  | readRefused t addrs huse hnot => exact h.quiet_refused huse ⟨rfl, rfl, le_rfl, h.clock⟩
  -- the words are buffered, and replaying the operation stores them
  | write t entries huse =>
    exact h.quiet_open {
      hsame with
      usable := huse.1
      ended := fun hx => absurd hx (hstatus t huse.1)
      wv := rfl
      began := rfl
      rv := rfl
      readOnly := fun hro => nomatch huse.2.symm.trans hro
      replays := fun _ m hagree => replays_append.2
        ⟨_, h.replays t (.inl huse.1.1) m hagree, overlay_tmWrite entries m⟩ }
  | noMemory t huse | free t seg huse =>
    exact h.quiet_open {
      hsame with
      usable := huse.1
      ended := fun hx => absurd hx (hstatus t huse.1)
      wv := rfl
      began := rfl
      rv := rfl
      readOnly := h.readOnly t
      replays := h.replays t }
  -- only words of a new segment are cleared, and nobody has written to them
  | alloc t words huse =>
    exact h.quiet_open {
      hsame with
      mem := clearWords_fresh h (hfresh t words rfl)
      usable := huse.1
      ended := fun hx => absurd hx (hstatus t huse.1)
      wv := rfl
      began := rfl
      rv := rfl
      readOnly := h.readOnly t
      replays := fun _ m hagree => replays_append.2
        ⟨_, h.replays t (.inl huse.1.1) m hagree, rfl⟩ }
  -- a read-only transaction adds no writes
  | commitReadOnly t huse hro =>
    exact h.quiet_open {
      hsame with
      usable := huse
      ended := fun _ => ⟨hro, rfl⟩
      wv := rfl
      began := rfl
      rv := rfl
      readOnly := h.readOnly t
      replays := fun _ => h.replays t (.inl huse.1) }
  | commit t huse hupdate hfree hvalid =>
    exact h.commit ⟨huse, hupdate, hvalid, hclock', rfl, rfl⟩
  | refuseLocked t huse hupdate hlocked =>
    exact h.quiet_refused huse ⟨h.rolledBack hclock _, rfl, le_rfl, h.clock⟩
  | refuseInvalid t huse hupdate hfree =>
    exact h.quiet_refused huse ⟨h.rolledBack (hmono.trans_lt hclock) _, rfl, hmono, hclock'⟩
  | destroy halive => exact h.frame rfl ⟨rfl, rfl, le_rfl, h.clock⟩ (Nat.le_succ _)
  | tick => exact h.frame rfl ⟨rfl, rfl, hmono, hclock'⟩ le_rfl

/-- The invariant holds in every state of a regular run. -/
theorem serial_of_reachable [Zero V] (h : (calls S).Reachable regular w) : Serial S w :=
  h.invariant serial_init fun _ _ _ _ ih hstep hok => ih.step hstep hok

/-! ## The order of the committed transactions -/

/-- The place of a committed transaction in the serial order. The update transactions are ordered
by their write versions. A read-only transaction comes after the update transactions with write
versions up to its read version; those between the same two update transactions are ordered by
read version and then by their end. -/
def serialKey (x : Session V) : ℕ ×ₗ ℕ ×ₗ ℕ :=
  if x.txn.isRo then toLex (x.txn.rv.toNat, toLex (1, x.ended))
  else toLex (x.wv.toNat, toLex (0, 0))

section Key

variable {x y : Session V}

/-- Updates are in the order of their write versions. -/
theorem serialKey_lt_update_update (hx : x.txn.isRo = false) (hy : y.txn.isRo = false) :
    serialKey x < serialKey y ↔ x.wv.toNat < y.wv.toNat := by
  simp [serialKey, hx, hy, Prod.Lex.toLex_lt_toLex]

/-- An update comes before the readers that may see it. -/
theorem serialKey_lt_update_readOnly (hx : x.txn.isRo = false) (hy : y.txn.isRo = true) :
    serialKey x < serialKey y ↔ x.wv.toNat ≤ y.txn.rv.toNat := by
  simp only [serialKey, hx, hy, Prod.Lex.toLex_lt_toLex, Bool.false_eq_true, if_true, if_false]
  omega

/-- A reader comes before the updates that it may not see. -/
theorem serialKey_lt_readOnly_update (hx : x.txn.isRo = true) (hy : y.txn.isRo = false) :
    serialKey x < serialKey y ↔ x.txn.rv.toNat < y.wv.toNat := by
  simp only [serialKey, hx, hy, Prod.Lex.toLex_lt_toLex, Bool.false_eq_true, if_true, if_false]
  omega

/-- Readers are in the order of their read versions, and then of their ends. -/
theorem serialKey_lt_readOnly_readOnly (hx : x.txn.isRo = true) (hy : y.txn.isRo = true) :
    serialKey x < serialKey y ↔ x.txn.rv.toNat < y.txn.rv.toNat ∨
      x.txn.rv.toNat = y.txn.rv.toNat ∧ x.ended < y.ended := by
  simp [serialKey, hx, hy, Prod.Lex.toLex_lt_toLex]

end Key

/-- The ends of the committed transactions. -/
structure Timed (w : World V) : Prop where
  ended_lt : ∀ t, (w.session t).status = .committed → (w.session t).ended < w.time
  ended_inj : ∀ t u, (w.session t).status = .committed → (w.session u).status = .committed →
    (w.session t).ended = (w.session u).ended → t = u
  began_lt : ∀ t, (w.session t).status = .committed →
    (w.session t).began < (w.session t).ended
  finite : ∃ ts : List Tid, ∀ t, (w.session t).status = .committed → t ∈ ts

/-- A call changes at most one session, and gives a transaction that it commits its time. -/
theorem session_of_step [Zero V] {c : Call V} (hstep : (calls S).step w c = some w') :
    w.time ≤ w'.time ∧ (w'.session = w.session ∨
      ∃ t region x, w' = w.called t region x ∧ (w.session t).status ≠ .committed ∧
        (x.status = .committed → x.ended = w.time ∧ x.began = (w.session t).began ∧
          (w.session t).Begun)) := by
  have husable : ∀ t, w.Usable t → (w.session t).status ≠ .committed ∧ (w.session t).Begun := by
    intro t huse
    rw [Session.Begun, huse.1]
    constructor <;> rintro ⟨⟩
  cases outcome_of_step hstep with
  | begin t isRo hnew =>
    exact ⟨Nat.le_succ _, .inr ⟨t, _, _, rfl, by rw [hnew]; rintro ⟨⟩, by rintro ⟨⟩⟩⟩
  | read t addrs huse =>
    exact ⟨Nat.le_succ _, .inr ⟨t, _, _, rfl, (husable t huse).1,
      fun hx => absurd hx (husable t huse).1⟩⟩
  | write t entries huse | alloc t words huse | noMemory t huse | free t seg huse =>
    exact ⟨Nat.le_succ _, .inr ⟨t, _, _, rfl, (husable t huse.1).1,
      fun hx => absurd hx (husable t huse.1).1⟩⟩
  | readRefused t _ huse | refuseLocked t huse | refuseInvalid t huse =>
    exact ⟨Nat.le_succ _, .inr ⟨t, _, _, rfl, (husable t huse).1, by rintro ⟨⟩⟩⟩
  | commitReadOnly t huse | commit t huse =>
    exact ⟨Nat.le_succ _, .inr ⟨t, _, _, rfl, (husable t huse).1,
      fun _ => ⟨rfl, rfl, (husable t huse).2⟩⟩⟩
  | destroy => exact ⟨Nat.le_succ _, .inl rfl⟩
  | tick => exact ⟨le_rfl, .inl rfl⟩

/-- The ends stay in order if the session that changes was not committed before. -/
theorem Timed.called {region : Region V} {x : Session V} (h : Timed w)
    (hbegan : ∀ u, (w.session u).Begun → (w.session u).began < w.time)
    (hx : x.status = .committed → x.ended = w.time ∧ x.began = (w.session t).began ∧
      (w.session t).Begun) : Timed (w.called t region x) where
  ended_lt := World.forall_called (P := fun _ y => y.status = .committed → y.ended < w.time + 1)
    (fun hcommitted => by rw [(hx hcommitted).1]; exact Nat.lt_succ_self _)
    fun u _ hcommitted => (h.ended_lt u hcommitted).trans (Nat.lt_succ_self _)
  ended_inj u v hu hv heq := by
    -- the end of `t` is later than all others
    by_cases hut : u = t <;> by_cases hvt : v = t
    · rw [hut, hvt]
    · rw [hut, World.called_session_self] at hu heq
      rw [World.called_session_of_ne hvt] at hv heq
      have := h.ended_lt v hv
      have := (hx hu).1
      omega
    · rw [hvt, World.called_session_self] at hv heq
      rw [World.called_session_of_ne hut] at hu heq
      have := h.ended_lt u hu
      have := (hx hv).1
      omega
    · rw [World.called_session_of_ne hut] at hu heq
      rw [World.called_session_of_ne hvt] at hv heq
      exact h.ended_inj u v hu hv heq
  began_lt u hu := by
    refine World.forall_called (P := fun _ y => y.status = .committed → y.began < y.ended)
      (fun hcommitted => ?_) (fun u _ hcommitted => h.began_lt u hcommitted) u hu
    obtain ⟨hended, hsame, hbegun⟩ := hx hcommitted
    rw [hended, hsame]
    exact hbegan t hbegun
  finite := by
    obtain ⟨ts, hts⟩ := h.finite
    exact ⟨t :: ts, World.forall_called (P := fun u y => y.status = .committed → u ∈ t :: ts)
      (fun _ => List.mem_cons_self) fun u _ hu => List.mem_cons_of_mem _ (hts u hu)⟩

/-- The ends of the transactions are in order in every regular run. -/
theorem timed_of_reachable [Zero V] (h : (calls S).Reachable regular w) : Timed w := by
  refine h.invariant ?_ fun w c w' hreach ih hstep _ => ?_
  · exact ⟨fun t ht => (nomatch ht), fun t u ht => (nomatch ht), fun t ht => (nomatch ht),
      [], fun t ht => (nomatch ht)⟩
  obtain ⟨htime, hsame | ⟨t, region, x, rfl, hold, hx⟩⟩ := session_of_step hstep
  · refine ⟨fun t ht => ?_, fun t u ht hu heq => ?_, fun t ht => ?_, ?_⟩
    all_goals simp only [hsame] at *
    · exact (ih.ended_lt t ht).trans_le htime
    · exact ih.ended_inj t u ht hu heq
    · exact ih.began_lt t ht
    · exact ih.finite
  · exact ih.called (serial_of_reachable hreach).began_lt hx

/-- The list of the committed transactions in their serial order. -/
structure SerialOrder (w : World V) (order : List Tid) : Prop where
  mem : ∀ t, t ∈ order ↔ (w.session t).status = .committed
  sorted : order.Pairwise fun t u => serialKey (w.session t) < serialKey (w.session u)

/-- Committed transactions have distinct keys. -/
theorem serialKey_injective [Zero V] (h : Serial S w) (htimed : Timed w)
    (ht : (w.session t).status = .committed) (hu : (w.session u).status = .committed)
    (heq : serialKey (w.session t) = serialKey (w.session u)) : t = u := by
  unfold serialKey at heq
  cases hro : (w.session t).txn.isRo with
  | true =>
    cases hro' : (w.session u).txn.isRo with
    | true =>
      simp only [hro, hro', if_true, EmbeddingLike.apply_eq_iff_eq, Prod.mk.injEq] at heq
      exact htimed.ended_inj t u ht hu heq.2.2
    | false => simp [hro, hro'] at heq
  | false =>
    cases hro' : (w.session u).txn.isRo with
    | true => simp [hro, hro'] at heq
    | false => exact h.wv_inj t u ⟨ht, hro⟩ ⟨hu, hro'⟩ (by simpa [hro, hro'] using heq)

/-- The elements of a list can be listed in the order of an injective key. -/
theorem exists_pairwise_lt {ι κ : Type} [DecidableEq ι] [LinearOrder κ] (key : ι → κ) (l : List ι)
    (hinj : ∀ i ∈ l, ∀ j ∈ l, key i = key j → i = j) :
    ∃ l' : List ι, (∀ i, i ∈ l' ↔ i ∈ l) ∧ l'.Pairwise fun i j => key i < key j := by
  have htotal : Std.Total fun i j => key i ≤ key j := ⟨fun i j => le_total (key i) (key j)⟩
  have htrans : IsTrans ι fun i j => key i ≤ key j := ⟨fun _ _ _ => le_trans⟩
  let sorted := l.dedup.insertionSort fun i j => key i ≤ key j
  have hperm : sorted.Perm l.dedup := List.perm_insertionSort _ _
  have hmem : ∀ i, i ∈ sorted ↔ i ∈ l := fun i => by rw [hperm.mem_iff, List.mem_dedup]
  have hnodup : sorted.Nodup := hperm.nodup_iff.2 (List.nodup_dedup l)
  have hle : sorted.Pairwise fun i j => key i ≤ key j := List.pairwise_insertionSort _ _
  refine ⟨sorted, hmem, ?_⟩
  refine (hnodup.and hle).imp_of_mem fun hi hj h => lt_of_le_of_ne h.2 fun heq => ?_
  exact h.1 (hinj _ ((hmem _).1 hi) _ ((hmem _).1 hj) heq)

/-- The committed transactions can be listed in their serial order. -/
theorem exists_serialOrder [Zero V] (h : Serial S w) (htimed : Timed w) :
    ∃ order, SerialOrder w order := by
  obtain ⟨ts, hts⟩ := htimed.finite
  have hmem : ∀ t, t ∈ ts.filter (fun t => (w.session t).status = .committed) ↔
      (w.session t).status = .committed := by
    intro t
    rw [List.mem_filter, decide_eq_true_eq]
    exact and_iff_right_of_imp (hts t)
  obtain ⟨order, horder, hsorted⟩ := exists_pairwise_lt (fun t => serialKey (w.session t))
    (ts.filter fun t => (w.session t).status = .committed) fun t ht u hu heq =>
      serialKey_injective h htimed ((hmem t).1 ht) ((hmem u).1 hu) heq
  exact ⟨order, fun t => (horder t).trans (hmem t), hsorted⟩

/-! ## Replaying the serial order -/

/-- Replay transactions one after another. -/
def ReplaysAll (w : World V) : List Tid → (Addr → V) → (Addr → V) → Prop
  | [], m, m' => m' = m
  | t :: order, m, m' => ∃ m₁, Replays (w.session t).ops m m₁ ∧ ReplaysAll w order m₁ m'

/-- The memory after the transactions of a list: at each address the latest of their words. -/
def MemoryAfter [Zero V] (w : World V) (done : List Tid) (m : Addr → V) : Prop :=
  ∀ a, ((sessionWrites w).restrict (· ∈ done)).Latest 0 a (m a)

/-- Exactly the transactions with smaller keys come before a transaction of the serial order. -/
theorem SerialOrder.mem_before_iff {done todo : List Tid}
    (horder : SerialOrder w (done ++ t :: todo)) (hu : (w.session u).status = .committed) :
    u ∈ done ↔ serialKey (w.session u) < serialKey (w.session t) := by
  have hsorted := List.pairwise_append.1 horder.sorted
  constructor
  · exact fun hmem => hsorted.2.2 u hmem t List.mem_cons_self
  · intro hlt
    rcases List.mem_append.1 ((horder.mem u).2 hu) with hmem | hmem
    · exact hmem
    · rcases List.mem_cons.1 hmem with rfl | hmem
      · exact absurd hlt (lt_irrefl _)
      · exact absurd hlt (lt_asymm ((List.pairwise_cons.1 hsorted.2.1).1 u hmem))

/-- A transaction of the serial order agrees with the memory after its predecessors. -/
theorem Serial.agrees [Zero V] (h : Serial S w) {done todo : List Tid}
    (horder : SerialOrder w (done ++ t :: todo)) {m : Addr → V} (hm : MemoryAfter w done m) :
    Agrees w (w.session t) m := by
  have hcommitted : (w.session t).status = .committed := (horder.mem t).1 (by simp)
  intro a ha
  apply (hm a).readsAt_of_restrict
  intro u z hw
  rw [horder.mem_before_iff hw.1.1]
  show _ ↔ (w.session u).wv.toNat ≤ (w.session t).txn.rv.toNat
  cases hro : (w.session t).txn.isRo with
  | true => exact serialKey_lt_update_readOnly hw.1.2 hro
  | false =>
    rw [serialKey_lt_update_update hw.1.2 hro]
    -- what the transaction has read was validated up to its write version
    have hread : a ∈ (w.session t).txn.readSet := ha.resolve_left (by simp [hro])
    constructor
    · exact h.validated t ⟨hcommitted, hro⟩ a hread u z hw
    · exact fun hle => hle.trans_lt (h.rv_lt t ⟨hcommitted, hro⟩)

/-- The memory after one more transaction. -/
theorem Serial.memoryAfter_concat [Zero V] (h : Serial S w) {done todo : List Tid}
    (horder : SerialOrder w (done ++ t :: todo)) {m : Addr → V} (hm : MemoryAfter w done m) :
    MemoryAfter w (done ++ [t]) (overlay (w.session t).txn.writeSet m) := by
  have hcommitted : (w.session t).status = .committed := (horder.mem t).1 (by simp)
  intro a
  unfold overlay
  cases hlookup : (w.session t).txn.writeSet.lookup a with
  | some v =>
    -- a read-only transaction has nothing to write
    have hupdate : (w.session t).txn.isRo = false := by
      rw [← Bool.not_eq_true]
      intro hro
      rw [h.readOnly t hro, AList.lookup_empty] at hlookup
      cases hlookup
    rw [Option.getD_some]
    refine .write (i := t) ⟨by simp, ⟨hcommitted, hupdate⟩, hlookup⟩ fun u z hw => ?_
    show (w.session u).wv.toNat ≤ (w.session t).wv.toNat
    rcases List.mem_append.1 hw.1 with hmem | hmem
    · have hlt := (horder.mem_before_iff hw.2.1.1).1 hmem
      exact ((serialKey_lt_update_update hw.2.1.2 hupdate).1 hlt).le
    · rw [List.mem_singleton.1 hmem]
  | none =>
    rw [Option.getD_none]
    refine (hm a).congr (fun u z => ?_) (fun u z _ => ?_)
    · apply and_congr_left
      intro hw
      -- `t` does not write to this address
      have hut : u ≠ t := by
        rintro rfl
        rw [hw.2] at hlookup
        cases hlookup
      simp [hut]
    · rfl

/-- Replaying the rest of the serial order leads to the shared memory. -/
theorem Serial.replaysAll [Zero V] (h : Serial S w) (todo : List Tid) :
    ∀ (done : List Tid) (m : Addr → V), SerialOrder w (done ++ todo) → MemoryAfter w done m →
      ReplaysAll w todo m w.region.shared.mem := by
  induction todo with
  | nil =>
    intro done m horder hm
    rw [List.append_nil] at horder
    ext a
    refine (h.memory a).unique h.functional ((hm a).congr (fun t z => ?_) (fun t z _ => ?_))
    · exact ⟨fun hw => ⟨(horder.mem t).2 hw.1.1, hw⟩, fun hw => hw.2⟩
    · rfl
  | cons t todo ih =>
    intro done m horder hm
    have hcommitted : (w.session t).status = .committed := (horder.mem t).1 (by simp)
    refine ⟨_, h.replays t (.inr hcommitted) m (h.agrees horder hm), ?_⟩
    refine ih (done ++ [t]) _ ?_ (h.memoryAfter_concat horder hm)
    rwa [List.append_assoc, List.singleton_append]

/-- The serial order does not place a transaction before one that had ended before it began. -/
theorem Serial.realTime_order [Zero V] (h : Serial S w) (htimed : Timed w) {order : List Tid}
    (horder : SerialOrder w order) :
    order.Pairwise fun t u => ¬ (w.session u).ended < (w.session t).began := by
  refine horder.sorted.imp_of_mem fun {t u} ht hu hlt hended => ?_
  have ht' := (horder.mem t).1 ht
  have hu' := (horder.mem u).1 hu
  have hbegun : (w.session t).Begun := by
    rw [Session.Begun, ht']
    rintro ⟨⟩
  -- the versions of `u` are at most the read version of `t`, so the key of `u` is smaller
  obtain ⟨hrv, hwv⟩ := h.realTime u t hu' hbegun hended
  cases hro : (w.session t).txn.isRo with
  | true =>
    cases hro' : (w.session u).txn.isRo with
    | true =>
      rw [serialKey_lt_readOnly_readOnly hro hro'] at hlt
      have := htimed.began_lt t ht'
      omega
    | false =>
      rw [serialKey_lt_readOnly_update hro hro'] at hlt
      have := hwv hro'
      omega
  | false =>
    have hrv_lt := h.rv_lt t ⟨ht', hro⟩
    cases hro' : (w.session u).txn.isRo with
    | true =>
      rw [serialKey_lt_update_readOnly hro hro'] at hlt
      omega
    | false =>
      rw [serialKey_lt_update_update hro hro'] at hlt
      have := hwv hro'
      omega

/-- The committed transactions, in their serial order, are a legal sequential execution with the
same results and the same final memory, which respects the real-time order. -/
def StrictlySerializable [Zero V] (w : World V) : Prop :=
  ∃ order, SerialOrder w order ∧ ReplaysAll w order (fun _ => 0) w.region.shared.mem ∧
    order.Pairwise fun t u => ¬ (w.session u).ended < (w.session t).began

/-- Every regular run is strictly serializable. -/
theorem strictlySerializable [Zero V] (h : (calls S).Reachable regular w) :
    StrictlySerializable w := by
  have hserial := serial_of_reachable h
  have htimed := timed_of_reachable h
  obtain ⟨order, horder⟩ := exists_serialOrder hserial htimed
  refine ⟨order, horder, ?_, hserial.realTime_order htimed horder⟩
  exact hserial.replaysAll order [] _ horder fun a => .inl ⟨rfl, fun t z hw => nomatch hw.1⟩

/-- Transactions 1 and 2 are open together. Transaction 2 reads address 9 and commits after
transaction 1 has committed a word for address 8; transaction 3 then reads that word. -/
def overlappingCalls : List (Call ℕ) :=
  [.begin 1 false, .begin 2 true, .write 1 [(8, 5)], .endTx 1, .read 2 [9], .endTx 2,
    .begin 3 true, .read 3 [8], .endTx 3]

/-- The clock is checked, and no call is an allocation. -/
def checkCall (_ : World ℕ) : Call ℕ → World ℕ → Bool
  | .alloc _ _, _ => false
  | _, w' => decide (w'.region.shared.gvc.toNat < 2 ^ 31)

/-- A tested call is regular. -/
theorem regular_of_checkCall {w w' : World ℕ} {c : Call ℕ} (h : checkCall w c w' = true) :
    regular w c w' := by
  cases c with
  | alloc t block => cases h
  | begin | read | write | free | endTx | destroy | otherRegion =>
    exact ⟨of_decide_eq_true h, fun _ _ hc => nomatch hc⟩

theorem overlappingCalls_isSome : ((calls (Setup.plain ℕ)).exec checkCall
    (calls (Setup.plain ℕ)).init overlappingCalls).isSome := by decide

theorem strictlySerializable_overlapping : StrictlySerializable
    (((calls (Setup.plain ℕ)).exec checkCall (calls (Setup.plain ℕ)).init overlappingCalls).get
      overlappingCalls_isSome) :=
  strictlySerializable
    (LabelledSystem.reachable_of_exec (fun _ _ _ => regular_of_checkCall) overlappingCalls_isSome)

end TransactionalMemory
