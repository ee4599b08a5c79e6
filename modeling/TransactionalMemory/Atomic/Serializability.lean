import TransactionalMemory.Atomic.Recording
import TransactionalMemory.Atomic.UpdateReads
import TransactionalMemory.Sequential.SerialOrder

/-!
# Opacity of concurrent transactions

The atomic steps of the transactions interleave in any way, and still there is one order of the
transactions in which each of them, replayed at its place without interruption, returns what it
returned in the concurrent run (`Serializes`).

* `opacity_of_reachable`: in undisturbed runs the order contains every transaction that has begun,
  also those still running and those that were refused, and it respects the order in which they
  ran.
* `updatesSerializable_of_reachable`: if only lock collisions are excluded, so that a `setVersion`
  may fall between the two loads of a post-validation, the same holds of the transactions that
  have passed the validation of `tm_end`.

Both follow from the theory of interleaved calls. `Recorded.world` presents a recorded run as
a run of calls: a transaction that is going to commit has committed, its words are in memory and
all locks are free; one that is not, counts as a read-only transaction that has read the words it
accepted. `serial_world` is the invariant of interleaved calls for it.
-/

namespace TransactionalMemory

open VersionedWriteLock UnorderedMap Tx

variable {V : Type} {S : Setup V} {t u : Tid} {x : Tx V} {s : State V} {w : Recorded V}
  {keep : Tx V → Bool} {m : Addr → V}

/-! ## Legal orders -/

namespace Recorded

/-- The transactions of a list, replayed one after another. Those that do not commit leave the
memory as it is. -/
def Legal (w : Recorded V) : List Tid → (Addr → V) → (Addr → V) → Prop
  | [], m, m' => m' = m
  | t :: order, m, m' => ∃ m₁, Replays (w.ops t) m m₁ ∧
      w.Legal order (if (w.state.tx t).decided then m₁ else m) m'

/-- The step at which it was settled what a transaction contributes: nothing when it began, its
writes when its outcome was decided. -/
def settled (w : Recorded V) (t : Tid) : ℕ :=
  if (w.state.tx t).decided then w.decided t else w.began t

end Recorded

/-- The transactions with `P`, in the given order, are a legal sequential execution that starts
from zero everywhere and ends in the memory `m`. -/
structure Serializes [Zero V] (w : Recorded V) (P : Tid → Prop) (order : List Tid)
    (m : Addr → V) : Prop where
  mem : ∀ t, t ∈ order ↔ P t
  nodup : order.Nodup
  legal : w.Legal order (fun _ => 0) m
  /-- What was settled before another transaction began comes before it. -/
  realTime : order.Pairwise fun t u => w.began t ≤ w.settled u
  /-- Updates are in the order of their write versions. -/
  versions : order.Pairwise fun t u => (w.state.tx t).Passed → (w.state.tx u).Passed →
    (w.state.tx t).wv.toNat < (w.state.tx u).wv.toNat
  /-- The memory is the shared one, up to the words that are still to be stored. -/
  memory : ∀ a, (∀ t, a ∉ (w.state.tx t).unstored) → m a = w.state.shared.mem a

/-- All transactions that have begun, whatever becomes of them, are serializable together. -/
def Opacity [Zero V] (w : Recorded V) : Prop := ∃ order m, Serializes w w.Begun order m

/-- The update transactions that have passed validation are serializable. -/
def UpdatesSerializable [Zero V] (w : Recorded V) : Prop :=
  ∃ order m, Serializes w (fun t => (w.state.tx t).Passed) order m

/-! ## The memory with all passed writes -/

/-- The words of a transaction that has passed validation do not change, and write versions are
distinct. -/
theorem Versions.functional [Zero V] (h : Versions S s) : (passedWrites s).Functional where
  injective hi hj heq := h.stamped_inj _ _ (.of_passed hi.1) (.of_passed hj.1) heq
  value hi hj := Option.some.inj (hi.2.symm.trans hj.2)

/-- Where no word is still to be stored, the shared word is the latest one. -/
theorem Versions.latest_stored [Zero V] (h : Versions S s) {a : Addr}
    (hstored : ∀ t, a ∉ (s.tx t).unstored) : (passedWrites s).Latest 0 a (s.shared.mem a) := by
  refine (h.memory a).congr (fun t v => ?_) fun t v _ => ?_
  · exact ⟨fun hw => ⟨⟨hw.1, mem_iff_lookup.2 ⟨v, hw.2⟩, hstored t⟩, hw.2⟩,
      fun hw => ⟨hw.1.1, hw.2⟩⟩
  · rfl

/-- Every address has a latest word. -/
theorem Versions.exists_latest [Zero V] (h : Versions S s) (a : Addr) :
    ∃ v, (passedWrites s).Latest 0 a v := by
  by_cases hstored : ∀ t, a ∉ (s.tx t).unstored
  · exact ⟨_, h.latest_stored hstored⟩
  · -- the transaction that is about to store there owns the lock, so it is the latest
    simp only [not_forall, not_not] at hstored
    obtain ⟨t, ht⟩ := hstored
    have hpassed : (s.tx t).Passed := by
      unfold unstored at ht
      unfold Passed
      split at ht <;> simp_all
    have hown := h.owners.owned_of_unpublished hpassed (unstored_subset_unpublished ht)
    obtain ⟨v, hv⟩ : ∃ v, (s.tx t).txn.writeSet.lookup a = some v := by
      have hshape := h.owners.shape t
      unfold unstored at ht
      unfold Shape at hshape
      split at ht
      next todo hpc =>
        rw [hpc] at hshape
        obtain ⟨v, hv⟩ := mem_keysOf.1 ht
        exact ⟨v, hshape.entries _ hv⟩
      next e todo hpc =>
        rw [hpc] at hshape
        obtain ⟨v, hv⟩ := mem_keysOf.1 ht
        exact ⟨v, hshape.entries _ (List.mem_cons_of_mem _ hv)⟩
      next => cases ht
    refine ⟨v, .write (i := t) ⟨hpassed, hv⟩ fun u z hw => ?_⟩
    by_cases hut : u = t
    · rw [hut]
    · by_cases hst : (s.tx u).Stored a
      · exact (h.stored_lt hut hst (.of_passed hpassed) hown).le
      · have hmem : a ∈ (s.tx u).txn.writeSet := mem_iff_lookup.2 ⟨z, hw.2⟩
        have hown' := h.owners.owned_of_stamped (.of_passed hw.1) hmem fun hr => hst hr.stored
        exact absurd (h.owners.exclusive u t _ hown' hown) hut

/-! ## A recorded run as a run of calls -/

/-- A transaction as a session of interleaved calls. Calls are made at even times. -/
def Recorded.session (w : Recorded V) (keep : Tx V → Bool) (t : Tid) : Session V :=
  let x := w.state.tx t
  if keep x then
    if x.decided then
      { txn := x.txn
        status := .committed
        wv := x.wv
        ops := w.ops t
        began := 2 * w.began t
        ended := 2 * w.decided t }
    else
      -- only the words accepted from shared memory matter
      { txn := { x.txn with writeSet := ∅, isRo := true }
        status := .committed
        wv := x.wv
        ops := x.seen.map fun e => .read [e.1] [e.2]
        began := 2 * w.began t
        ended := 2 * w.began t + 1 }
  else { Session.unborn with wv := x.wv }

/-- The world in which all transactions that are kept have returned. -/
def Recorded.world [Zero V] (w : Recorded V) (keep : Tx V → Bool) (m : Addr → V) : World V where
  region := { tmCreate 0 (fun _ => 0) [] with
    shared :=
      { gvc := w.state.shared.gvc, locks := fun _ => setVersion w.state.shared.gvc, mem := m } }
  session := w.session keep
  time := 2 * w.time
  destroyed := false

/-- The transactions that are kept: all that have passed validation, and only transactions that
have read from their snapshots. -/
structure Kept [Zero V] (w : Recorded V) (keep : Tx V → Bool) : Prop where
  passed : ∀ t, (w.state.tx t).Passed → keep (w.state.tx t) = true
  begun : ∀ t, keep (w.state.tx t) = true → w.Begun t
  snapshot : ∀ t, keep (w.state.tx t) = true → ∀ a v, (a, v) ∈ (w.state.tx t).seen →
    (passedWrites w.state).ReadsAt 0 (w.state.tx t).txn.rv.toNat a v

/-- What holds of a recorded run of the machine. -/
structure RecordInv [Zero V] (S : Setup V) (w : Recorded V) : Prop where
  validated : Validated S w.state
  journal : ∀ t, Journal (w.state.tx t) (w.ops t)
  times : Times w

/-- A transaction that has passed validation is an update transaction. -/
theorem update_of_passed (hshape : x.Shape S) (h : x.Passed) : x.txn.isRo = false := by
  unfold Passed at h
  unfold Shape at hshape
  split at h
  next hpc =>
    rw [hpc] at hshape
    exact hshape.update
  next hpc =>
    rw [hpc] at hshape
    exact hshape.update
  next => exact h
  next => cases h

/-- The update transactions that have passed validation are those that are decided. -/
theorem passed_iff_decided (hshape : x.Shape S) :
    x.Passed ↔ x.decided = true ∧ x.txn.isRo = false := by
  constructor
  · intro h
    refine ⟨?_, update_of_passed hshape h⟩
    unfold Passed at h
    unfold Tx.decided
    split at h <;> simp_all
  · rintro ⟨h, hro⟩
    unfold Tx.decided at h
    unfold Passed
    split at h <;> simp_all

namespace Recorded

/-- The sessions of the world of calls. -/
@[simp] theorem world_session [Zero V] : (w.world keep m).session t = w.session keep t := rfl

/-- The session of a transaction that is decided. -/
theorem session_decided (hkeep : keep (w.state.tx t) = true)
    (hd : (w.state.tx t).decided = true) : w.session keep t =
      { txn := (w.state.tx t).txn
        status := .committed
        wv := (w.state.tx t).wv
        ops := w.ops t
        began := 2 * w.began t
        ended := 2 * w.decided t } := by
  simp [session, hkeep, hd]

/-- The session of a transaction that is not decided. -/
theorem session_open (hkeep : keep (w.state.tx t) = true)
    (hd : (w.state.tx t).decided = false) : w.session keep t =
      { txn := { (w.state.tx t).txn with writeSet := ∅, isRo := true }
        status := .committed
        wv := (w.state.tx t).wv
        ops := (w.state.tx t).seen.map fun e => .read [e.1] [e.2]
        began := 2 * w.began t
        ended := 2 * w.began t + 1 } := by
  simp [session, hkeep, hd]

/-- A transaction that is not kept has no session. -/
theorem session_dropped (hkeep : keep (w.state.tx t) = false) :
    w.session keep t = { Session.unborn with wv := (w.state.tx t).wv } := by
  simp [session, hkeep]

/-- The write version of a session. -/
@[simp] theorem session_wv : (w.session keep t).wv = (w.state.tx t).wv := by
  unfold session
  dsimp only
  split
  · split <;> rfl
  · rfl

/-- The transactions that are kept are committed in the world of calls, and no others. -/
theorem session_status : (w.session keep t).status = .committed ↔ keep (w.state.tx t) = true := by
  unfold session
  dsimp only
  split
  · split <;> simp_all
  · simp_all [Session.unborn]

/-- A session that is not committed has not begun. -/
theorem session_begun : (w.session keep t).Begun ↔ keep (w.state.tx t) = true := by
  unfold Session.Begun session
  dsimp only
  split
  · split <;> simp_all
  · simp_all [Session.unborn]

/-- The read version of a session. -/
theorem session_rv (hkeep : keep (w.state.tx t) = true) :
    (w.session keep t).txn.rv = (w.state.tx t).txn.rv := by
  unfold session
  dsimp only
  rw [if_pos hkeep]
  split <;> rfl

/-- When a session began. -/
theorem session_began (hkeep : keep (w.state.tx t) = true) :
    (w.session keep t).began = 2 * w.began t := by
  unfold session
  dsimp only
  rw [if_pos hkeep]
  split <;> rfl

end Recorded

/-- Reads of single words replay where these words are found, and change nothing. -/
theorem replays_reads {seen : List (Addr × V)} {m m' : Addr → V} :
    Replays (seen.map fun e => .read [e.1] [e.2]) m m' ↔
      m' = m ∧ ∀ a v, (a, v) ∈ seen → m a = v := by
  induction seen with
  | nil => simp [Replays]
  | cons e seen ih =>
    simp only [List.map_cons, Replays, ih, List.map_nil, List.cons.injEq, and_true, List.mem_cons]
    constructor
    · rintro ⟨hval, rfl, hrest⟩
      refine ⟨rfl, fun a v hav => ?_⟩
      rcases hav with rfl | hav
      · exact hval.symm
      · exact hrest a v hav
    · rintro ⟨rfl, hall⟩
      exact ⟨(hall e.1 e.2 (.inl rfl)).symm, rfl, fun a v hav => hall a v (.inr hav)⟩

/-- An empty write set changes nothing. -/
theorem overlay_empty (m : Addr → V) : overlay ∅ m = m := by
  ext a
  simp [overlay]

section World

variable [Zero V] {m' : Addr → V} (h : RecordInv S w) (hkept : Kept w keep)

include h hkept

/-- The committed updates of the world of calls are the updates that have passed validation. -/
theorem updated_iff_passed : (w.session keep t).Updated ↔ (w.state.tx t).Passed := by
  rw [passed_iff_decided (h.validated.versions.owners.shape t), Session.Updated]
  cases hkeep : keep (w.state.tx t) with
  | true =>
    cases hd : (w.state.tx t).decided with
    | true => simp [Recorded.session_decided hkeep hd]
    | false => simp [Recorded.session_open hkeep hd]
  | false =>
    rw [Recorded.session_dropped hkeep]
    refine iff_of_false (by simp [Session.unborn]) fun hc => ?_
    rw [hkept.passed t ((passed_iff_decided (h.validated.versions.owners.shape t)).2 hc)] at hkeep
    cases hkeep

/-- An update that has passed validation is a session with the same object. -/
theorem session_of_passed (hpassed : (w.state.tx t).Passed) :
    w.session keep t =
      { txn := (w.state.tx t).txn
        status := .committed
        wv := (w.state.tx t).wv
        ops := w.ops t
        began := 2 * w.began t
        ended := 2 * w.decided t } :=
  Recorded.session_decided (hkept.passed t hpassed)
    ((passed_iff_decided (h.validated.versions.owners.shape t)).1 hpassed).1

/-- The writes of the sessions are those of the transactions that have passed validation. -/
theorem sessionWrites_world : sessionWrites (w.world keep m) = passedWrites w.state := by
  unfold sessionWrites passedWrites
  congr 1
  · ext t a v
    show (w.session keep t).Updated ∧ (w.session keep t).txn.writeSet.lookup a = some v ↔ _
    rw [updated_iff_passed h hkept]
    refine and_congr_right fun hpassed => ?_
    rw [session_of_passed h hkept hpassed]
  · ext t
    show (w.session keep t).wv.toNat = _
    rw [Recorded.session_wv]

/-- A session that is kept replays from every memory that agrees with its snapshot. -/
theorem replays_world (halive : (w.session keep t).Alive)
    (hm : Agrees (w.world keep m) (w.session keep t) m') :
    Replays (w.session keep t).ops m' (overlay (w.session keep t).txn.writeSet m') := by
  have hkeep : keep (w.state.tx t) = true := by
    rw [← Recorded.session_begun, Session.Begun]
    rcases halive with hopen | hcommitted
    · simp [hopen]
    · simp [hcommitted]
  have hfun := h.validated.versions.functional
  rw [Agrees, sessionWrites_world h hkept, Recorded.session_rv hkeep] at hm
  cases hd : (w.state.tx t).decided with
  | true =>
    rw [Recorded.session_decided hkeep hd] at hm ⊢
    refine (h.journal t).replays m' fun a v hseen => ?_
    refine (hm a ?_).unique hfun (hkept.snapshot t hkeep a v hseen)
    cases hro : (w.state.tx t).txn.isRo with
    | true => exact .inl rfl
    | false => exact .inr ((h.journal t).seen_read a v hseen hro)
  | false =>
    rw [Recorded.session_open hkeep hd] at hm ⊢
    refine replays_reads.2 ⟨overlay_empty m', fun a v hseen => ?_⟩
    exact (hm a (.inl rfl)).unique hfun (hkept.snapshot t hkeep a v hseen)

/-- The world of calls satisfies the invariant of interleaved calls. -/
theorem serial_world (hm : ∀ a, (passedWrites w.state).Latest 0 a (m a)) :
    Serial S (w.world keep m) := by
  have hver := h.validated.versions
  have hwrites := sessionWrites_world (m := m) h hkept
  have hupdated := fun t => updated_iff_passed (t := t) h hkept
  have hversion : versionOf (setVersion w.state.shared.gvc) = w.state.shared.gvc.toNat :=
    versionOf_setVersion hver.clocked.clock
  have hwv_le : ∀ t, (w.session keep t).Updated →
      (w.session keep t).wv.toNat ≤ w.state.shared.gvc.toNat := by
    intro t hu
    rw [Recorded.session_wv]
    exact hver.clocked.stamped_le t (.of_passed ((hupdated t).1 hu))
  refine {
    free := fun l => isLocked_setVersion _
    clock := hver.clocked.clock
    version_le := fun l => hversion.le
    rv_le := fun t => ?_
    wv_le := hwv_le
    rv_lt := fun t hu => ?_
    wv_inj := fun t u ht hu heq => ?_
    covered := fun t a hu _ => (hwv_le t hu).trans hversion.ge
    memory := fun a => hwrites ▸ hm a
    readOnly := fun t hro => ?_
    replays := fun t halive m' hagree => replays_world h hkept halive hagree
    validated := fun t hu a ha u z hw hlt => ?_
    began_lt := fun t ht => ?_
    realTime := fun t u ht hu hlt => ?_ }
  · cases hkeep : keep (w.state.tx t) with
    | true =>
      rw [Recorded.world_session, Recorded.session_rv hkeep]
      exact hver.clocked.rv_le t
    | false =>
      rw [Recorded.world_session, Recorded.session_dropped hkeep]
      exact Nat.zero_le _
  · have hpassed := (hupdated t).1 hu
    rw [Recorded.world_session, session_of_passed h hkept hpassed]
    exact hver.clocked.rv_lt t (.of_passed hpassed)
  · rw [Recorded.world_session, Recorded.world_session, Recorded.session_wv,
      Recorded.session_wv] at heq
    exact hver.stamped_inj t u (.of_passed ((hupdated t).1 ht)) (.of_passed ((hupdated u).1 hu)) heq
  · rw [Recorded.world_session] at hro ⊢
    cases hkeep : keep (w.state.tx t) with
    | true =>
      cases hd : (w.state.tx t).decided with
      | true =>
        rw [Recorded.session_decided hkeep hd] at hro ⊢
        exact (h.journal t).readOnly hro
      | false => rw [Recorded.session_open hkeep hd]
    | false =>
      rw [Recorded.session_dropped hkeep]
      rfl
  · have hpassed := (hupdated t).1 hu
    rw [hwrites] at hw
    simp only [Recorded.world_session, session_of_passed h hkept hpassed,
      Recorded.session_wv] at ha hlt ⊢
    exact (h.validated.validates t).checked hpassed ha u (.of_passed hw.1)
      (mem_iff_lookup.2 ⟨z, hw.2⟩) hlt
  · have hkeep := Recorded.session_begun.1 ht
    rw [Recorded.world_session, Recorded.session_began hkeep]
    exact Nat.mul_lt_mul_of_pos_left (h.times.began_lt t (hkept.begun t hkeep)) Nat.two_pos
  · have hkeep := Recorded.session_status.1 ht
    have hkeep' := Recorded.session_begun.1 hu
    have hborn := hkept.begun t hkeep
    have hborn' := hkept.begun u hkeep'
    rw [Recorded.world_session, Recorded.world_session, Recorded.session_began hkeep'] at hlt
    rw [Recorded.world_session, Recorded.world_session, Recorded.session_rv hkeep,
      Recorded.session_rv hkeep', Recorded.session_wv]
    cases hd : (w.state.tx t).decided with
    | true =>
      rw [Recorded.session_decided hkeep hd] at hlt ⊢
      have hlt' : w.decided t < w.began u := by
        dsimp only at hlt
        omega
      refine ⟨h.times.began_mono t u hborn hborn' ?_, fun hro => ?_⟩
      · exact ((h.times.began_decided t hd).2.trans hlt').le
      · exact h.times.realTime t u hd hro hborn' hlt'
    | false =>
      rw [Recorded.session_open hkeep hd] at hlt ⊢
      refine ⟨h.times.began_mono t u hborn hborn' ?_, fun hro => nomatch hro⟩
      dsimp only at hlt
      omega

/-- The ends of the sessions are in order. -/
theorem timed_world : Timed (w.world keep m) := by
  have hended : ∀ t, keep (w.state.tx t) = true →
      ((w.state.tx t).decided = true ∧ (w.session keep t).ended = 2 * w.decided t ∧
        w.began t < w.decided t ∧ w.decided t < w.time) ∨
      ((w.session keep t).ended = 2 * w.began t + 1 ∧ w.began t < w.time) := by
    intro t hkeep
    cases hd : (w.state.tx t).decided with
    | true =>
      rw [Recorded.session_decided hkeep hd]
      exact .inl ⟨rfl, rfl, (h.times.began_decided t hd).2, h.times.decided_lt t hd⟩
    | false =>
      rw [Recorded.session_open hkeep hd]
      exact .inr ⟨rfl, h.times.began_lt t (hkept.begun t hkeep)⟩
  refine ⟨fun t ht => ?_, fun t u ht hu heq => ?_, fun t ht => ?_, ?_⟩
  · show (w.session keep t).ended < 2 * w.time
    have := hended t (Recorded.session_status.1 ht)
    omega
  · -- decisions are at even times, and the others at odd ones
    have hkeep := Recorded.session_status.1 ht
    have hkeep' := Recorded.session_status.1 hu
    rw [Recorded.world_session, Recorded.world_session] at heq
    rcases hended t hkeep with ⟨hd, hend, -⟩ | ⟨hend, -⟩ <;>
      rcases hended u hkeep' with ⟨hd', hend', -⟩ | ⟨hend', -⟩
    · exact h.times.decided_inj t u hd hd' (by omega)
    · omega
    · omega
    · exact h.times.began_inj t u (hkept.begun t hkeep) (hkept.begun u hkeep') (by omega)
  · have hkeep := Recorded.session_status.1 ht
    rw [Recorded.world_session, Recorded.session_began hkeep]
    have := hended t hkeep
    omega
  · obtain ⟨ts, hts⟩ := h.times.finite
    exact ⟨ts, fun t ht => hts t (hkept.begun t (Recorded.session_status.1 ht))⟩

omit hkept in
/-- A replay in the world of calls is a legal order of the recorded run. -/
theorem legal_of_replaysAll {order : List Tid} {m₀ m₁ : Addr → V}
    (horder : ∀ t ∈ order, keep (w.state.tx t) = true)
    (hreplays : ReplaysAll (w.world keep m) order m₀ m₁) : w.Legal order m₀ m₁ := by
  induction order generalizing m₀ with
  | nil => exact hreplays
  | cons t order ih =>
    obtain ⟨m₂, hops, hrest⟩ := hreplays
    have hkeep := horder t List.mem_cons_self
    have hlegal := ih (fun u hu => horder u (List.mem_cons_of_mem _ hu)) hrest
    rw [Recorded.world_session] at hops
    cases hd : (w.state.tx t).decided with
    | true =>
      rw [Recorded.session_decided hkeep hd] at hops
      exact ⟨m₂, hops, by rwa [if_pos hd]⟩
    | false =>
      -- the session has read only, so it leaves the memory as it is
      rw [Recorded.session_open hkeep hd] at hops
      obtain ⟨rfl, hseen⟩ := replays_reads.1 hops
      exact ⟨_, (h.journal t).replays m₂ hseen, by rwa [if_neg (by simp [hd])]⟩

/-- The transactions that are kept are serializable together. -/
theorem exists_serializes : ∃ order m,
    Serializes w (fun t => keep (w.state.tx t) = true) order m := by
  choose m hm using h.validated.versions.exists_latest
  have hserial := serial_world h hkept hm
  have htimed := timed_world (m := m) h hkept
  obtain ⟨order, horder⟩ := exists_serialOrder hserial htimed
  have hmem : ∀ t, t ∈ order ↔ keep (w.state.tx t) = true :=
    fun t => (horder.mem t).trans Recorded.session_status
  refine ⟨order, m, hmem, ?_, ?_, ?_, ?_, fun a ha => ?_⟩
  · exact horder.sorted.imp fun hlt heq => (heq ▸ hlt).ne rfl
  · refine legal_of_replaysAll h (fun t ht => (hmem t).1 ht) (m := m) ?_
    exact hserial.replaysAll order [] _ horder fun a => .inl ⟨rfl, fun t z hw => nomatch hw.1⟩
  · refine (hserial.realTime_order htimed horder).imp_of_mem fun {t u} ht hu hnot => ?_
    rw [Recorded.world_session, Recorded.world_session,
      Recorded.session_began ((hmem t).1 ht)] at hnot
    unfold Recorded.settled
    cases hd : (w.state.tx u).decided with
    | true =>
      rw [Recorded.session_decided ((hmem u).1 hu) hd] at hnot
      simp only [if_true]
      dsimp only at hnot
      omega
    | false =>
      rw [Recorded.session_open ((hmem u).1 hu) hd] at hnot
      simp only [Bool.false_eq_true, if_false]
      dsimp only at hnot
      omega
  · refine horder.sorted.imp fun {t u} hlt ht hu => ?_
    rw [Recorded.world_session, Recorded.world_session, session_of_passed h hkept ht,
      session_of_passed h hkept hu] at hlt
    have hro := update_of_passed (h.validated.versions.owners.shape t) ht
    have hro' := update_of_passed (h.validated.versions.owners.shape u) hu
    exact (serialKey_lt_update_update hro hro').1 hlt
  · exact (hm a).unique h.validated.versions.functional (h.validated.versions.latest_stored ha)

end World

/-- Serializability depends on which transactions are meant. -/
theorem Serializes.congr [Zero V] {P Q : Tid → Prop} {order : List Tid} (hPQ : ∀ t, P t ↔ Q t)
    (h : Serializes w P order m) : Serializes w Q order m :=
  { h with mem := fun t => (h.mem t).trans (hPQ t) }

/-! ## Runs -/

/-- What is known of every steady run. -/
theorem recordInv_of_reachable [Zero V]
    (h : (recording S).Reachable
      (recordedStep fun s lab s' => steady S s lab s' ∧ writesInUpdates s lab s') w) :
    RecordInv S w where
  validated := validated_of_reachable
    (Recorded.reachable_state (h.mono fun _ _ _ hok => hok.1))
  journal := journal_of_reachable (h.mono fun _ _ _ hok => hok.2)
  times := times_of_reachable (h.mono fun _ _ _ hok => hok.1.1.1)

/-- `tm_begin` has been called. -/
def Tx.begun (x : Tx V) : Bool :=
  match x.pc with
  | .unborn => false
  | _ => true

/-- The test whether `tm_begin` has been called. -/
theorem Tx.begun_iff : x.begun = true ↔ x.pc ≠ .unborn := by
  unfold Tx.begun
  split <;> simp_all

/-- All transactions that have begun can be kept if they have read snapshots. -/
theorem kept_begun [Zero V] (h : Snapshots S w.state) : Kept w Tx.begun where
  passed t hpassed := Tx.begun_iff.2 fun hpc => by simp [Passed, hpc] at hpassed
  begun t := Tx.begun_iff.1
  snapshot t _ a v hseen := by
    obtain ⟨hsettled, hread⟩ := h.seen t a v hseen
    exact hsettled.passedWrites_readsAt hread

/-- In an undisturbed run all transactions, whatever becomes of them, are serializable together in
an order that respects the order in which they ran. -/
theorem opacity_of_reachable [Zero V]
    (h : (recording S).Reachable
      (recordedStep fun s lab s' => undisturbed S s lab s' ∧ writesInUpdates s lab s') w) :
    Opacity w := by
  have hinv : RecordInv S w :=
    recordInv_of_reachable (h.mono fun _ _ _ hok => ⟨hok.1.1, hok.2⟩)
  have hkept := kept_begun
    (snapshots_of_reachable (Recorded.reachable_state (h.mono fun _ _ _ hok => hok.1)))
  obtain ⟨order, m, hserial⟩ := exists_serializes hinv hkept
  exact ⟨order, m, hserial.congr fun t => Tx.begun_iff⟩

/-- In a steady run the update transactions that have passed validation are serializable, even if
post-validations are split. -/
theorem updatesSerializable_of_reachable [Zero V]
    (h : (recording S).Reachable
      (recordedStep fun s lab s' => steady S s lab s' ∧ writesInUpdates s lab s') w) :
    UpdatesSerializable w := by
  have hinv := recordInv_of_reachable h
  have hcopies := copies_of_reachable
    (Recorded.reachable_state (h.mono fun _ _ _ hok => hok.1))
  have hpassed : ∀ t, ((w.state.tx t).decided && !(w.state.tx t).txn.isRo) = true ↔
      (w.state.tx t).Passed := by
    intro t
    rw [passed_iff_decided (hinv.validated.versions.owners.shape t), Bool.and_eq_true,
      Bool.not_eq_true']
  have hkept : Kept w fun x => x.decided && !x.txn.isRo := {
    passed := fun t => (hpassed t).2
    begun := fun t hkeep => (hinv.times.began_decided t (Bool.and_eq_true _ _ ▸ hkeep).1).1
    snapshot := fun t hkeep a v hseen => by
      have hro := update_of_passed (hinv.validated.versions.owners.shape t) ((hpassed t).1 hkeep)
      exact hcopies.readsAt ((hpassed t).1 hkeep)
        ((hinv.journal t).seen_read a v hseen hro) hseen }
  obtain ⟨order, m, hserial⟩ := exists_serializes hinv hkept
  exact ⟨order, m, hserial.congr hpassed⟩

/-- The label is no write of a read-only transaction. -/
def checkWrite (s : State V) : Label V → Bool
  | .tx t (.write _ _) => !(s.tx t).txn.isRo
  | _ => true

/-- A tested step is no write of a read-only transaction. -/
theorem writesInUpdates_of_checkWrite {lab : Label V} {s' : State V}
    (h : checkWrite s lab = true) : writesInUpdates s lab s' := by
  rintro t a val rfl
  simpa [checkWrite] using h

/-- The step truncates no version, and is no write of a read-only transaction. -/
def checkSteady (w : Recorded ℕ) (lab : Label ℕ) (w' : Recorded ℕ) : Bool :=
  decide (versionsKept w.state lab w'.state) && checkWrite w.state lab

/-- A tested step is steady. -/
theorem steady_of_checkSteady {w w' : Recorded ℕ} {lab : Label ℕ}
    (h : checkSteady w lab w' = true) :
    recordedStep (fun s lab s' => steady (Setup.direct ℕ) s lab s' ∧ writesInUpdates s lab s')
      w lab w' := by
  rw [checkSteady, Bool.and_eq_true, decide_eq_true_eq] at h
  exact ⟨⟨h.1, collisionFree_direct _⟩, writesInUpdates_of_checkWrite h.2⟩

/-- The step is no `setVersion` either. -/
def checkUndisturbed (w : Recorded ℕ) (lab : Label ℕ) (w' : Recorded ℕ) : Bool :=
  checkSteady w lab w' && !publishing w.state lab

/-- A tested step is undisturbed. -/
theorem undisturbed_of_checkUndisturbed {w w' : Recorded ℕ} {lab : Label ℕ}
    (h : checkUndisturbed w lab w' = true) :
    recordedStep (fun s lab s' => undisturbed (Setup.direct ℕ) s lab s' ∧ writesInUpdates s lab s')
      w lab w' := by
  rw [checkUndisturbed, Bool.and_eq_true, Bool.not_eq_true'] at h
  have hsteady := steady_of_checkSteady h.1
  exact ⟨⟨hsteady.1, wholeValidation_of_not_publishing h.2⟩, hsteady.2⟩

/-- Transaction 1 has stored its word at the address 8, transaction 2 reads the address 9 and
ends, and transaction 3 begins and is refused at the address 8. -/
def pendingRun : List (Label ℕ) :=
  [.tx 1 (.begin false), .tx 1 (.write 8 1), .tx 1 .endTx] ++ accesses ℕ 1 4 ++
  [.tx 2 (.begin true), .tx 2 (.read [9])] ++ accesses ℕ 2 6 ++ [.tx 2 .endTx] ++
  [.tx 3 (.begin false), .tx 3 (.write 7 3), .tx 3 (.read [7, 8])] ++ accesses ℕ 3 7

theorem pendingRun_isSome : ((recording (Setup.direct ℕ)).exec checkUndisturbed
    (recording (Setup.direct ℕ)).init pendingRun).isSome := by decide

theorem opacity_pending : Opacity (((recording (Setup.direct ℕ)).exec checkUndisturbed
    (recording (Setup.direct ℕ)).init pendingRun).get pendingRun_isSome) :=
  opacity_of_reachable
    (LabelledSystem.reachable_of_exec (fun _ _ _ => undisturbed_of_checkUndisturbed)
      pendingRun_isSome)

theorem splitRun_recorded_isSome : ((recording (Setup.direct ℕ)).exec checkSteady
    (recording (Setup.direct ℕ)).init splitRun).isSome := by decide

theorem updatesSerializable_split : UpdatesSerializable
    (((recording (Setup.direct ℕ)).exec checkSteady
      (recording (Setup.direct ℕ)).init splitRun).get splitRun_recorded_isSome) :=
  updatesSerializable_of_reachable
    (LabelledSystem.reachable_of_exec (fun _ _ _ => steady_of_checkSteady)
      splitRun_recorded_isSome)

end TransactionalMemory
