import TransactionalMemory.Foundations.VersionedWrites
import TransactionalMemory.Sequential.Interleaving
import TransactionalMemory.Sequential.Refusal

/-!
# Interleaved calls are serializable

The invariant of interleaved calls behind strict serializability (`Serial`). Between two calls all
locks are free, so the state is described by three facts, in terms of the write versions of the
committed transactions:

* the shared words are the latest ones written (`memory`);
* the version in the lock of an address is at least every write version at that address
  (`covered`), so a word that can be read belongs to the snapshot at the read version;
* a transaction replays from every memory that agrees with its snapshot on what it has read
  (`replays`), and nobody has written there between the read version and the write version of a
  committed transaction (`validated`).

`Serial.quiet` shows that the invariant is kept by the calls that commit nothing, and
`Serial.commit` that it is kept by a commit. `SerialOrder` draws the conclusion.
-/

namespace TransactionalMemory

open VersionedWriteLock UnorderedMap

variable {V : Type} {S : Setup V} {t u : Tid} {w w' : World V} {region : Region V}
  {x : Session V}

/-! ## Replaying a transaction -/

/-- The operations of a transaction, executed in place on plain memory, return what they
returned, and lead from one memory to another. The words of a fresh block are zero already. -/
def Replays : List (Op V) → (Addr → V) → (Addr → V) → Prop
  | [], m, m' => m' = m
  | .read addrs vals :: ops, m, m' => vals = addrs.map m ∧ Replays ops m m'
  | .write entries :: ops, m, m' => Replays ops (storeAll entries m) m'
  | .alloc _ _ :: ops, m, m' => Replays ops m m'

/-- Operations replay in two parts. -/
theorem replays_append {ops ops' : List (Op V)} {m m'' : Addr → V} :
    Replays (ops ++ ops') m m'' ↔ ∃ m', Replays ops m m' ∧ Replays ops' m' m'' := by
  induction ops generalizing m with
  | nil => simp [Replays]
  | cons op ops ih =>
    cases op with
    | read addrs vals => simp only [List.cons_append, Replays, ih, and_assoc, exists_and_left]
    | write entries => simp only [List.cons_append, Replays, ih]
    | alloc seg words => simp only [List.cons_append, Replays, ih]

/-! ## The invariant -/

namespace Session

/-- `tm_begin` has been called. -/
def Begun (x : Session V) : Prop := x.status ≠ .unborn

/-- The transaction is open or has been committed. -/
def Alive (x : Session V) : Prop := x.status = .open ∨ x.status = .committed

/-- The transaction is an update transaction that has been committed. -/
def Updated (x : Session V) : Prop := x.status = .committed ∧ x.txn.isRo = false

end Session

/-- The words written by the committed transactions, with their write versions. -/
def sessionWrites (w : World V) : VersionedWrites Tid Addr V ℕ where
  wrote t a v := (w.session t).Updated ∧ (w.session t).txn.writeSet.lookup a = some v
  version t := (w.session t).wv.toNat

/-- A memory agrees with the snapshot of a transaction on what it has read; for a read-only
transaction, which does not keep track of that, everywhere. -/
def Agrees [Zero V] (w : World V) (x : Session V) (m : Addr → V) : Prop :=
  ∀ a, x.txn.isRo = true ∨ a ∈ x.txn.readSet →
    (sessionWrites w).ReadsAt 0 x.txn.rv.toNat a (m a)

/-- The invariant of interleaved calls. -/
structure Serial [Zero V] (S : Setup V) (w : World V) : Prop where
  free : ∀ l, isLocked (w.region.shared.locks l) = false
  clock : w.region.shared.gvc.toNat < 2 ^ 63
  version_le : ∀ l, versionOf (w.region.shared.locks l) ≤ w.region.shared.gvc.toNat
  rv_le : ∀ t, (w.session t).txn.rv.toNat ≤ w.region.shared.gvc.toNat
  wv_le : ∀ t, (w.session t).Updated → (w.session t).wv.toNat ≤ w.region.shared.gvc.toNat
  rv_lt : ∀ t, (w.session t).Updated → (w.session t).txn.rv.toNat < (w.session t).wv.toNat
  wv_inj : ∀ t u, (w.session t).Updated → (w.session u).Updated →
    (w.session t).wv.toNat = (w.session u).wv.toNat → t = u
  /-- A committed write is covered by the version of its lock. -/
  covered : ∀ t a, (w.session t).Updated → a ∈ (w.session t).txn.writeSet →
    (w.session t).wv.toNat ≤ versionOf (w.region.shared.locks (S.lockOf a))
  memory : ∀ a, (sessionWrites w).Latest 0 a (w.region.shared.mem a)
  readOnly : ∀ t, (w.session t).txn.isRo = true → (w.session t).txn.writeSet = ∅
  /-- A transaction replays from every memory that agrees with what it has read. -/
  replays : ∀ t, (w.session t).Alive → ∀ m, Agrees w (w.session t) m →
    Replays (w.session t).ops m (overlay (w.session t).txn.writeSet m)
  /-- What a committed transaction has read was not written before its write version. -/
  validated : ∀ t, (w.session t).Updated → ∀ a ∈ (w.session t).txn.readSet, ∀ u z,
    (sessionWrites w).wrote u a z → (w.session u).wv.toNat < (w.session t).wv.toNat →
      (w.session u).wv.toNat ≤ (w.session t).txn.rv.toNat
  began_lt : ∀ t, (w.session t).Begun → (w.session t).began < w.time
  /-- A transaction that ended before another one began has versions up to its read version. -/
  realTime : ∀ t u, (w.session t).status = .committed → (w.session u).Begun →
    (w.session t).ended < (w.session u).began →
      (w.session t).txn.rv.toNat ≤ (w.session u).txn.rv.toNat ∧
      ((w.session t).txn.isRo = false → (w.session t).wv.toNat ≤ (w.session u).txn.rv.toNat)

/-! ## Calls that commit nothing -/

/-- The locks and the shared words are left alone, and the clock does not go back. -/
structure KeepsWords (w : World V) (region : Region V) : Prop where
  locks : region.shared.locks = w.region.shared.locks
  mem : region.shared.mem = w.region.shared.mem
  gvc_le : w.region.shared.gvc.toNat ≤ region.shared.gvc.toNat
  clock : region.shared.gvc.toNat < 2 ^ 63

/-- The invariant does not depend on the segments, and survives a tick of the clock. -/
theorem Serial.frame [Zero V] (h : Serial S w) (hsession : w'.session = w.session)
    (hkeeps : KeepsWords w w'.region) (htime : w.time ≤ w'.time) : Serial S w' := by
  have hwrites : sessionWrites w' = sessionWrites w := by
    simp only [sessionWrites, hsession]
  -- only the bounds by the clock and by the time change
  constructor
  case clock => exact hkeeps.clock
  all_goals simp only [hsession, hkeeps.locks, hkeeps.mem, hwrites, Agrees]
  case free => exact h.free
  case version_le => exact fun l => (h.version_le l).trans hkeeps.gvc_le
  case rv_le => exact fun t => (h.rv_le t).trans hkeeps.gvc_le
  case wv_le => exact fun t ht => (h.wv_le t ht).trans hkeeps.gvc_le
  case rv_lt => exact h.rv_lt
  case wv_inj => exact h.wv_inj
  case covered => exact h.covered
  case memory => exact h.memory
  case readOnly => exact h.readOnly
  case replays => exact h.replays
  case validated => exact h.validated
  case began_lt => exact fun t ht => (h.began_lt t ht).trans_le htime
  case realTime => exact h.realTime

/-- A call of a transaction that is not committed adds no writes. -/
theorem sessionWrites_called (hold : ¬ (w.session t).Updated) (hnew : ¬ x.Updated)
    (hwv : x.wv = (w.session t).wv) :
    sessionWrites (w.called t region x) = sessionWrites w := by
  unfold sessionWrites
  congr 1
  · ext u a v
    by_cases hut : u = t
    · subst hut
      simp [hold, hnew]
    · rw [World.called_session_of_ne hut]
  · ext u
    by_cases hut : u = t
    · subst hut
      simp [hwv]
    · rw [World.called_session_of_ne hut]

/-- A call of `t` that commits no update and leaves the locks and the shared words alone. -/
structure Quiet [Zero V] (w : World V) (t : Tid) (region : Region V) (x : Session V) : Prop
    extends KeepsWords w region where
  not_updated : ¬ (w.session t).Updated
  no_update : ¬ x.Updated
  wv : x.wv = (w.session t).wv
  rv_le : x.txn.rv.toNat ≤ region.shared.gvc.toNat
  readOnly : x.txn.isRo = true → x.txn.writeSet = ∅
  replays : x.Alive → ∀ m, Agrees w x m → Replays x.ops m (overlay x.txn.writeSet m)
  began_le : x.Begun → x.began ≤ w.time
  /-- What was committed before the transaction began has versions up to its read version. -/
  before : x.Begun → ∀ u, (w.session u).status = .committed → (w.session u).ended < x.began →
    (w.session u).txn.rv.toNat ≤ x.txn.rv.toNat ∧
    ((w.session u).txn.isRo = false → (w.session u).wv.toNat ≤ x.txn.rv.toNat)
  ended_ge : x.status = .committed → w.time ≤ x.ended

/-- The invariant is kept by a quiet call. -/
theorem Serial.quiet [Zero V] (h : Serial S w) (hq : Quiet w t region x) :
    Serial S (w.called t region x) := by
  have hwrites : sessionWrites (w.called t region x) = sessionWrites w :=
    sessionWrites_called hq.not_updated hq.no_update hq.wv
  -- the committed updates are those of before
  have hother : ∀ u, ((w.called t region x).session u).Updated →
      (w.session u).Updated ∧ (w.called t region x).session u = w.session u := by
    intro u hu
    have hut : u ≠ t := by
      rintro rfl
      rw [World.called_session_self] at hu
      exact hq.no_update hu
    rw [World.called_session_of_ne hut] at hu ⊢
    exact ⟨hu, rfl⟩
  -- every other session is the same as before, and the one of `t` has no writes
  exact {
    free := fun l => by
      rw [World.called_region, hq.locks]
      exact h.free l
    clock := hq.clock
    version_le := fun l => by
      rw [World.called_region, hq.locks]
      exact (h.version_le l).trans hq.gvc_le
    rv_le := World.forall_called (P := fun _ y => y.txn.rv.toNat ≤ region.shared.gvc.toNat) hq.rv_le
      fun u _ => (h.rv_le u).trans hq.gvc_le
    wv_le := fun u hu => by
      obtain ⟨hu', hsame⟩ := hother u hu
      rw [hsame]
      exact (h.wv_le u hu').trans hq.gvc_le
    rv_lt := fun u hu => by
      obtain ⟨hu', hsame⟩ := hother u hu
      rw [hsame]
      exact h.rv_lt u hu'
    wv_inj := fun u v hu hv heq => by
      obtain ⟨hu', husame⟩ := hother u hu
      obtain ⟨hv', hvsame⟩ := hother v hv
      rw [husame, hvsame] at heq
      exact h.wv_inj u v hu' hv' heq
    covered := fun u a hu ha => by
      obtain ⟨hu', hsame⟩ := hother u hu
      rw [hsame] at ha ⊢
      rw [World.called_region, hq.locks]
      exact h.covered u a hu' ha
    memory := fun a => by
      rw [hwrites, World.called_region, hq.mem]
      exact h.memory a
    readOnly := World.forall_called (P := fun _ y => y.txn.isRo = true → y.txn.writeSet = ∅)
      hq.readOnly fun u _ => h.readOnly u
    replays := World.forall_called (P := fun _ y => y.Alive → ∀ m,
        Agrees (w.called t region x) y m → Replays y.ops m (overlay y.txn.writeSet m))
      (fun halive m hagree => hq.replays halive m (by rwa [Agrees, hwrites] at hagree))
      (fun u _ halive m hagree => h.replays u halive m (by rwa [Agrees, hwrites] at hagree))
    validated := fun u hu a ha v z hw hlt => by
      obtain ⟨hu', husame⟩ := hother u hu
      obtain ⟨-, hvsame⟩ := hother v hw.1
      rw [hwrites] at hw
      rw [husame] at ha hlt ⊢
      rw [hvsame] at hlt ⊢
      exact h.validated u hu' a ha v z hw hlt
    began_lt := World.forall_called (P := fun _ y => y.Begun → y.began < w.time + 1)
      (fun hbegun => Nat.lt_succ_of_le (hq.began_le hbegun))
      (fun u _ hbegun => (h.began_lt u hbegun).trans (Nat.lt_succ_self _))
    realTime := fun u v hu hv hlt => by
      by_cases hut : u = t
      · -- a transaction that ends now began before every one that begins later
        subst hut
        rw [World.called_session_self] at hu hlt
        have hended := hq.ended_ge hu
        by_cases hvu : v = u
        · subst hvu
          rw [World.called_session_self] at hv hlt
          have := hq.began_le hv
          omega
        · rw [World.called_session_of_ne hvu] at hv hlt
          have := h.began_lt v hv
          omega
      · rw [World.called_session_of_ne hut] at hu hlt ⊢
        by_cases hvt : v = t
        · subst hvt
          rw [World.called_session_self] at hv hlt ⊢
          exact hq.before hv u hu hlt
        · rw [World.called_session_of_ne hvt] at hv hlt ⊢
          exact h.realTime u v hu hv hlt }

/-- A quiet call of an open transaction that keeps its version and its start. -/
structure QuietOpen [Zero V] (w : World V) (t : Tid) (region : Region V) (x : Session V) : Prop
    extends KeepsWords w region where
  usable : w.Usable t
  ended : x.status = .committed → x.txn.isRo = true ∧ x.ended = w.time
  wv : x.wv = (w.session t).wv
  began : x.began = (w.session t).began
  rv : x.txn.rv = (w.session t).txn.rv
  readOnly : x.txn.isRo = true → x.txn.writeSet = ∅
  replays : x.Alive → ∀ m, Agrees w x m → Replays x.ops m (overlay x.txn.writeSet m)

/-- The invariant is kept by a quiet call of an open transaction. -/
theorem Serial.quiet_open [Zero V] (h : Serial S w) (hq : QuietOpen w t region x) :
    Serial S (w.called t region x) := by
  have hbegun : (w.session t).Begun := by
    rw [Session.Begun, hq.usable.1]
    exact nofun
  exact h.quiet {
    hq with
    not_updated := by
      rintro ⟨hcommitted, -⟩
      rw [hq.usable.1] at hcommitted
      cases hcommitted
    no_update := fun hx => by
      rw [Session.Updated, (hq.ended hx.1).1] at hx
      cases hx.2
    rv_le := by
      rw [hq.rv]
      exact (h.rv_le t).trans hq.gvc_le
    began_le := fun _ => by
      rw [hq.began]
      exact (h.began_lt t hbegun).le
    before := fun _ u hu hlt => by
      rw [hq.began] at hlt
      rw [hq.rv]
      exact h.realTime u t hu hbegun hlt
    ended_ge := fun hx => (hq.ended hx).2.ge }

/-- A transaction that is refused is not alive any more. -/
theorem Serial.quiet_refused [Zero V] (h : Serial S w) (huse : w.Usable t)
    (hkeeps : KeepsWords w region) :
    Serial S (w.called t region { w.session t with status := .refused, ended := w.time }) :=
  h.quiet_open {
    hkeeps with
    usable := huse
    ended := fun hx => nomatch hx
    wv := rfl
    began := rfl
    rv := rfl
    readOnly := h.readOnly t
    replays := fun hx => by rcases hx with hx | hx <;> cases hx }

/-! ## A commit -/

/-- The writes after a commit of `t`. -/
theorem wrote_committed (hnew : x.Updated) {a : Addr} {z : V} :
    (sessionWrites (w.called t region x)).wrote u a z ↔
      u = t ∧ x.txn.writeSet.lookup a = some z ∨ u ≠ t ∧ (sessionWrites w).wrote u a z := by
  unfold sessionWrites
  by_cases hut : u = t
  · subst hut
    simp [hnew]
  · simp [hut]

/-- A commit changes no version of another transaction. -/
theorem version_committed (hut : u ≠ t) :
    (sessionWrites (w.called t region x)).version u = (sessionWrites w).version u := by
  simp [sessionWrites, hut]

/-- A commit above version `r` does not change what a reader of version `r` sees. -/
theorem readsAt_committed [Zero V] {r : ℕ} {a : Addr} {y : V} (hold : ¬ (w.session t).Updated)
    (hnew : x.Updated) (hlt : r < x.wv.toNat)
    (h : (sessionWrites (w.called t region x)).ReadsAt 0 r a y) :
    (sessionWrites w).ReadsAt 0 r a y := by
  -- `t` is not seen by the reader: it had no writes before, and has a version above `r` now
  refine h.congr (fun u z => ?_) (fun u z hw hle => ?_)
  · rw [wrote_committed hnew]
    by_cases hut : u = t
    · subst hut
      apply iff_of_false (fun hw => hold hw.1.1)
      intro hw
      have hle : x.wv.toNat ≤ r := by simpa [sessionWrites] using hw.2
      omega
    · rw [version_committed hut]
      simp [hut]
  · have hut : u ≠ t := by
      rintro rfl
      have hle : x.wv.toNat ≤ r := by simpa [sessionWrites] using hle
      omega
    exact (version_committed hut).symm

/-- An update transaction is committed: what `tm_end` has found, and what it leaves. -/
structure Commits (S : Setup V) (w : World V) (t : Tid) (region : Region V) (x : Session V) :
    Prop where
  usable : w.Usable t
  update : (w.session t).txn.isRo = false
  valid : (w.session t).txn.rv = w.region.shared.gvc ∨
    ReadSetValid S w.region.shared.locks (w.session t).txn
  clock : (w.region.shared.gvc + 1).toNat < 2 ^ 63
  shared : region.shared = {
    gvc := w.region.shared.gvc + 1
    locks := published S (w.region.shared.gvc + 1) w.region.shared.locks (w.session t).txn
    mem := overlay (w.session t).txn.writeSet w.region.shared.mem }
  session : x = { w.session t with
    status := .committed, wv := w.region.shared.gvc + 1, ended := w.time }

namespace Commits

/-- The transaction was not committed before. -/
theorem not_updated (hc : Commits S w t region x) : ¬ (w.session t).Updated := by
  rintro ⟨hcommitted, -⟩
  rw [hc.usable.1] at hcommitted
  cases hcommitted

/-- It has begun. -/
theorem begun (hc : Commits S w t region x) : (w.session t).Begun := by
  rw [Session.Begun, hc.usable.1]
  rintro ⟨⟩

/-- It is committed now. -/
theorem updated (hc : Commits S w t region x) : x.Updated := by
  rw [hc.session]
  exact ⟨rfl, hc.update⟩

/-- It keeps its sets. -/
theorem txn (hc : Commits S w t region x) : x.txn = (w.session t).txn := by rw [hc.session]

/-- It began when it did. -/
theorem began (hc : Commits S w t region x) : x.began = (w.session t).began := by rw [hc.session]

variable [Zero V]

/-- The clock ticks. -/
theorem gvc (h : Serial S w) (hc : Commits S w t region x) :
    region.shared.gvc.toNat = w.region.shared.gvc.toNat + 1 := by
  rw [hc.shared]
  exact gvc_succ h.clock

/-- The write version is the new clock. -/
theorem wv (h : Serial S w) (hc : Commits S w t region x) :
    x.wv.toNat = w.region.shared.gvc.toNat + 1 := by
  rw [← hc.gvc h, hc.session, hc.shared]

/-- The locks of the write set have the new version, and the others keep theirs. -/
theorem versionOf_locks (h : Serial S w) (hc : Commits S w t region x) (l : LockId) :
    versionOf (region.shared.locks l) = if l ∈ (w.session t).txn.lockSet S then
      w.region.shared.gvc.toNat + 1 else versionOf (w.region.shared.locks l) := by
  have hgvc := hc.gvc h
  rw [hc.shared] at hgvc ⊢
  dsimp only at hgvc ⊢
  unfold published
  split
  next => rw [versionOf_setVersion hc.clock, hgvc]
  next => rfl

/-- The locks are free. -/
theorem isLocked_locks (h : Serial S w) (hc : Commits S w t region x) (l : LockId) :
    isLocked (region.shared.locks l) = false := by
  rw [hc.shared]
  dsimp only
  unfold published
  split
  next => exact isLocked_setVersion _
  next => exact h.free l

/-- The snapshots of the others are below the new version. -/
theorem agrees (h : Serial S w) (hc : Commits S w t region x) {y : Session V} {m : Addr → V}
    (hle : y.txn.rv.toNat ≤ w.region.shared.gvc.toNat)
    (hagree : Agrees (w.called t region x) y m) : Agrees w y m := by
  intro a ha
  apply readsAt_committed hc.not_updated hc.updated ?_ (hagree a ha)
  rw [hc.wv h]
  exact Nat.lt_succ_of_le hle

/-- Write versions are up to the new clock. -/
theorem wv_le (h : Serial S w) (hc : Commits S w t region x)
    (hu : ((w.called t region x).session u).Updated) :
    ((w.called t region x).session u).wv.toNat ≤ w.region.shared.gvc.toNat + 1 := by
  by_cases hut : u = t
  · rw [hut, World.called_session_self, hc.wv h]
  · rw [World.called_session_of_ne hut] at hu ⊢
    exact (h.wv_le u hu).trans (Nat.le_succ _)

/-- No other transaction has the new version. -/
theorem wv_inj {v : Tid} (h : Serial S w) (hc : Commits S w t region x)
    (hu : ((w.called t region x).session u).Updated)
    (hv : ((w.called t region x).session v).Updated)
    (heq : ((w.called t region x).session u).wv.toNat =
      ((w.called t region x).session v).wv.toNat) : u = v := by
  have hwv := hc.wv h
  -- the new version is above all others
  by_cases hut : u = t <;> by_cases hvt : v = t
  · rw [hut, hvt]
  · rw [World.called_session_of_ne hvt] at hv heq
    rw [hut, World.called_session_self, hwv] at heq
    have := h.wv_le v hv
    omega
  · rw [World.called_session_of_ne hut] at hu heq
    rw [hvt, World.called_session_self, hwv] at heq
    have := h.wv_le u hu
    omega
  · rw [World.called_session_of_ne hut] at hu heq
    rw [World.called_session_of_ne hvt] at hv heq
    exact h.wv_inj u v hu hv heq

/-- The locks cover the words that are written. -/
theorem covered {a : Addr} (h : Serial S w) (hc : Commits S w t region x)
    (hu : ((w.called t region x).session u).Updated)
    (ha : a ∈ ((w.called t region x).session u).txn.writeSet) :
    ((w.called t region x).session u).wv.toNat ≤ versionOf (region.shared.locks (S.lockOf a)) := by
  rw [hc.versionOf_locks h]
  by_cases hut : u = t
  · rw [hut, World.called_session_self, hc.txn] at ha
    rw [hut, World.called_session_self, hc.wv h, if_pos (Transaction.mem_lockSet.2 ⟨a, ha, rfl⟩)]
  · rw [World.called_session_of_ne hut] at hu ha ⊢
    have hle := h.wv_le u hu
    -- the version of a lock only grows
    have hcovered := h.covered u a hu ha
    split <;> omega

/-- The words written are the latest ones, the others are as before. -/
theorem memory (h : Serial S w) (hc : Commits S w t region x) (a : Addr) :
    (sessionWrites (w.called t region x)).Latest 0 a (region.shared.mem a) := by
  rw [hc.shared]
  show (sessionWrites _).Latest 0 a (overlay (w.session t).txn.writeSet w.region.shared.mem a)
  unfold overlay
  -- the write set decides whether `t` or an earlier transaction wrote last
  cases hlookup : (w.session t).txn.writeSet.lookup a with
  | some v =>
    rw [Option.getD_some]
    have hwrote : (sessionWrites (w.called t region x)).wrote t a v :=
      (wrote_committed hc.updated).2 (.inl ⟨rfl, by rw [hc.txn, hlookup]⟩)
    refine .write hwrote fun u z hw => ?_
    show ((w.called t region x).session u).wv.toNat ≤ ((w.called t region x).session t).wv.toNat
    rw [World.called_session_self, hc.wv h]
    exact hc.wv_le h hw.1
  -- `t` did not write to the address
  | none =>
    rw [Option.getD_none]
    have hnone : x.txn.writeSet.lookup a = none := by rw [hc.txn, hlookup]
    refine (h.memory a).congr (fun u z => ?_) (fun u z hw => ?_)
    · rw [wrote_committed hc.updated, hnone]
      constructor
      · rintro (⟨-, hsome⟩ | ⟨-, hw⟩)
        · cases hsome
        · exact hw
      · intro hw
        refine .inr ⟨?_, hw⟩
        rintro rfl
        exact hc.not_updated hw.1
    · apply version_committed
      rintro rfl
      exact hc.not_updated hw.1

/-- The committed transaction replays as it did when it was open. -/
theorem replays {m : Addr → V} (h : Serial S w) (hc : Commits S w t region x)
    (halive : ((w.called t region x).session u).Alive)
    (hagree : Agrees (w.called t region x) ((w.called t region x).session u) m) :
    Replays ((w.called t region x).session u).ops m
      (overlay ((w.called t region x).session u).txn.writeSet m) := by
  by_cases hut : u = t
  · subst hut
    rw [World.called_session_self] at hagree ⊢
    have hops : x.ops = (w.session u).ops := by rw [hc.session]
    have hrv : x.txn.rv.toNat ≤ w.region.shared.gvc.toNat := by
      rw [hc.txn]
      exact h.rv_le u
    have hold := hc.agrees h hrv hagree
    rw [hops, hc.txn]
    apply h.replays u (.inl hc.usable.1) m
    rwa [Agrees, hc.txn] at hold
  · rw [World.called_session_of_ne hut] at halive hagree ⊢
    exact h.replays u halive m (hc.agrees h (h.rv_le u) hagree)

/-- The validation of `tm_end` has checked what the transaction has read. -/
theorem validated {a : Addr} {v : Tid} {z : V} (h : Serial S w) (hc : Commits S w t region x)
    (hu : ((w.called t region x).session u).Updated)
    (ha : a ∈ ((w.called t region x).session u).txn.readSet)
    (hw : (sessionWrites (w.called t region x)).wrote v a z)
    (hlt : ((w.called t region x).session v).wv.toNat <
      ((w.called t region x).session u).wv.toNat) :
    ((w.called t region x).session v).wv.toNat ≤
      ((w.called t region x).session u).txn.rv.toNat := by
  by_cases hvt : v = t
  · -- nobody has a version above the new one
    have hle := hc.wv_le h hu
    rw [hvt, World.called_session_self, hc.wv h] at hlt
    omega
  · have hw' : (sessionWrites w).wrote v a z :=
      (((wrote_committed hc.updated).1 hw).resolve_left fun hvt' => hvt hvt'.1).2
    rw [World.called_session_of_ne hvt] at hlt ⊢
    -- only the reads of `t` itself are new among the committed ones
    by_cases hut : u = t
    · rw [hut, World.called_session_self, hc.txn] at ha
      rw [hut, World.called_session_self, hc.txn]
      rcases hc.valid with hrv | hreadable
      · -- nothing was committed since the transaction began
        rw [hrv]
        exact h.wv_le v hw'.1
      · -- the version of the lock covers all writes to the address
        have hread : versionOf (w.region.shared.locks (S.lockOf a)) ≤
            (w.session t).txn.rv.toNat := (hreadable a ha).2
        exact (h.covered v a hw'.1 (mem_iff_lookup.2 ⟨z, hw'.2⟩)).trans hread
    · rw [World.called_session_of_ne hut] at hu ha hlt ⊢
      exact h.validated u hu a ha v z hw' hlt

/-- What ends now has no later transaction yet. -/
theorem realTime {v : Tid} (h : Serial S w) (hc : Commits S w t region x)
    (hu : ((w.called t region x).session u).status = .committed)
    (hv : ((w.called t region x).session v).Begun)
    (hlt : ((w.called t region x).session u).ended < ((w.called t region x).session v).began) :
    ((w.called t region x).session u).txn.rv.toNat ≤
        ((w.called t region x).session v).txn.rv.toNat ∧
      (((w.called t region x).session u).txn.isRo = false →
        ((w.called t region x).session u).wv.toNat ≤
          ((w.called t region x).session v).txn.rv.toNat) := by
  have hbegan : ((w.called t region x).session v).began = (w.session v).began ∧
      ((w.called t region x).session v).txn = (w.session v).txn ∧ (w.session v).Begun := by
    by_cases hvt : v = t
    · subst hvt
      rw [World.called_session_self]
      exact ⟨hc.began, hc.txn, hc.begun⟩
    · rw [World.called_session_of_ne hvt] at hv ⊢
      exact ⟨rfl, rfl, hv⟩
  rw [hbegan.1] at hlt
  rw [hbegan.2.1]
  by_cases hut : u = t
  · -- the transaction ends now, after all others have begun
    have hended : x.ended = w.time := by rw [hc.session]
    have := h.began_lt v hbegan.2.2
    rw [hut, World.called_session_self, hended] at hlt
    omega
  · rw [World.called_session_of_ne hut] at hu hlt ⊢
    exact h.realTime u v hu hbegan.2.2 hlt

end Commits

/-- The invariant is kept by the commit of an update transaction. -/
theorem Serial.commit [Zero V] (h : Serial S w) (hc : Commits S w t region x) :
    Serial S (w.called t region x) where
  free := hc.isLocked_locks h
  clock := by
    rw [World.called_region, hc.shared]
    exact hc.clock
  version_le l := by
    rw [World.called_region, hc.versionOf_locks h, hc.gvc h]
    have := h.version_le l
    split <;> omega
  rv_le u := by
    rw [World.called_region, hc.gvc h]
    apply World.forall_called (P := fun _ y => y.txn.rv.toNat ≤ w.region.shared.gvc.toNat + 1)
    · rw [hc.txn]
      exact (h.rv_le t).trans (Nat.le_succ _)
    · exact fun u _ => (h.rv_le u).trans (Nat.le_succ _)
  wv_le u hu := by
    rw [World.called_region, hc.gvc h]
    exact hc.wv_le h hu
  rv_lt u hu := by
    by_cases hut : u = t
    · rw [hut, World.called_session_self, hc.txn, hc.wv h]
      exact Nat.lt_succ_of_le (h.rv_le t)
    · rw [World.called_session_of_ne hut] at hu ⊢
      exact h.rv_lt u hu
  wv_inj u v hu hv heq := hc.wv_inj h hu hv heq
  covered u a hu ha := hc.covered h hu ha
  memory a := hc.memory h a
  readOnly := World.forall_called (P := fun _ y => y.txn.isRo = true → y.txn.writeSet = ∅)
    (by rw [hc.txn]; exact h.readOnly t) fun u _ => h.readOnly u
  replays u halive m hagree := hc.replays h halive hagree
  validated u hu a ha v z hw hlt := hc.validated h hu ha hw hlt
  began_lt := World.forall_called (P := fun _ y => y.Begun → y.began < w.time + 1)
    (fun _ => by rw [hc.began]; exact (h.began_lt t hc.begun).trans (Nat.lt_succ_self _))
    (fun u _ hbegun => (h.began_lt u hbegun).trans (Nat.lt_succ_self _))
  realTime u v hu hv hlt := hc.realTime h hu hv hlt

end TransactionalMemory
