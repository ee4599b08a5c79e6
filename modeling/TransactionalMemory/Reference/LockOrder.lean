import TransactionalMemory.Foundations.Replay
import TransactionalMemory.Reference.Locked

/-!
# The lock orders the transactions

Any interleaving of transactions of the reference implementation has the effect of running them one
after another, in the order in which they began (`lockSerializes`): every call gets the reply that
it has in this serial run, although its `memcpy` may be interrupted by other transactions, and the
memory is the one the serial run ends with.

`Orderly` is the invariant. It says who holds the lock, that nobody has begun after an open
read-write transaction, and that only reads were made after the begin of an open read-only one.
-/

namespace TransactionalMemory.Reference

variable {junk : Addr → Byte} {r₀ r : Region} {s s' : LockedState} {t u : Tid} {isRo : Bool}
  {c : Access}

/-- The region, with a call as one operation. -/
def object (junk : Addr → Byte) : SequentialObject Region Access Access.Reply :=
  ⟨fun r c => c.perform junk r⟩

/-- The call is a `tm_read`. -/
def Access.IsRead : Access → Prop
  | .read _ _ => True
  | _ => False

/-- A read leaves the region alone. -/
theorem Access.IsRead.observer (h : c.IsRead) (junk : Addr → Byte) :
    (object junk).Observer c := by
  cases c with
  | read source size => exact fun _ => rfl
  | _ => exact h.elim

namespace LockedState

/-- The transaction is open. -/
def Open (s : LockedState) (t : Tid) : Prop := ∃ handle activity, s.tx t = .running handle activity

/-- The transaction is open and read-write. -/
def Writer (s : LockedState) (t : Tid) : Prop := ∃ activity, s.tx t = .running .readWrite activity

/-- The calls of all transactions, one transaction after another. -/
def serialLog (s : LockedState) : List (Access × Access.Reply) := s.begun.flatMap s.log

end LockedState

/-- How far a `memcpy` has come: bytes that were read are those of the region, and the region has
the bytes that were written. -/
def Activity.Copied (r r' : Region) : Activity → Prop
  | .idle => r' = r
  | .reading source size copied =>
    r' = r ∧ copied.length ≤ size ∧ copied = tmRead r source copied.length
  | .writing target data copied => copied ≤ data.length ∧ r' = tmWrite r target (data.take copied)

/-- What holds of every reachable state. -/
structure Orderly (junk : Addr → Byte) (r₀ : Region) (s : LockedState) : Prop where
  reader : ∀ t, t ∈ s.lock.readers ↔ ∃ activity, s.tx t = .running .readOnly activity
  writer : ∀ t, s.lock.writer = some t ↔ s.Writer t
  exclusive : s.lock.writer = none ∨ s.lock.readers = ∅
  nodup : s.begun.Nodup
  born : ∀ t, t ∈ s.begun ↔ s.tx t ≠ .unborn
  unborn : ∀ t, s.tx t = .unborn → s.log t = []
  last : ∀ t, s.Writer t → ∃ l, s.begun = l ++ [t]
  observed : ∀ t ∈ s.lock.readers, ∀ l l', s.begun = l ++ t :: l' →
    ∀ u ∈ l', ∀ e ∈ s.log u, e.1.IsRead
  readOnly : ∀ t target data copied, s.tx t ≠ .running .readOnly (.writing target data copied)
  serial : ∃ r, (object junk).Replays r₀ s.serialLog r ∧
    (∀ t handle activity, s.tx t = .running handle activity → activity.Copied r s.region) ∧
    ((∀ t, ¬ s.Writer t) → s.region = r)

namespace Orderly

/-- If nobody holds the lock for writing, there is no open read-write transaction. -/
theorem not_writer_of_none (h : Orderly junk r₀ s) (hnone : s.lock.writer = none) (t : Tid) :
    ¬ s.Writer t := by
  intro ht
  rw [← h.writer, hnone] at ht
  cases ht

/-- An open read-write transaction is open alone. -/
theorem alone (h : Orderly junk r₀ s) (ht : s.Writer t) (hu : s.Open u) : u = t := by
  have hlock := (h.writer t).mpr ht
  obtain ⟨handle, activity, hu⟩ := hu
  cases handle with
  | readWrite =>
    have hlock' := (h.writer u).mpr ⟨activity, hu⟩
    exact Option.some.inj (hlock'.symm.trans hlock)
  | readOnly =>
    -- the lock is not held in both ways
    have hreader := (h.reader u).mpr ⟨activity, hu⟩
    obtain hnone | hempty := h.exclusive
    · cases hnone.symm.trans hlock
    · rw [hempty] at hreader
      cases hreader

/-! ## A transaction begins -/

/-- A transaction that begins has an empty log. -/
theorem serialLog_begin (h : Orderly junk r₀ s) (ht : s.tx t = .unborn) (lock : SharedLock)
    (x : TxState) :
    ({ s with lock, begun := s.begun ++ [t] }.goOn t x).serialLog = s.serialLog := by
  simp [LockedState.serialLog, h.unborn t ht]

/-- A transaction begins once. -/
theorem begun_begin (h : Orderly junk r₀ s) (ht : s.tx t = .unborn) {x : TxState}
    (hx : x ≠ .unborn) : (s.begun ++ [t]).Nodup ∧
      ∀ u, u ∈ s.begun ++ [t] ↔ Function.update s.tx t x u ≠ .unborn := by
  have hnot : t ∉ s.begun := fun hmem => (h.born t).mp hmem ht
  refine ⟨List.nodup_append.mpr ⟨h.nodup, List.nodup_singleton t, ?_⟩, fun u => ?_⟩
  · rintro u hu v hv rfl
    rw [List.mem_singleton.mp hv] at hu
    exact hnot hu
  · by_cases hut : u = t
    · subst hut
      simp [hx]
    · simp [hut, h.born u]

/-- `tm_begin` of a read-only transaction. -/
theorem beginReadOnly (h : Orderly junk r₀ s) (ht : s.tx t = .unborn) {lock : SharedLock}
    (hlock : s.lock.acquireShared t = some lock) :
    Orderly junk r₀ ({ s with lock, begun := s.begun ++ [t] }.goOn t
      (.running .readOnly .idle)) := by
  unfold SharedLock.acquireShared at hlock
  split at hlock
  case isFalse => cases hlock
  case isTrue hnone =>
  obtain rfl := Option.some.inj hlock
  have hold := h.not_writer_of_none hnone
  have hwriter : ∀ u, ¬ ({ s with
      lock := { s.lock with readers := insert t s.lock.readers }, begun := s.begun ++ [t] }.goOn t
      (.running .readOnly .idle)).Writer u := by
    rintro u ⟨activity, hu⟩
    by_cases hut : u = t
    · subst hut
      simp at hu
    · exact hold u ⟨activity, by simpa [hut] using hu⟩
  obtain ⟨hnodup, hborn⟩ := h.begun_begin ht (x := .running .readOnly .idle) (by simp)
  obtain ⟨r, hreplays, hcopied, hregion⟩ := h.serial
  exact {
    reader := fun u => by
      by_cases hut : u = t
      · subst hut
        simp
      · simp [hut, h.reader u]
    writer := fun u => iff_of_false (by simp [hnone]) (hwriter u)
    exclusive := .inl hnone
    nodup := hnodup
    born := hborn
    unborn := fun u hu => by
      by_cases hut : u = t
      · subst hut
        exact h.unborn u ht
      · exact h.unborn u (by simpa [hut] using hu)
    last := fun u hu => absurd hu (hwriter u)
    observed := fun u hu l l' heq v hv e he => by
      -- the new transaction has not read anything yet
      by_cases hvt : v = t
      · subst hvt
        simp [h.unborn v ht] at he
      obtain rfl | ⟨l'', w, rfl⟩ := List.eq_nil_or_concat' l'
      · cases hv
      have heq' : s.begun ++ [t] = (l ++ u :: l'') ++ [w] := by simpa using heq
      obtain ⟨hbegun, hw⟩ := List.append_inj' heq' rfl
      obtain rfl : t = w := by simpa using hw
      have hut : u ≠ t := by
        rintro rfl
        exact (h.born u).mp (by simp [hbegun]) ht
      have hu' : u ∈ s.lock.readers := by simpa [hut] using hu
      exact h.observed u hu' l l'' hbegun v (by simpa [hvt] using hv) e he
    readOnly := fun u target data copied hu => by
      by_cases hut : u = t
      · subst hut
        simp at hu
      · exact h.readOnly u target data copied (by simpa [hut] using hu)
    serial := by
      refine ⟨r, by rwa [h.serialLog_begin ht], fun u handle activity hu => ?_,
        fun _ => hregion hold⟩
      by_cases hut : u = t
      · subst hut
        obtain ⟨-, rfl⟩ : .readOnly = handle ∧ .idle = activity := by simpa using hu
        exact hregion hold
      · exact hcopied u handle activity (by simpa [hut] using hu) }

/-- `tm_begin` of a read-write transaction. -/
theorem beginReadWrite (h : Orderly junk r₀ s) (ht : s.tx t = .unborn) {lock : SharedLock}
    (hlock : s.lock.acquire t = some lock) :
    Orderly junk r₀ ({ s with lock, begun := s.begun ++ [t] }.goOn t
      (.running .readWrite .idle)) := by
  unfold SharedLock.acquire at hlock
  split at hlock
  case isFalse => cases hlock
  case isTrue hfree =>
  obtain ⟨hnone, hempty⟩ := hfree
  obtain rfl := Option.some.inj hlock
  have hold := h.not_writer_of_none hnone
  -- no other transaction is open
  have hclosed : ∀ u, ¬ s.Open u := by
    rintro u ⟨handle, activity, hu⟩
    cases handle with
    | readWrite => exact hold u ⟨activity, hu⟩
    | readOnly =>
      have hreader := (h.reader u).mpr ⟨activity, hu⟩
      rw [hempty] at hreader
      cases hreader
  obtain ⟨hnodup, hborn⟩ := h.begun_begin ht (x := .running .readWrite .idle) (by simp)
  obtain ⟨r, hreplays, hcopied, hregion⟩ := h.serial
  exact {
    reader := fun u => by
      refine iff_of_false (by simp [hempty]) ?_
      rintro ⟨activity, hu⟩
      by_cases hut : u = t
      · subst hut
        simp at hu
      · exact hclosed u ⟨_, activity, by simpa [hut] using hu⟩
    writer := fun u => by
      by_cases hut : u = t
      · subst hut
        simp [LockedState.Writer]
      · refine iff_of_false (by simpa using Ne.symm hut) ?_
        rintro ⟨activity, hu⟩
        exact hclosed u ⟨_, activity, by simpa [hut] using hu⟩
    exclusive := .inr hempty
    nodup := hnodup
    born := hborn
    unborn := fun u hu => by
      by_cases hut : u = t
      · subst hut
        exact h.unborn u ht
      · exact h.unborn u (by simpa [hut] using hu)
    last := fun u hu => by
      by_cases hut : u = t
      · subst hut
        exact ⟨s.begun, rfl⟩
      · obtain ⟨activity, hu⟩ := hu
        exact absurd ⟨_, activity, by simpa [hut] using hu⟩ (hclosed u)
    observed := fun u hu => by
      simp [hempty] at hu
    readOnly := fun u target data copied hu => by
      by_cases hut : u = t
      · subst hut
        simp at hu
      · exact hclosed u ⟨_, _, by simpa [hut] using hu⟩
    serial := by
      refine ⟨r, by rwa [h.serialLog_begin ht], fun u handle activity hu => ?_,
        fun _ => hregion hold⟩
      by_cases hut : u = t
      · subst hut
        obtain ⟨-, rfl⟩ : .readWrite = handle ∧ .idle = activity := by
          simpa using hu
        exact hregion hold
      · exact absurd ⟨handle, activity, by simpa [hut] using hu⟩ (hclosed u) }

/-! ## A transaction goes on -/

section Keep

variable {handle : TxHandle} {activity activity' : Activity}

/-- A step within a transaction does not change who writes. -/
theorem writer_keep (ht : s.tx t = .running handle activity)
    (htx : s'.tx = Function.update s.tx t (.running handle activity')) (u : Tid) :
    s'.Writer u ↔ s.Writer u := by
  by_cases hut : u = t
  · subst hut
    simp [LockedState.Writer, htx, ht]
  · simp [LockedState.Writer, htx, hut]

/-- What does not depend on the region, after a step of an open transaction that stays open. -/
theorem keep (h : Orderly junk r₀ s) (ht : s.tx t = .running handle activity)
    (htx : s'.tx = Function.update s.tx t (.running handle activity'))
    (hlock : s'.lock = s.lock) (hbegun : s'.begun = s.begun)
    (hlog : ∀ u, u ≠ t → s'.log u = s.log u)
    (hread : handle = .readOnly → ∀ e ∈ s'.log t, e ∈ s.log t ∨ e.1.IsRead)
    (hcopy : handle = .readOnly → ∀ target data copied, activity' ≠ .writing target data copied)
    (hserial : ∃ r, (object junk).Replays r₀ s'.serialLog r ∧
      (∀ t handle activity, s'.tx t = .running handle activity → activity.Copied r s'.region) ∧
      ((∀ t, ¬ s.Writer t) → s'.region = r)) : Orderly junk r₀ s' := by
  have hwriter := writer_keep ht htx
  have hopen : ∀ u, s'.tx u = .unborn ↔ s.tx u = .unborn := by
    intro u
    by_cases hut : u = t
    · subst hut
      simp [htx, ht]
    · simp [htx, hut]
  exact {
    reader := fun u => by
      rw [hlock, h.reader u]
      by_cases hut : u = t
      · subst hut
        simp [htx, ht]
      · simp [htx, hut]
    writer := fun u => by
      rw [hlock, h.writer u, hwriter u]
    exclusive := by
      rw [hlock]
      exact h.exclusive
    nodup := by
      rw [hbegun]
      exact h.nodup
    born := fun u => by
      rw [hbegun, h.born u, ne_eq, ne_eq, hopen u]
    unborn := fun u hu => by
      have hu' := (hopen u).mp hu
      have hut : u ≠ t := by
        rintro rfl
        cases ht.symm.trans hu'
      rw [hlog u hut]
      exact h.unborn u hu'
    last := fun u hu => by
      rw [hbegun]
      exact h.last u ((hwriter u).mp hu)
    observed := fun u hu l l' heq v hv e he => by
      rw [hlock] at hu
      rw [hbegun] at heq
      have hold := h.observed u hu l l' heq v hv
      by_cases hvt : v = t
      · subst hvt
        cases handle with
        | readOnly => exact (hread rfl e he).elim (hold e) id
        | readWrite =>
          -- nobody reads while a read-write transaction is open
          obtain ⟨activity, hreader⟩ := (h.reader u).mp hu
          obtain rfl := h.alone ⟨_, ht⟩ ⟨_, _, hreader⟩
          cases ht.symm.trans hreader
      · rw [hlog v hvt] at he
        exact hold e he
    readOnly := fun u target data copied hu => by
      by_cases hut : u = t
      · subst hut
        obtain ⟨rfl, hactivity⟩ : handle = .readOnly ∧ activity' = .writing target data copied := by
          simpa [htx] using hu
        exact hcopy rfl target data copied hactivity
      · exact h.readOnly u target data copied (by simpa [htx, hut] using hu)
    serial := by
      simpa only [hwriter] using hserial }

/-- A step of a `memcpy` that leaves the region alone. -/
theorem goOn (h : Orderly junk r₀ s) (ht : s.tx t = .running handle activity)
    (hcopy : handle = .readOnly → ∀ target data copied, activity' ≠ .writing target data copied)
    (hcopied : ∀ r, activity.Copied r s.region → activity'.Copied r s.region) :
    Orderly junk r₀ (s.goOn t (.running handle activity')) := by
  obtain ⟨r, hreplays, hold, hregion⟩ := h.serial
  refine h.keep ht rfl rfl rfl (fun _ _ => rfl) (fun _ e he => .inl he) hcopy
    ⟨r, hreplays, fun u handle' activity'' hu => ?_, hregion⟩
  by_cases hut : u = t
  · subst hut
    obtain ⟨-, rfl⟩ : handle = handle' ∧ activity' = activity'' := by simpa using hu
    exact hcopied r (hold u handle activity ht)
  · exact hold u handle' activity'' (by simpa [hut] using hu)

/-- What an open read-write transaction sees of the others. -/
theorem copied_alone (h : Orderly junk r₀ s) (ht : s.tx t = .running .readWrite activity)
    (htx : s'.tx = Function.update s.tx t (.running .readWrite activity'))
    (hcopied : activity'.Copied r s'.region) :
    ∀ u handle activity, s'.tx u = .running handle activity → activity.Copied r s'.region := by
  intro u handle activity'' hu
  have hut : u = t := by
    by_contra hut
    exact hut (h.alone ⟨_, ht⟩ ⟨handle, activity'', by simpa [htx, hut] using hu⟩)
  subst hut
  obtain ⟨-, rfl⟩ : .readWrite = handle ∧ activity' = activity'' := by simpa [htx] using hu
  exact hcopied

/-- A step of a `memcpy` into the region. -/
theorem goOn_write (h : Orderly junk r₀ s) (ht : s.tx t = .running .readWrite activity)
    {region : Region}
    (hcopied : ∀ r, activity.Copied r s.region → activity'.Copied r region) :
    Orderly junk r₀ ({ s with region }.goOn t (.running .readWrite activity')) := by
  obtain ⟨r, hreplays, hold, -⟩ := h.serial
  exact h.keep ht rfl rfl rfl (fun _ _ => rfl) (fun hro => by cases hro) (fun hro => by cases hro)
    ⟨r, hreplays, h.copied_alone ht rfl (hcopied r (hold t _ _ ht)),
      fun hnone => absurd ⟨_, ht⟩ (hnone t)⟩

/-- A call that returns stands behind the other calls of its transaction. -/
theorem serialLog_reply (h : Orderly junk r₀ s) {l l' : List Tid} (hbegun : s.begun = l ++ t :: l')
    (handle : TxHandle) (c : Access) (reply : Access.Reply) :
    s.serialLog = (l.flatMap s.log ++ s.log t) ++ l'.flatMap s.log ∧
    (s.reply t handle c reply).serialLog =
      (l.flatMap s.log ++ s.log t) ++ (c, reply) :: l'.flatMap s.log := by
  have hnodup := h.nodup
  rw [hbegun, List.nodup_middle, List.nodup_cons, List.mem_append, not_or] at hnodup
  obtain ⟨⟨hl, hl'⟩, -⟩ := hnodup
  have hsame : ∀ k : List Tid, t ∉ k →
      k.flatMap (s.reply t handle c reply).log = k.flatMap s.log := by
    intro k hk
    refine List.flatMap_congr fun u hu => LockedState.reply_log_of_ne ?_
    rintro rfl
    exact hk hu
  refine ⟨by simp [LockedState.serialLog, hbegun], ?_⟩
  rw [LockedState.serialLog, LockedState.reply_begun, hbegun, List.flatMap_append,
    List.flatMap_cons, hsame l hl, hsame l' hl', LockedState.reply_log_self]
  simp

/-- A call of a read-write transaction returns. -/
theorem reply_readWrite (h : Orderly junk r₀ s) (ht : s.tx t = .running .readWrite activity)
    {region : Region} {reply : Access.Reply}
    (hperform : ∀ r, activity.Copied r s.region → c.perform junk r = (region, reply)) :
    Orderly junk r₀ ({ s with region }.reply t .readWrite c reply) := by
  obtain ⟨r, hreplays, hold, -⟩ := h.serial
  have hperform := hperform r (hold t _ _ ht)
  refine h.keep ht rfl rfl rfl (fun u hut => by simp [hut]) (fun hro => by cases hro)
    (fun hro => by cases hro)
    ⟨region, ?_, h.copied_alone ht rfl rfl, fun hnone => absurd ⟨_, ht⟩ (hnone t)⟩
  -- no transaction has begun after it
  obtain ⟨l, hbegun⟩ := h.last t ⟨_, ht⟩
  obtain ⟨hold', hnew⟩ := h.serialLog_reply hbegun .readWrite c reply
  have hconcat := hreplays.concat c
  rw [hold'] at hconcat
  show (object junk).Replays r₀ (s.reply t .readWrite c reply).serialLog region
  rw [hnew]
  simpa [object, hperform] using hconcat

/-- A call of a read-only transaction returns. -/
theorem reply_readOnly (h : Orderly junk r₀ s) (ht : s.tx t = .running .readOnly activity)
    {reply : Access.Reply} (hc : c.IsRead)
    (hperform : ∀ r, activity.Copied r s.region → c.perform junk r = (s.region, reply)) :
    Orderly junk r₀ (s.reply t .readOnly c reply) := by
  obtain ⟨r, hreplays, hold, hregion⟩ := h.serial
  have hperform := hperform r (hold t _ _ ht)
  have hreader := (h.reader t).mpr ⟨activity, ht⟩
  have hnone : s.lock.writer = none := by
    refine h.exclusive.resolve_right fun hempty => ?_
    rw [hempty] at hreader
    cases hreader
  have hregion := hregion (h.not_writer_of_none hnone)
  refine h.keep ht rfl rfl rfl (fun u hut => by simp [hut]) (fun _ e he => ?_)
    (fun _ => by simp) ⟨r, ?_, fun u handle' activity' hu => ?_, fun _ => hregion⟩
  · rw [LockedState.reply_log_self, List.mem_append, List.mem_singleton] at he
    exact he.imp_right fun (heq : e = (c, reply)) => by rwa [heq]
  · -- only reads were made by the transactions that have begun after it
    obtain ⟨l, l', hbegun⟩ := List.append_of_mem ((h.born t).mpr (by simp [ht]))
    obtain ⟨hold', hnew⟩ := h.serialLog_reply hbegun .readOnly c reply
    rw [hold'] at hreplays
    have hobs : ∀ e ∈ l'.flatMap s.log, (object junk).Observer e.1 := by
      intro e he
      obtain ⟨u, hu, he⟩ := List.mem_flatMap.mp he
      exact (h.observed t hreader l l' hbegun u hu e he).observer junk
    have hinsert := hreplays.insert hobs (hc.observer junk)
    rw [hnew]
    simpa [object, hperform] using hinsert
  · by_cases hut : u = t
    · subst hut
      obtain ⟨-, rfl⟩ : .readOnly = handle' ∧ .idle = activity' := by simpa using hu
      exact hregion
    · exact hold u handle' activity' (by simpa [hut] using hu)

end Keep

/-! ## A transaction ends -/

/-- `tm_end`. -/
theorem endTx (h : Orderly junk r₀ s) {handle : TxHandle} (ht : s.tx t = .running handle .idle) :
    Orderly junk r₀ ({ s with lock := s.lock.unlock t }.goOn t .ended) := by
  obtain ⟨r, hreplays, hold, hregion⟩ := h.serial
  have hwriter : ∀ u, ({ s with lock := s.lock.unlock t }.goOn t .ended).Writer u ↔
      u ≠ t ∧ s.Writer u := by
    intro u
    by_cases hut : u = t
    · subst hut
      simp [LockedState.Writer]
    · simp [LockedState.Writer, hut]
  have hunlock : ∀ u, (s.lock.unlock t).writer = some u ↔ u ≠ t ∧ s.lock.writer = some u := by
    intro u
    unfold SharedLock.unlock
    dsimp only
    split
    next hheld =>
      rw [hheld]
      simp [eq_comm]
    next hheld =>
      refine ⟨fun hu => ⟨?_, hu⟩, And.right⟩
      rintro rfl
      exact hheld hu
  exact {
    reader := fun u => by
      by_cases hut : u = t
      · subst hut
        simp [SharedLock.unlock]
      · simp [SharedLock.unlock, hut, h.reader u]
    writer := fun u => by
      rw [hwriter, ← h.writer u]
      exact hunlock u
    exclusive := by
      obtain hnone | hempty := h.exclusive
      · exact .inl (by simp [SharedLock.unlock, hnone])
      · exact .inr (by simp [SharedLock.unlock, hempty])
    nodup := h.nodup
    born := fun u => by
      by_cases hut : u = t
      · subst hut
        simp [h.born u, ht]
      · simp [hut, h.born u]
    unborn := fun u hu => by
      by_cases hut : u = t
      · subst hut
        simp at hu
      · exact h.unborn u (by simpa [hut] using hu)
    last := fun u hu => h.last u ((hwriter u).mp hu).2
    observed := fun u hu l l' heq => h.observed u (Finset.mem_of_mem_erase hu) l l' heq
    readOnly := fun u target data copied hu => by
      by_cases hut : u = t
      · subst hut
        simp at hu
      · exact h.readOnly u target data copied (by simpa [hut] using hu)
    serial := by
      refine ⟨r, hreplays, fun u handle' activity' hu => ?_, fun hnone => ?_⟩
      · by_cases hut : u = t
        · subst hut
          simp at hu
        · exact hold u handle' activity' (by simpa [hut] using hu)
      · -- the region is that of the serial run if the transaction was the writer, too
        cases handle with
        | readWrite => exact hold t _ _ ht
        | readOnly =>
          refine hregion fun u hu => hnone u ((hwriter u).mpr ⟨?_, hu⟩)
          rintro rfl
          obtain ⟨activity, hu⟩ := hu
          cases ht.symm.trans hu }

/-! ## All steps -/

/-- A call of `tm_read`, `tm_write`, `tm_alloc` or `tm_free`. -/
theorem access (h : Orderly junk r₀ s) (hstep : s.access junk t c = some s') :
    Orderly junk r₀ s' := by
  unfold LockedState.access at hstep
  split at hstep
  case h_1 handle source size ht =>
    obtain rfl := Option.some.inj hstep
    refine h.goOn ht (by simp) fun r hr => ⟨hr, Nat.zero_le _, rfl⟩
  case h_2 target data ht =>
    obtain rfl := Option.some.inj hstep
    refine h.goOn ht (by simp) fun r (hr : s.region = r) => ⟨Nat.zero_le _, ?_⟩
    simp [tmWrite, ByteMemory.store_nil, hr]
  case h_3 segment ht =>
    obtain rfl := Option.some.inj hstep
    exact h.reply_readWrite ht fun r (hr : s.region = r) => by rw [hr]; rfl
  case h_4 segment ht =>
    obtain rfl := Option.some.inj hstep
    exact h.reply_readWrite ht fun r (hr : s.region = r) => by rw [hr]; rfl
  case h_5 => cases hstep

/-- A step of `memcpy`. -/
theorem copy (h : Orderly junk r₀ s) (hstep : s.copy t = some s') : Orderly junk r₀ s' := by
  unfold LockedState.copy at hstep
  split at hstep
  case h_1 handle source size copied ht =>
    split at hstep
    next hlt =>
      obtain rfl := Option.some.inj hstep
      refine h.goOn ht (by simp) ?_
      rintro r ⟨hr, hle, hcopied⟩
      refine ⟨hr, by simp; omega, ?_⟩
      rw [List.length_append, List.length_singleton, tmRead, ByteMemory.slice_append, hr]
      exact congrArg (· ++ _) hcopied
    next hlt =>
      obtain rfl := Option.some.inj hstep
      have hperform : ∀ r, (Activity.reading source size copied).Copied r s.region →
          (Access.read source size).perform junk r = (s.region, .bytes copied) := by
        rintro r ⟨hr, hle, hcopied⟩
        have hsize : copied.length = size := by omega
        rw [hcopied, hsize, hr]
        rfl
      cases handle with
      | readOnly => exact h.reply_readOnly ht trivial hperform
      | readWrite => exact h.reply_readWrite ht hperform
  case h_2 handle target data copied ht =>
    have hhandle : handle = .readWrite := by
      cases handle with
      | readWrite => rfl
      | readOnly => exact absurd ht (h.readOnly t target data copied)
    subst hhandle
    split at hstep
    next byte hbyte =>
      obtain rfl := Option.some.inj hstep
      refine h.goOn_write ht ?_
      rintro r ⟨hle, hr⟩
      obtain ⟨hlt, -⟩ := List.getElem?_eq_some_iff.mp hbyte
      have hlength : (data.take copied).length = copied := by simp [hle]
      have hstore := ByteMemory.store_append r.mem target (data.take copied) [byte]
      rw [hlength] at hstore
      refine ⟨hlt, ?_⟩
      rw [hr, List.take_add_one, hbyte]
      simp [tmWrite, hstore]
    next hend =>
      obtain rfl := Option.some.inj hstep
      refine h.reply_readWrite ht ?_
      rintro r ⟨hle, hr⟩
      have hend := List.getElem?_eq_none_iff.mp hend
      rw [hr, List.take_of_length_le hend]
      rfl
  case h_3 => cases hstep

/-- The invariant is kept by every step. -/
theorem step {lab : LockedLabel} (h : Orderly junk r₀ s)
    (hstep : (lockedSystem junk r₀).step s lab = some s') : Orderly junk r₀ s' := by
  cases lab with
  | begin t isRo =>
    change s.tmBegin t isRo = some s' at hstep
    unfold LockedState.tmBegin at hstep
    split at hstep
    case h_1 ht =>
      split at hstep
      · obtain ⟨lock, hlock, rfl⟩ := Option.map_eq_some_iff.mp hstep
        exact h.beginReadOnly ht hlock
      · obtain ⟨lock, hlock, rfl⟩ := Option.map_eq_some_iff.mp hstep
        exact h.beginReadWrite ht hlock
    case h_2 => cases hstep
  | access t c => exact h.access hstep
  | copy t => exact h.copy hstep
  | endTx t =>
    change s.tmEnd t = some s' at hstep
    unfold LockedState.tmEnd at hstep
    split at hstep
    case h_1 handle ht =>
      obtain rfl := Option.some.inj hstep
      exact h.endTx ht
    case h_2 => cases hstep

/-- The invariant holds in every reachable state. -/
theorem of_reachable (h : (lockedSystem junk r₀).Reachable LabelledSystem.always s) :
    Orderly junk r₀ s := by
  refine h.invariant ?_ fun s lab s' _ ih hstep _ => ih.step hstep
  have hborn : ∀ t, ((lockedSystem junk r₀).init.tx t) = .unborn := fun _ => rfl
  have hnone : ∀ t, ¬ (lockedSystem junk r₀).init.Writer t := by
    rintro t ⟨activity, ht⟩
    cases (hborn t).symm.trans ht
  exact {
    reader := fun t => by
      simp [lockedSystem]
    writer := fun t => iff_of_false (by simp [lockedSystem]) (hnone t)
    exclusive := .inl rfl
    nodup := List.nodup_nil
    born := fun t => by
      simp [lockedSystem]
    unborn := fun _ _ => rfl
    last := fun t ht => absurd ht (hnone t)
    observed := fun t ht => by
      simp [lockedSystem] at ht
    readOnly := fun t target data copied => by simp [hborn]
    serial := by
      refine ⟨r₀, rfl, fun t handle activity ht => ?_, fun _ => rfl⟩
      cases (hborn t).symm.trans ht }

end Orderly

/-! ## Serial execution -/

/-- The transactions take effect one after another. -/
structure LockSerializes (junk : Addr → Byte) (r₀ : Region) (s : LockedState) : Prop where
  /-- While a read-write transaction is open, no other transaction is. -/
  alone : ∀ t u, s.Writer t → s.Open u → u = t
  /-- Every transaction that has begun stands once in the order. -/
  once : s.begun.Nodup ∧ ∀ t, t ∈ s.begun ↔ s.tx t ≠ .unborn
  /-- Run one after another, in the order in which they began, the transactions get the same
  replies. They leave the same region, except for the bytes that a `memcpy` has yet to write. -/
  serial : ∃ r, (object junk).Replays r₀ (s.begun.flatMap s.log) r ∧
    (s.region = r ∨ ∃ t target data copied, s.tx t = .running .readWrite
      (.writing target data copied) ∧ s.region = tmWrite r target (data.take copied))
  /-- A transaction waits in `tm_begin` only for open ones. -/
  waits : ∀ t isRo, s.tx t = .unborn → s.tmBegin t isRo = none → ∃ u, s.Open u
  /-- An open transaction does not wait. -/
  goes : ∀ t, s.Open t → (s.copy t).isSome ∨ (s.tmEnd t).isSome

/-- In any interleaving of calls and `memcpy` steps the lock serializes the transactions. -/
theorem lockSerializes (h : (lockedSystem junk r₀).Reachable LabelledSystem.always s) :
    LockSerializes junk r₀ s := by
  have horderly := Orderly.of_reachable h
  obtain ⟨r, hreplays, hcopied, hregion⟩ := horderly.serial
  refine ⟨fun t u => horderly.alone, ⟨horderly.nodup, horderly.born⟩, ⟨r, hreplays, ?_⟩,
    fun t isRo ht hwait => ?_, fun t ht => ?_⟩
  · by_cases hwriter : ∃ t, s.Writer t
    · obtain ⟨t, activity, ht⟩ := hwriter
      have hcopied := hcopied t _ _ ht
      cases activity with
      | idle => exact .inl hcopied
      | reading source size copied => exact .inl hcopied.1
      | writing target data copied => exact .inr ⟨t, target, data, copied, ht, hcopied.2⟩
    · exact .inl (hregion (not_exists.mp hwriter))
  · by_contra hclosed
    have hnone : s.lock.writer = none := by
      by_contra hsome
      obtain ⟨u, hu⟩ := Option.ne_none_iff_exists'.mp hsome
      obtain ⟨activity, hu⟩ := (horderly.writer u).mp hu
      exact hclosed ⟨u, _, activity, hu⟩
    have hempty : s.lock.readers = ∅ := by
      by_contra hreaders
      obtain ⟨u, hu⟩ := Finset.nonempty_iff_ne_empty.mpr hreaders
      obtain ⟨activity, hu⟩ := (horderly.reader u).mp hu
      exact hclosed ⟨u, _, activity, hu⟩
    cases isRo <;> simp [LockedState.tmBegin, ht, SharedLock.acquire, SharedLock.acquireShared,
      hnone, hempty] at hwait
  · obtain ⟨handle, activity, ht⟩ := ht
    cases activity with
    | idle => exact .inr (by simp [LockedState.tmEnd, ht])
    | reading source size copied =>
      refine .inl ?_
      simp only [LockedState.copy, ht]
      split <;> rfl
    | writing target data copied =>
      refine .inl ?_
      simp only [LockedState.copy, ht]
      split <;> rfl

/-- A transaction writes two bytes, and two read-only transactions copy them at the same time while
a third one has begun. -/
def overlappingReads : List LockedLabel :=
  [.begin 0 false, .access 0 (.write 8 [1, 2]), .copy 0, .copy 0, .copy 0, .endTx 0,
    .begin 1 true, .begin 2 true, .access 1 (.read 8 2), .access 2 (.read 9 1), .copy 1, .copy 2,
    .copy 2, .endTx 2, .begin 3 true, .copy 1, .copy 1, .access 3 (.read 8 1), .copy 3]

/-- A region of zeroes. -/
def zeroes : Region := tmCreate (fun _ => 0) ⟨8, 8⟩

theorem overlappingReads_isSome : ((lockedSystem (fun _ => 0) zeroes).exec (fun _ _ _ => true)
    (lockedSystem (fun _ => 0) zeroes).init overlappingReads).isSome := by decide

theorem lockSerializes_overlappingReads : LockSerializes (fun _ => 0) zeroes
    (((lockedSystem (fun _ => 0) zeroes).exec (fun _ _ _ => true)
      (lockedSystem (fun _ => 0) zeroes).init overlappingReads).get overlappingReads_isSome) :=
  lockSerializes (LabelledSystem.reachable_of_exec (fun _ _ _ _ => trivial) overlappingReads_isSome)

end TransactionalMemory.Reference
