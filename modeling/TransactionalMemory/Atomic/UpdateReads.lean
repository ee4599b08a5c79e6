import TransactionalMemory.Atomic.Validation

/-!
# Reads of update transactions

A split post-validation (`SplitsValidation`) lets `tm_read` accept a word that is newer than the
read version. An update transaction survives that only if it is refused later: the word was stored
by a transaction that had drawn its write version before, so the validation of `tm_end` finds a
version above the read version in the lock.

`Copies` is the invariant of collision-free runs, whatever falls between the two loads of a
post-validation: every accepted word belongs to the snapshot at the read version, or was stored
by a transaction with a write version above it and below the write version of the reader
(`Newer`). With `Validated` the second case is impossible for a transaction that has passed
validation, so what it has read belongs to the snapshot (`Copies.readsAt`).
-/

namespace TransactionalMemory

open VersionedWriteLock UnorderedMap Tx

variable {V : Type} {S : Setup V} {t u : Tid} {sh' : Shared V} {x x' : Tx V} {s : State V}
  {a : Addr} {v : V}

/-- The word `v` at `a` was stored by a transaction with a write version above the read version
of `x`, but below the write version of `x` if it has one. -/
def Newer (s : State V) (x : Tx V) (a : Addr) (v : V) : Prop :=
  ∃ u, (storedWrites s).wrote u a v ∧ x.txn.rv.toNat < (s.tx u).wv.toNat ∧
    (x.Stamped → (s.tx u).wv.toNat < x.wv.toNat)

/-- The word `v` at `a` is the one of the snapshot, which is settled there, or newer. -/
def SnapshotOrNewer [Zero V] (s : State V) (x : Tx V) (a : Addr) (v : V) : Prop :=
  Settled s x.txn.rv.toNat a ∧
    ((storedWrites s).ReadsAt 0 x.txn.rv.toNat a v ∨ Newer s x a v)

/-- What holds of a transaction in the middle of `tm_read`. -/
def ReadsLoosely [Zero V] (s : State V) (x : Tx V) : Prop :=
  match x.pc with
  | .unborn => x.seen = []
  | .readCopy a _ _ => Settled s x.txn.rv.toNat a
  | .readPostVersion a _ _ val => x.ReadsShared a → SnapshotOrNewer s x a val
  | .readPostLocked a _ _ val _ => x.ReadsShared a → SnapshotOrNewer s x a val
  | _ => True

/-- The invariant of collision-free runs. -/
structure Copies [Zero V] (S : Setup V) (s : State V) : Prop where
  validated : Validated S s
  reads : ∀ t, ReadsLoosely s (s.tx t)
  seen : ∀ t a v, (a, v) ∈ (s.tx t).seen → SnapshotOrNewer s (s.tx t) a v

section Moved

variable [Zero V] (h : Versions S s) (heff : Effect S s.shared (s.tx t) sh' x')

include heff

omit [Zero V] in
/-- A newer word stays newer. -/
theorem Newer.moved (hnew : Newer s x a v) : Newer (s.moved t sh' x') x a v := by
  obtain ⟨u, hw, hlt, hbelow⟩ := hnew
  obtain ⟨hw', hwv⟩ := wrote_moved heff hw
  exact ⟨u, hw', by rwa [hwv], by rwa [hwv]⟩

include h

/-- A word of the snapshot, or a newer one, stays so. -/
theorem SnapshotOrNewer.moved (hr : x.txn.rv.toNat ≤ s.shared.gvc.toNat)
    (hword : SnapshotOrNewer s x a v) : SnapshotOrNewer (s.moved t sh' x') x a v := by
  refine ⟨hword.1.moved h heff hr, ?_⟩
  rcases hword.2 with hread | hnew
  · exact .inl (hword.1.readsAt_moved h heff hr hread)
  · exact .inr (hnew.moved heff)

/-- The word stays newer when its reader draws a write version, which is above all others. -/
theorem Newer.self (hrv : x'.txn.rv = (s.tx t).txn.rv) (hnew : Newer s (s.tx t) a v) :
    Newer s x' a v := by
  obtain ⟨u, hw, hlt, hbelow⟩ := hnew
  refine ⟨u, hw, by rwa [hrv], fun hst => ?_⟩
  rcases heff.stamped hst with ⟨hst', hwv, -, -⟩ | ⟨hwv, -⟩
  · rw [hwv]
    exact hbelow hst'
  · rw [hwv, gvc_succ h.clocked.clock]
    exact Nat.lt_succ_of_le (h.clocked.stamped_le u (.of_passed hw.1.1))

/-- The same, for the moves of the reader. -/
theorem SnapshotOrNewer.self (hrv : x'.txn.rv = (s.tx t).txn.rv)
    (hword : SnapshotOrNewer s (s.tx t) a v) : SnapshotOrNewer s x' a v := by
  rw [SnapshotOrNewer, hrv]
  exact ⟨hword.1, hword.2.imp_right fun hnew => hnew.self h heff hrv⟩

/-- What a reader knows survives the steps of the others. -/
theorem ReadsLoosely.moved (hr : x.txn.rv.toNat ≤ s.shared.gvc.toNat)
    (hreads : ReadsLoosely s x) : ReadsLoosely (s.moved t sh' x') x := by
  unfold ReadsLoosely at hreads ⊢
  split
  case h_1 hpc => rwa [hpc] at hreads
  case h_2 b todo version hpc =>
    rw [hpc] at hreads
    exact Settled.moved h heff hr hreads
  case h_3 hpc | h_4 hpc =>
    rw [hpc] at hreads
    exact fun hshared => (hreads hshared).moved h heff hr
  case h_5 => trivial

end Moved

/-- A copied word is the one of the snapshot or newer. -/
theorem Versions.snapshotOrNewer [Zero V] (h : Versions S s) (hopen : ¬ x.Stamped)
    (hsettled : Settled s x.txn.rv.toNat a) : SnapshotOrNewer s x a (s.shared.mem a) := by
  refine ⟨hsettled, ?_⟩
  rcases h.readsAt_or_tooNew (a := a) (r := x.txn.rv.toNat) with hread | ⟨u, hw, hlt⟩
  · exact .inl hread
  · exact .inr ⟨u, hw, hlt, fun hst => absurd hst hopen⟩

/-- The reader's own moves. -/
theorem Copies.reads_self [Zero V] (h : Copies S s) (hmove : Move S t s.shared (s.tx t) sh' x') :
    ReadsLoosely s x' := by
  have hver := h.validated.versions
  have heff := effect_of_move (hver.owners.shape t) hmove
  have hreads := h.reads t
  cases hmove with
  | readPrePass b todo version hpc hfree hle => exact hver.settled hfree
  | readCopy b todo version hpc =>
    rw [ReadsLoosely, hpc] at hreads
    intro hshared
    have hval : (s.tx t).txn.wordAt s.shared.mem b = s.shared.mem b :=
      wordAt_of_readsShared (x := s.tx t) hshared
    have hcopied : SnapshotOrNewer s (s.tx t) b ((s.tx t).txn.wordAt s.shared.mem b) := by
      rw [hval]
      exact hver.snapshotOrNewer (by simp [Stamped, hpc]) hreads
    exact hcopied.self hver heff rfl
  -- neither load of the post-validation is needed here
  | readPostVersion b todo version val hpc =>
    rw [ReadsLoosely, hpc] at hreads
    exact fun hshared => (hreads hshared).self hver heff rfl
  | write b val hpc =>
    unfold ReadsLoosely
    simp only [hpc]
  | _ => trivial

/-- The words accepted so far, after a move of their reader. -/
theorem Copies.seen_self [Zero V] (h : Copies S s) (hmove : Move S t s.shared (s.tx t) sh' x')
    (hseen : (a, v) ∈ x'.seen) : SnapshotOrNewer s x' a v := by
  have hver := h.validated.versions
  have heff := effect_of_move (hver.owners.shape t) hmove
  have hreads := h.reads t
  cases hmove with
  | begin isRo hpc =>
    rw [ReadsLoosely, hpc] at hreads
    rw [hreads] at hseen
    exact absurd hseen List.not_mem_nil
  | readAccept b todo version val newVersion hpc hfree heq hle =>
    rw [ReadsLoosely, hpc] at hreads
    by_cases hshared : (s.tx t).ReadsShared b
    · simp only [acceptWord, if_pos hshared, List.mem_append, List.mem_singleton] at hseen
      rcases hseen with hold | hnew
      · exact (h.seen t a v hold).self hver heff rfl
      · obtain ⟨rfl, rfl⟩ := Prod.mk.inj hnew
        exact (hreads hshared).self hver heff rfl
    · simp only [acceptWord, if_neg hshared] at hseen
      exact (h.seen t a v hseen).self hver heff rfl
  | _ => exact (h.seen t a v hseen).self hver heff rfl

/-- The invariant is kept by every move of a steady run. -/
theorem Copies.move [Zero V] (h : Copies S s) {c : Command V}
    (hmove : Move S t s.shared (s.tx t) sh' x')
    (hok : steady S s (.tx t c) (s.moved t sh' x')) : Copies S (s.moved t sh' x') := by
  have hver := h.validated.versions
  have heff := effect_of_move (hver.owners.shape t) hmove
  have hr' : x'.txn.rv.toNat ≤ s.shared.gvc.toNat := by
    rcases heff.rv with hrv | ⟨-, hrv⟩ <;> rw [hrv]
    exact hver.clocked.rv_le t
  refine ⟨h.validated.move hmove hok, State.forall_moved ?_ fun u _ => ?_,
    State.forall_moved
      (P := fun _ y => ∀ a v, (a, v) ∈ y.seen → SnapshotOrNewer (s.moved t sh' x') y a v) ?_
      fun u _ => ?_⟩
  · exact (h.reads_self hmove).moved hver heff hr'
  · exact (h.reads u).moved hver heff (hver.clocked.rv_le u)
  · exact fun a v hseen => (h.seen_self hmove hseen).moved hver heff hr'
  · exact fun a v hseen => (h.seen u a v hseen).moved hver heff (hver.clocked.rv_le u)

/-- The invariant holds in every state of a steady run. -/
theorem copies_of_reachable [Zero V] (h : (machine S).Reachable (steady S) s) : Copies S s := by
  refine h.invariant ⟨⟨versions_init, fun _ => trivial⟩, fun _ => rfl,
    fun t a v hseen => absurd hseen List.not_mem_nil⟩ fun s lab s' _ ih hstep hok => ?_
  rcases step_cases hstep with ⟨t, c, sh', x', rfl, hmove, rfl⟩ | ⟨rfl, rfl⟩
  · exact ih.move hmove hok
  · exact ⟨⟨ih.validated.versions.ticked hok, ih.validated.validates⟩, ih.reads, ih.seen⟩

/-- What a transaction has read when it passes validation belongs to the snapshot at its read
version. -/
theorem Copies.readsAt [Zero V] (h : Copies S s) (hpassed : (s.tx t).Passed)
    (ha : a ∈ (s.tx t).txn.readSet) (hseen : (a, v) ∈ (s.tx t).seen) :
    (passedWrites s).ReadsAt 0 (s.tx t).txn.rv.toNat a v := by
  obtain ⟨hsettled, hread | ⟨u, hw, hlt, hbelow⟩⟩ := h.seen t a v hseen
  · exact hsettled.passedWrites_readsAt hread
  · -- the validation has excluded newer words
    have hchecked := (h.validated.validates t).checked hpassed ha
    have hle := hchecked u (.of_passed hw.1.1) hw.1.2.1 (hbelow (.of_passed hpassed))
    omega

end TransactionalMemory
