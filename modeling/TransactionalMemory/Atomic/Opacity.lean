import TransactionalMemory.Atomic.Versions

/-!
# Opacity

Every word that `tm_read` accepts from shared memory should belong to one snapshot: the values of
the transactions with write versions up to the read version. `SnapshotReads` states this for all
transactions, whatever becomes of them.

Two orders of steps break it. A write set with two addresses on one lock releases that lock too
early (`CollisionFree` excludes it). And the post-validation loads the lock word twice, first for
the version and then for the lock bit: a `setVersion` between the two loads hides both the old
lock bit and the new version from the reader (`SplitsValidation`), which then accepts a word of a
commit in progress (`snapshotReads_fails`). In runs without the two, `SnapshotReads` holds in
every state (`snapshotReads`).

The invariant is `Snapshots`. Its core is `Settled`: once the pre-validation has found the lock
free, every transaction with a write version up to the read version has stored its word, so what
the reader should see no longer changes.
-/

namespace TransactionalMemory

open VersionedWriteLock UnorderedMap Tx

variable {V : Type} {S : Setup V} {t u : Tid} {sh' : Shared V} {x x' : Tx V} {s : State V}
  {a : Addr} {r : ℕ} {v : V}

/-- The words buffered by the transactions that have passed the validation in `tm_end`. -/
def passedWrites (s : State V) : VersionedWrites Tid Addr V ℕ where
  wrote t a v := (s.tx t).Passed ∧ (s.tx t).txn.writeSet.lookup a = some v
  version t := (s.tx t).wv.toNat

/-- Every word accepted from shared memory is the one of the snapshot at the read version. -/
def SnapshotReads [Zero V] (s : State V) : Prop :=
  ∀ t a v, (a, v) ∈ (s.tx t).seen → (passedWrites s).ReadsAt 0 (s.tx t).txn.rv.toNat a v

/-- The next `setVersion` of `t` publishes a word while another transaction is about to accept an
equal one, which it has copied from the same shared address: it has loaded an unchanged version,
and loads the lock bit next. -/
def SplitsValidation (s : State V) (t : Tid) : Prop :=
  ∃ u a v todo todo' version, (s.tx t).pc = .publish (a, v) todo ∧ (s.tx u).ReadsShared a ∧
    (s.tx u).pc = .readPostLocked a todo' version v version

/-- No `setVersion` falls between the two loads of a post-validation. -/
def wholeValidation : State V → Label V → State V → Prop :=
  fun s lab _ => ∀ t, lab = .tx t .step → ¬ SplitsValidation s t

/-- The steady runs without split validations. With the clock below `2 ^ 31`, only lock collisions
and split validations are left to exclude (`versionsKept_of_clockBelow`). -/
def undisturbed (S : Setup V) : State V → Label V → State V → Prop :=
  fun s lab s' => steady S s lab s' ∧ wholeValidation s lab s'

/-! ## What a reader of version `r` sees -/

/-- Every transaction with a write version up to `r` has stored its word for `a`. -/
def Settled (s : State V) (r : ℕ) (a : Addr) : Prop :=
  ∀ u, (s.tx u).Stamped → a ∈ (s.tx u).txn.writeSet → (s.tx u).wv.toNat ≤ r → (s.tx u).Stored a

/-- The word `v` at `a` was stored by a transaction with a write version above `r`. -/
def TooNew (s : State V) (r : ℕ) (a : Addr) (v : V) : Prop :=
  ∃ u, (storedWrites s).wrote u a v ∧ r < (s.tx u).wv.toNat

/-- The same, by a transaction that has not released the lock of `a`. -/
def MidCommit (s : State V) (r : ℕ) (a : Addr) (v : V) : Prop :=
  ∃ u, (storedWrites s).wrote u a v ∧ r < (s.tx u).wv.toNat ∧ ¬ (s.tx u).Released a

/-- What holds of a transaction in the middle of `tm_read`. -/
def Reads [Zero V] (s : State V) (x : Tx V) : Prop :=
  match x.pc with
  | .unborn => x.seen = []
  | .readCopy a _ version => Settled s x.txn.rv.toNat a ∧ ¬ x.txn.rv < version
  | .readPostVersion a _ version val =>
    Settled s x.txn.rv.toNat a ∧ ¬ x.txn.rv < version ∧
      (x.ReadsShared a → (storedWrites s).ReadsAt 0 x.txn.rv.toNat a val ∨
        TooNew s x.txn.rv.toNat a val)
  | .readPostLocked a _ version val newVersion =>
    Settled s x.txn.rv.toNat a ∧
      (x.ReadsShared a → newVersion = version →
        (storedWrites s).ReadsAt 0 x.txn.rv.toNat a val ∨ MidCommit s x.txn.rv.toNat a val)
  | _ => True

/-- The invariant of undisturbed runs. -/
structure Snapshots [Zero V] (S : Setup V) (s : State V) : Prop where
  versions : Versions S s
  reads : ∀ t, Reads s (s.tx t)
  /-- The words accepted so far belong to the snapshot, which is settled there. -/
  seen : ∀ t a v, (a, v) ∈ (s.tx t).seen →
    Settled s (s.tx t).txn.rv.toNat a ∧ (storedWrites s).ReadsAt 0 (s.tx t).txn.rv.toNat a v

/-! ## What the steps of other transactions change -/

/-- A stored word stays stored, with its value and version. -/
theorem wrote_moved (heff : Effect S s.shared (s.tx t) sh' x')
    (hw : (storedWrites s).wrote u a v) :
    (storedWrites (s.moved t sh' x')).wrote u a v ∧
      ((s.moved t sh' x').tx u).wv = (s.tx u).wv := by
  -- `stored_mono` for the transaction that moves; the others keep what they have
  by_cases hut : u = t
  · subst hut
    obtain ⟨hst, hwv, hws⟩ := heff.stored_mono hw.1
    simp only [storedWrites, State.moved_tx_self, hws]
    exact ⟨⟨hst, hw.2⟩, hwv⟩
  · rw [State.moved_tx_of_ne hut]
    exact ⟨by simpa [storedWrites, hut] using hw, rfl⟩

/-- A word that is too new stays so. -/
theorem TooNew.moved (heff : Effect S s.shared (s.tx t) sh' x') (hnew : TooNew s r a v) :
    TooNew (s.moved t sh' x') r a v := by
  obtain ⟨u, hw, hlt⟩ := hnew
  obtain ⟨hw', hwv⟩ := wrote_moved heff hw
  exact ⟨u, hw', by rwa [hwv]⟩

section Moved

variable [Zero V] (h : Versions S s) (heff : Effect S s.shared (s.tx t) sh' x')

include h heff

/-- A transaction with a write version up to the old clock was stamped before the move. -/
theorem stamped_of_moved (hr : r ≤ s.shared.gvc.toNat)
    (hst : ((s.moved t sh' x').tx u).Stamped) (hle : ((s.moved t sh' x').tx u).wv.toNat ≤ r) :
    (s.tx u).Stamped ∧ ((s.moved t sh' x').tx u).wv = (s.tx u).wv ∧
      ((s.moved t sh' x').tx u).txn.writeSet = (s.tx u).txn.writeSet := by
  by_cases hut : u = t
  · subst hut
    rw [State.moved_tx_self] at hst hle ⊢
    rcases heff.stamped hst with ⟨hst', hwv, hws, -⟩ | ⟨hwv, -⟩
    · exact ⟨hst', hwv, hws⟩
    · -- a version drawn now is above the old clock
      rw [hwv, gvc_succ h.clocked.clock] at hle
      omega
  · rw [State.moved_tx_of_ne hut] at hst ⊢
    exact ⟨hst, rfl, rfl⟩

/-- What is settled stays so. -/
theorem Settled.moved (hr : r ≤ s.shared.gvc.toNat) (hs : Settled s r a) :
    Settled (s.moved t sh' x') r a := by
  intro u hst hmem hle
  obtain ⟨hst', hwv, hws⟩ := stamped_of_moved h heff hr hst hle
  rw [hwv] at hle
  rw [hws] at hmem
  have hstored := hs u hst' hmem hle
  obtain ⟨v, hv⟩ := mem_iff_lookup.1 hmem
  exact (wrote_moved heff ⟨hstored, hv⟩).1.1

/-- Once `a` is settled, a reader of version `r` keeps seeing the same word there. -/
theorem Settled.readsAt_moved (hr : r ≤ s.shared.gvc.toNat) (hs : Settled s r a)
    (hread : (storedWrites s).ReadsAt 0 r a v) :
    (storedWrites (s.moved t sh' x')).ReadsAt 0 r a v := by
  refine hread.later (fun u z hw => ?_) (fun u z hw => ?_)
  · obtain ⟨hw', hwv⟩ := wrote_moved heff hw
    exact ⟨hw', by simp only [storedWrites, hwv]⟩
  · -- a new write is above `r`, or its transaction had it stored before because `a` is settled
    rcases Nat.lt_or_ge r ((s.moved t sh' x').tx u).wv.toNat with hlt | hle
    · exact .inr hlt
    · obtain ⟨hst', hwv, hws⟩ := stamped_of_moved h heff hr (.of_passed hw.1.1) hle
      have hmem : a ∈ (s.tx u).txn.writeSet := hws ▸ hw.1.2.1
      have hlookup : (s.tx u).txn.writeSet.lookup a = some z := hws ▸ hw.2
      exact .inl ⟨hs u hst' hmem (hwv ▸ hle), hlookup⟩

/-- A word of a commit in progress stays one until it is published. -/
theorem MidCommit.moved (hmid : MidCommit s r a v)
    (hpublish : ∀ todo, (s.tx t).pc ≠ .publish (a, v) todo) :
    MidCommit (s.moved t sh' x') r a v := by
  obtain ⟨u, hw, hlt, hnot⟩ := hmid
  obtain ⟨hw', hwv⟩ := wrote_moved heff hw
  refine ⟨u, hw', by rwa [hwv], ?_⟩
  by_cases hut : u = t
  · subst hut
    rw [State.moved_tx_self]
    intro hr
    rcases heff.released_new hr with hold | ⟨e, todo, hpc, rfl, -⟩
    · exact hnot hold
    · -- the published word is the buffered one
      have hshape := h.owners.shape u
      rw [Shape, hpc] at hshape
      have hentry := hshape.entries e List.mem_cons_self
      have hval : e.2 = v := Option.some.inj (hentry.symm.trans hw.2)
      exact hpublish todo (by rw [hpc, ← hval])
  · rwa [State.moved_tx_of_ne hut]

/-- What a reader knows survives the steps of the others. -/
theorem Reads.moved (hr : x.txn.rv.toNat ≤ s.shared.gvc.toNat)
    (hwhole : ∀ a v todo todo' version, (s.tx t).pc = .publish (a, v) todo → x.ReadsShared a →
      x.pc ≠ .readPostLocked a todo' version v version)
    (hreads : Reads s x) : Reads (s.moved t sh' x') x := by
  -- one case for each control point of `tm_read` at which something is known
  unfold Reads at hreads ⊢
  split
  case h_1 hpc => rwa [hpc] at hreads
  case h_2 b todo version hpc =>
    rw [hpc] at hreads
    exact ⟨hreads.1.moved h heff hr, hreads.2⟩
  case h_3 b todo version val hpc =>
    rw [hpc] at hreads
    obtain ⟨hsettled, hle, hval⟩ := hreads
    refine ⟨hsettled.moved h heff hr, hle, fun hshared => ?_⟩
    rcases hval hshared with hread | hnew
    · exact .inl (hsettled.readsAt_moved h heff hr hread)
    · exact .inr (TooNew.moved heff hnew)
  case h_4 b todo version val newVersion hpc =>
    rw [hpc] at hreads
    obtain ⟨hsettled, hval⟩ := hreads
    refine ⟨hsettled.moved h heff hr, fun hshared heq => ?_⟩
    rcases hval hshared heq with hread | hmid
    · exact .inl (hsettled.readsAt_moved h heff hr hread)
    · subst heq
      exact .inr (hmid.moved h heff fun todo' hpublish => hwhole _ _ todo' _ _ hpublish hshared hpc)
  case h_5 => trivial

end Moved

/-! ## What the steps of the reader establish -/

/-- A word that is not buffered is read from shared memory. -/
theorem Tx.wordAt_of_readsShared {mem : Addr → V} (h : x.ReadsShared a) :
    x.txn.wordAt mem a = mem a := by
  unfold Transaction.wordAt
  rcases h with hro | hnot
  · exact if_pos hro
  · have hnone : x.txn.writeSet.lookup a = none := AList.lookup_eq_none.2 hnot
    simp [hnone]

section Reader

variable [Zero V] (h : Versions S s)

include h

/-- A free lock means that every older transaction has stored its word. -/
theorem Versions.settled (hfree : isLocked (s.shared.locks (S.lockOf a)) = false) :
    Settled s r a :=
  fun _ hst hmem _ => (h.released_of_free hfree hst hmem).stored

/-- The word in shared memory is the one of the snapshot, or too new. -/
theorem Versions.readsAt_or_tooNew :
    (storedWrites s).ReadsAt 0 r a (s.shared.mem a) ∨ TooNew s r a (s.shared.mem a) := by
  -- the word is the initial one, or was stored by `u`
  rcases h.memory a with ⟨hzero, hnone⟩ | ⟨u, hw, hmax⟩
  · exact .inl (.inl ⟨hzero, fun u z hw => absurd hw (hnone u z)⟩)
  · rcases Nat.lt_or_ge r (s.tx u).wv.toNat with hlt | hle
    · exact .inr ⟨u, hw, hlt⟩
    · exact .inl (.inr ⟨u, hw, hle, fun w z hw' _ => hmax w z hw'⟩)

/-- An unchanged version means that a word that is too new is not published yet. -/
theorem TooNew.midCommit (hnew : TooNew s r a v)
    (hle : versionOf (s.shared.locks (S.lockOf a)) ≤ r) : MidCommit s r a v := by
  obtain ⟨u, hw, hlt⟩ := hnew
  refine ⟨u, hw, hlt, fun hr => ?_⟩
  have hversion := h.released_le u a hr
  omega

/-- While a word is in the middle of a commit its lock is taken. -/
theorem MidCommit.locked (hmid : MidCommit s r a v) :
    isLocked (s.shared.locks (S.lockOf a)) = true := by
  obtain ⟨u, hw, -, hnot⟩ := hmid
  exact (h.owners.locked _).2
    ⟨u, h.owners.owned_of_stamped (.of_passed hw.1.1) hw.1.2.1 hnot⟩

end Reader

/-- The reader's own moves. -/
theorem Snapshots.reads_self [Zero V] (h : Snapshots S s)
    (hmove : Move S t s.shared (s.tx t) sh' x') : Reads (s.moved t sh' x') x' := by
  have hver := h.versions
  have heff := effect_of_move (hver.owners.shape t) hmove
  have hr := hver.clocked.rv_le t
  have hreads := h.reads t
  cases hmove with
  -- the lock is free, so all older writes to the address are in memory
  | readPrePass a todo version hpc hfree hle =>
    have hsettled : Settled s (s.tx t).txn.rv.toNat a := hver.settled hfree
    exact ⟨hsettled.moved hver heff hr, hle⟩
  | readCopy a todo version hpc =>
    rw [Reads, hpc] at hreads
    obtain ⟨hsettled, hle⟩ := hreads
    -- the word may already be too new, which the post-validation will notice
    refine ⟨hsettled.moved hver heff hr, hle, fun hshared => ?_⟩
    have hcopied := hver.readsAt_or_tooNew (a := a) (r := (s.tx t).txn.rv.toNat)
    have hval : (s.tx t).txn.wordAt s.shared.mem a = s.shared.mem a :=
      wordAt_of_readsShared (x := s.tx t) hshared
    rw [← hval] at hcopied
    rcases hcopied with hread | hnew
    · exact .inl (hsettled.readsAt_moved hver heff hr hread)
    · exact .inr (TooNew.moved heff hnew)
  | readPostVersion a todo version val hpc =>
    rw [Reads, hpc] at hreads
    obtain ⟨hsettled, hle, hval⟩ := hreads
    refine ⟨hsettled.moved hver heff hr, fun hshared heq => ?_⟩
    rcases hval hshared with hread | hnew
    · exact .inl (hsettled.readsAt_moved hver heff hr hread)
    · have hversion : versionOf (s.shared.locks (S.lockOf a)) ≤ (s.tx t).txn.rv.toNat := by
        rw [versionOf, heq]
        exact Nat.le_of_not_lt hle
      -- the version is as before the copy, so whoever stored the word has not published it
      refine .inr ((hnew.midCommit hver hversion).moved hver heff fun todo' hpc' => ?_)
      rw [hpc] at hpc'
      cases hpc'
  | write a val hpc =>
    unfold Reads
    simp only [hpc]
  | _ => trivial

/-- The words accepted so far, after a move of their reader. -/
theorem Snapshots.seen_self [Zero V] (h : Snapshots S s)
    (hmove : Move S t s.shared (s.tx t) sh' x') (hseen : (a, v) ∈ x'.seen) :
    Settled s x'.txn.rv.toNat a ∧ (storedWrites s).ReadsAt 0 x'.txn.rv.toNat a v := by
  have hver := h.versions
  have hreads := h.reads t
  cases hmove with
  | begin isRo hpc =>
    rw [Reads, hpc] at hreads
    rw [hreads] at hseen
    exact absurd hseen List.not_mem_nil
  -- only a word that passes the post-validation is recorded
  | readAccept b todo version val newVersion hpc hfree heq hle =>
    rw [Reads, hpc] at hreads
    obtain ⟨hsettled, hval⟩ := hreads
    -- words from the own write set are not recorded
    by_cases hshared : (s.tx t).ReadsShared b
    · simp only [acceptWord, if_pos hshared, List.mem_append, List.mem_singleton] at hseen
      rcases hseen with hold | hnew
      · exact h.seen t a v hold
      · obtain ⟨rfl, rfl⟩ := Prod.mk.inj hnew
        refine ⟨hsettled, ?_⟩
        rcases hval hshared heq with hread | hmid
        · exact hread
        · rw [hmid.locked hver] at hfree
          cases hfree
    · simp only [acceptWord, if_neg hshared] at hseen
      exact h.seen t a v hseen
  | _ => exact h.seen t a v hseen

/-- The invariant is kept by every move of an undisturbed run. -/
theorem Snapshots.move [Zero V] (h : Snapshots S s) {c : Command V}
    (hmove : Move S t s.shared (s.tx t) sh' x')
    (hok : undisturbed S s (.tx t c) (s.moved t sh' x'))
    (hstep : ∀ a v todo, (s.tx t).pc = .publish (a, v) todo → c = .step) :
    Snapshots S (s.moved t sh' x') := by
  obtain ⟨hsteady, hwhole⟩ := hok
  have hver := h.versions
  have heff := effect_of_move (hver.owners.shape t) hmove
  refine ⟨hver.move hmove hsteady, fun u => ?_, fun u a v hseen => ?_⟩
  · -- the reader itself, or a reader during the step of another transaction
    by_cases hut : u = t
    · subst hut
      rw [State.moved_tx_self]
      exact h.reads_self hmove
    · rw [State.moved_tx_of_ne hut]
      apply (h.reads u).moved hver heff (hver.clocked.rv_le u)
      intro a v todo todo' version hpublish hshared hread
      have hc := hstep a v todo hpublish
      exact hwhole t (by rw [hc]) ⟨u, a, v, todo, todo', version, hpublish, hshared, hread⟩
  · have hold : Settled s ((s.moved t sh' x').tx u).txn.rv.toNat a ∧
        (storedWrites s).ReadsAt 0 ((s.moved t sh' x').tx u).txn.rv.toNat a v := by
      by_cases hut : u = t
      · subst hut
        rw [State.moved_tx_self] at hseen ⊢
        exact h.seen_self hmove hseen
      · rw [State.moved_tx_of_ne hut] at hseen ⊢
        exact h.seen u a v hseen
    have hr : ((s.moved t sh' x').tx u).txn.rv.toNat ≤ s.shared.gvc.toNat := by
      by_cases hut : u = t
      · subst hut
        rw [State.moved_tx_self]
        rcases heff.rv with hrv | ⟨-, hrv⟩ <;> rw [hrv]
        exact hver.clocked.rv_le u
      · rw [State.moved_tx_of_ne hut]
        exact hver.clocked.rv_le u
    exact ⟨hold.1.moved hver heff hr, hold.1.readsAt_moved hver heff hr hold.2⟩

/-! ## Runs -/

/-- `setVersion` is executed by an atomic access, not by a call. -/
theorem eq_step_of_publish [Zero V] {c : Command V} {s' : State V} {e : Addr × V}
    {todo : List (Addr × V)} (h : (machine S).step s (.tx t c) = some s')
    (hpc : (s.tx t).pc = .publish e todo) : c = .step := by
  cases c with
  | step => rfl
  | _ => simp [machine, act, hpc] at h

/-- The invariant holds in every state of an undisturbed run. -/
theorem snapshots_of_reachable [Zero V] (h : (machine S).Reachable (undisturbed S) s) :
    Snapshots S s := by
  refine h.invariant ⟨versions_init, fun t => rfl, fun t a v hseen => ?_⟩
    fun s lab s' _ ih hstep hok => ?_
  · exact absurd hseen List.not_mem_nil
  rcases step_cases hstep with ⟨t, c, sh', x', rfl, hmove, rfl⟩ | ⟨rfl, rfl⟩
  · exact ih.move hmove hok fun a v todo hpc => eq_step_of_publish hstep hpc
  · exact ⟨ih.versions.ticked hok.1, ih.reads, ih.seen⟩

/-- The settled words of the snapshot are those of the transactions that passed validation. -/
theorem Settled.passedWrites_readsAt [Zero V] (hs : Settled s r a)
    (hread : (storedWrites s).ReadsAt 0 r a v) : (passedWrites s).ReadsAt 0 r a v := by
  refine hread.later (fun u z hw => ?_) (fun u z hw => ?_)
  · exact ⟨⟨hw.1.1, hw.2⟩, rfl⟩
  · -- a writer up to `r` that has passed validation has stored its word
    rcases Nat.lt_or_ge r (s.tx u).wv.toNat with hlt | hle
    · exact .inr hlt
    · have hmem : a ∈ (s.tx u).txn.writeSet := mem_iff_lookup.2 ⟨z, hw.2⟩
      exact .inl ⟨hs u (.of_passed hw.1) hmem hle, hw.2⟩

/-- In an undisturbed run every word a transaction accepts from shared memory is the one of the
snapshot at its read version. -/
theorem snapshotReads [Zero V] (h : (machine S).Reachable (undisturbed S) s) :
    SnapshotReads s := by
  intro t a v hseen
  obtain ⟨hsettled, hread⟩ := (snapshots_of_reachable h).seen t a v hseen
  exact hsettled.passedWrites_readsAt hread

/-- The next step of the run is a `setVersion`. -/
def publishing (s : State V) : Label V → Bool
  | .tx t .step => match (s.tx t).pc with | .publish .. => true | _ => false
  | _ => false

/-- Only a `setVersion` can split a post-validation. -/
theorem wholeValidation_of_not_publishing {lab : Label V} {s' : State V}
    (h : publishing s lab = false) : wholeValidation s lab s' := by
  rintro t rfl ⟨u, a, v, todo, todo', version, hpc, -⟩
  simp [publishing, hpc] at h

/-- The transaction is between the two loads of a post-validation. -/
def Tx.betweenLoads (x : Tx V) : Bool :=
  match x.pc with
  | .readPostLocked .. => true
  | _ => false

/-- The step is one of a transaction below `k`. If it is a `setVersion`, none of these transactions
is between the two loads of a post-validation. -/
def checkWhole (k : ℕ) (s : State V) (lab : Label V) : Bool :=
  (match lab with
    | .tx t _ => decide (t < k)
    | .otherRegion => true) &&
  (!publishing s lab || (List.range k).all fun u => !(s.tx u).betweenLoads)

/-- A tested step splits no post-validation. -/
theorem wholeValidation_of_checkWhole {k : ℕ} {lab : Label V} {s' : State V}
    (hborn : ∀ u, k ≤ u → (s.tx u).pc = .unborn) (h : checkWhole k s lab = true) :
    wholeValidation s lab s' := by
  rintro t rfl ⟨u, a, v, todo, todo', version, hpc, -, hpc'⟩
  have hlt : u < k := by
    by_contra hge
    rw [hborn u (Nat.le_of_not_lt hge)] at hpc'
    cases hpc'
  simp only [checkWhole, publishing, hpc, Bool.and_eq_true, Bool.not_true, Bool.false_or,
    List.all_eq_true, List.mem_range] at h
  simpa [betweenLoads, hpc'] using h.2 u hlt

/-- What is tested of each step of a run of the first `k` transactions. -/
def checkSteps (k : ℕ) (s : State V) (lab : Label V) (s' : State V) : Bool :=
  decide (versionsKept s lab s') && checkWhole k s lab

/-- A tested run is undisturbed. -/
theorem reachable_of_checkSteps [Zero V] {k : ℕ} {labs : List (Label V)}
    (h : (machine (Setup.direct V)).exec (checkSteps k) (machine (Setup.direct V)).init labs =
      some s) : (machine (Setup.direct V)).Reachable (undisturbed (Setup.direct V)) s := by
  have hrun : (machine (Setup.direct V)).Run (fun s lab s' => checkSteps k s lab s' = true) _ _ _ :=
    LabelledSystem.run_of_exec (fun _ _ _ hc => hc) h
  refine ⟨labs, (hrun.strengthen (I := fun s => ∀ u, k ≤ u → (s.tx u).pc = .unborn)
    (fun _ _ => rfl) ?_ ?_).1⟩
  · -- only the first `k` transactions take steps
    intro s lab s' hborn hstep hcheck u hu
    rcases step_cases hstep with ⟨t, c, sh', x', rfl, -, rfl⟩ | ⟨rfl, rfl⟩
    · simp only [checkSteps, checkWhole, Bool.and_eq_true, decide_eq_true_eq] at hcheck
      have hut : u ≠ t := by
        rintro rfl
        exact absurd hcheck.2.1 (Nat.not_lt.2 hu)
      rw [State.moved_tx_of_ne hut]
      exact hborn u hu
    · exact hborn u hu
  · intro s lab s' hborn hcheck
    rw [checkSteps, Bool.and_eq_true, decide_eq_true_eq] at hcheck
    exact ⟨⟨hcheck.1, collisionFree_direct _⟩, wholeValidation_of_checkWhole hborn hcheck.2⟩

/-- Transaction 1 commits a word at the address 8, and transaction 2 reads it. -/
def readingRun : List (Label ℕ) :=
  [.tx 1 (.begin false), .tx 1 (.write 8 1), .tx 1 .endTx] ++ accesses ℕ 1 6 ++
  [.tx 2 (.begin true), .tx 2 (.read [8])] ++ accesses ℕ 2 5

theorem readingRun_isSome : ((machine (Setup.direct ℕ)).exec (checkSteps 3)
    (machine (Setup.direct ℕ)).init readingRun).isSome := by decide

theorem snapshotReads_reading :
    SnapshotReads (((machine (Setup.direct ℕ)).exec (checkSteps 3)
      (machine (Setup.direct ℕ)).init readingRun).get readingRun_isSome) ∧
    (8, 1) ∈ ((((machine (Setup.direct ℕ)).exec (checkSteps 3)
      (machine (Setup.direct ℕ)).init readingRun).get readingRun_isSome).tx 2).seen :=
  ⟨snapshotReads (reachable_of_checkSteps (Option.eq_some_of_isSome readingRun_isSome)), by decide⟩

/-- Transaction 2 begins to read the address 8. Transaction 1 stores a word there, transaction 2
copies it and loads the version of the lock, transaction 1 publishes the word and thereby
releases the lock, and transaction 2 finds the lock bit clear. -/
def splitRun : List (Label ℕ) :=
  [.tx 2 (.begin true), .tx 2 (.read [8]), .tx 1 (.begin false), .tx 1 (.write 8 1),
    .tx 1 .endTx] ++
  accesses ℕ 2 2 ++ accesses ℕ 1 4 ++ accesses ℕ 2 2 ++ accesses ℕ 1 1 ++ accesses ℕ 2 1

theorem splitRun_isSome : ((machine (Setup.plain ℕ)).exec
    (fun s lab s' => decide (clockBelow (2 ^ 31) s lab s'))
    (machine (Setup.plain ℕ)).init splitRun).isSome := by decide

/-- With a `setVersion` between the two loads of its post-validation, a transaction accepts a
word that is newer than its snapshot. -/
theorem snapshotReads_fails :
    ¬ ∀ s, (machine (Setup.plain ℕ)).Reachable (clockBelow (2 ^ 31)) s → SnapshotReads s := by
  intro hall
  have hreach : (machine (Setup.plain ℕ)).Reachable (clockBelow (2 ^ 31)) _ :=
    LabelledSystem.reachable_of_exec (fun _ _ _ hcheck => of_decide_eq_true hcheck) splitRun_isSome
  have hread := hall _ hreach 2 8 1 (by decide)
  have hclocked := clocked_of_reachable (hreach.mono fun _ _ _ hlt => lt_trans hlt (by decide))
  have hrv : ((((machine (Setup.plain ℕ)).exec
      (fun s lab s' => decide (clockBelow (2 ^ 31) s lab s'))
      (machine (Setup.plain ℕ)).init splitRun).get splitRun_isSome).tx 2).txn.rv.toNat = 0 := by
    decide
  rw [hrv] at hread
  rcases hread with ⟨hzero, -⟩ | ⟨u, hw, hle, -⟩
  · exact absurd hzero (by decide)
  · -- no write version is zero
    have hlt := hclocked.rv_lt u (.of_passed hw.1)
    exact absurd hle (by simp only [passedWrites]; omega)

end TransactionalMemory
