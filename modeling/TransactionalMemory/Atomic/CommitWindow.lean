import TransactionalMemory.Atomic.Opacity

/-!
# Reads in the window of a commit

Between the store of a word by the write-back loop and the `setVersion` that releases its lock, a
concurrent `tm_read` can copy the word (`CopiesInWindow`). Its post-validation should then refuse
it (`RefusesCopy`). In undisturbed runs it does, wherever the `setVersion` falls
(`copyRefused`): before the first load of the post-validation the version in the lock is new, and
after it the lock bit is still set. A `setVersion` between the two loads makes `tm_read` accept the
word (`copyRefused_fails`).

The write version of the committing transaction is above the read version of the reader, because
the reader has found the lock free after it drew its read version (`Cleared`).
-/

namespace TransactionalMemory

open VersionedWriteLock UnorderedMap Tx

variable {V : Type} {S : Setup V} {t u : Tid} {sh' : Shared V} {x x' : Tx V} {s s' : State V}
  {a : Addr} {r k : ℕ} {v : V} {as : List (Label V)}

/-- `u` is about to copy the word at `a` from shared memory, while `t` holds the lock of `a` and
has already stored its own word there. -/
structure CopiesInWindow (S : Setup V) (s : State V) (t u : Tid) (a : Addr) : Prop where
  copying : ∃ todo version, (s.tx u).pc = .readCopy a todo version
  shared : (s.tx u).ReadsShared a
  stored : (s.tx t).Stored a
  holds : S.lockOf a ∈ (s.tx t).owned

/-- The label is the next atomic access of `u`. -/
def isAccessOf (u : Tid) : Label V → Bool
  | .tx t .step => t == u
  | _ => false

/-- A step of a transaction is one of its accesses. -/
theorem isAccessOf_step (u : Tid) : isAccessOf u (.tx u .step : Label V) = true :=
  beq_self_eq_true u

/-- A label of another transaction is none. -/
theorem isAccessOf_of_ne {c : Command V} (h : t ≠ u) : isAccessOf u (.tx t c) = false := by
  cases c <;> simp [isAccessOf, h]

/-- `u` is in the post-validation of the word `v` at `a`, `k` accesses after the copy. -/
def PostValidating (x : Tx V) (a : Addr) (v : V) (k : ℕ) : Prop :=
  (k = 0 ∧ ∃ todo version, x.pc = .readPostVersion a todo version v) ∨
    (k = 1 ∧ ∃ todo version newVersion, x.pc = .readPostLocked a todo version v newVersion)

/-- After `u` has copied the word at `a` and the labels `as` have been taken, `u` is still in the
post-validation of the word, or `tm_read` has returned false; and it has once the two loads of the
post-validation have been made. -/
structure RefusesCopy (u : Tid) (a : Addr) (v : V) (as : List (Label V)) (s' : State V) : Prop where
  validating : as.countP (isAccessOf u) < 2 →
    PostValidating (s'.tx u) a v (as.countP (isAccessOf u))
  refused : 2 ≤ as.countP (isAccessOf u) → (s'.tx u).pc = .aborted

/-! ## A reader is older than the transactions whose locks it has found taken -/

/-- Every transaction with a write version up to `r` has published its word for `a`. -/
def Cleared (s : State V) (r : ℕ) (a : Addr) : Prop :=
  ∀ u, (s.tx u).Stamped → a ∈ (s.tx u).txn.writeSet → (s.tx u).wv.toNat ≤ r → (s.tx u).Released a

/-- A transaction about to copy a word has found its lock free. -/
def CopiesCleared (s : State V) (x : Tx V) : Prop :=
  ∀ a todo version, x.pc = .readCopy a todo version → Cleared s x.txn.rv.toNat a

section Moved

variable [Zero V] (h : Versions S s)

include h

/-- A free lock means that every transaction has published its word. -/
theorem Versions.cleared (hfree : isLocked (s.shared.locks (S.lockOf a)) = false) :
    Cleared s r a :=
  fun _ hst hmem _ => h.released_of_free hfree hst hmem

/-- What is cleared stays so. -/
theorem Cleared.moved (heff : Effect S s.shared (s.tx t) sh' x')
    (hr : r ≤ s.shared.gvc.toNat) (hc : Cleared s r a) : Cleared (s.moved t sh' x') r a := by
  intro u hst hmem hle
  obtain ⟨hst', hwv, hws⟩ := stamped_of_moved h heff hr hst hle
  rw [hwv] at hle
  rw [hws] at hmem
  have hreleased := hc u hst' hmem hle
  by_cases hut : u = t
  · subst hut
    rw [State.moved_tx_self]
    exact (heff.released_mono hreleased).1
  · rwa [State.moved_tx_of_ne hut]

/-- A pre-validation that passes clears the address. -/
theorem copiesCleared_move (hmove : Move S t s.shared (s.tx t) sh' x')
    (hold : ∀ u, CopiesCleared s (s.tx u)) (u : Tid) :
    CopiesCleared (s.moved t sh' x') ((s.moved t sh' x').tx u) := by
  have heff := effect_of_move (h.owners.shape t) hmove
  intro a todo version hpc
  by_cases hut : u = t
  · subst hut
    rw [State.moved_tx_self] at hpc ⊢
    cases hmove with
    | readPrePass b todo' version' _ hfree =>
      injection hpc with hab
      subst hab
      exact (h.cleared hfree).moved h heff (h.clocked.rv_le u)
    | write b val hidle =>
      rw [hidle] at hpc
      cases hpc
    | _ => cases hpc
  · rw [State.moved_tx_of_ne hut] at hpc ⊢
    exact (hold u a todo version hpc).moved h heff (h.clocked.rv_le u)

/-- The word in the window of a commit is newer than the snapshot of its reader. -/
theorem tooNew_of_copiesInWindow (hcleared : CopiesCleared s (s.tx u))
    (hcopy : CopiesInWindow S s t u a) : TooNew s (s.tx u).txn.rv.toNat a (s.shared.mem a) := by
  have hst : (s.tx t).Stamped := .of_passed hcopy.stored.1
  have hnewer : (s.tx u).txn.rv.toNat < (s.tx t).wv.toNat := by
    by_contra hle
    obtain ⟨todo, version, hpc⟩ := hcopy.copying
    have hreleased := hcleared a todo version hpc t hst hcopy.stored.2.1 (Nat.le_of_not_lt hle)
    -- the lock of a published word is not owned
    exact absurd (h.owned_lt t _ hst hcopy.holds) (Nat.not_lt_of_le (h.released_le t a hreleased))
  obtain ⟨w, hw⟩ := mem_iff_lookup.1 hcopy.stored.2.1
  have hwrote : (storedWrites s).wrote t a w := ⟨hcopy.stored, hw⟩
  -- the word found there may have been stored by a third transaction, which is newer still
  rcases h.memory a with ⟨-, hnone⟩ | ⟨i, hi, hmax⟩
  · exact absurd hwrote (hnone t w)
  · exact ⟨i, hi, hnewer.trans_le (hmax t w hwrote)⟩

end Moved

/-! ## The post-validation -/

/-- What keeps a post-validation from accepting the word `v` at `a`: before its first load the word
is too new, after a first load that found the old version its commit is still in progress. -/
def Caught (s : State V) (x : Tx V) (a : Addr) (v : V) (k : ℕ) : Prop :=
  (k = 0 ∧ ∃ todo version, x.pc = .readPostVersion a todo version v ∧ x.ReadsShared a ∧
      ¬ x.txn.rv < version ∧ TooNew s x.txn.rv.toNat a v) ∨
    (k = 1 ∧ ∃ todo version newVersion, x.pc = .readPostLocked a todo version v newVersion ∧
      x.ReadsShared a ∧ (newVersion = version → MidCommit s x.txn.rv.toNat a v)) ∨
    (k = 2 ∧ x.pc = .aborted)

section Steps

variable [Zero V] (h : Versions S s)

include h

/-- The accesses of the others. -/
theorem Caught.moved (heff : Effect S s.shared (s.tx t) sh' x')
    (hwhole : ∀ a v todo todo' version, (s.tx t).pc = .publish (a, v) todo → x.ReadsShared a →
      x.pc ≠ .readPostLocked a todo' version v version)
    (hcaught : Caught s x a v k) : Caught (s.moved t sh' x') x a v k := by
  obtain ⟨hk, todo, version, hpc, hshared, hle, hnew⟩ |
    ⟨hk, todo, version, newVersion, hpc, hshared, hmid⟩ | hend := hcaught
  · exact .inl ⟨hk, todo, version, hpc, hshared, hle, hnew.moved heff⟩
  · refine .inr (.inl ⟨hk, todo, version, newVersion, hpc, hshared, fun heq => ?_⟩)
    subst heq
    exact (hmid rfl).moved h heff fun todo' hpublish =>
      hwhole a v todo' todo _ hpublish hshared hpc
  · exact .inr (.inr hend)

/-- The copy. -/
theorem Caught.copy (hcopy : CopiesInWindow S s t u a) (hcleared : CopiesCleared s (s.tx u))
    (hle : ∀ todo version, (s.tx u).pc = .readCopy a todo version → ¬ (s.tx u).txn.rv < version)
    (hstep : (s.tx u).step S u s.shared = some (sh', x')) :
    Caught (s.moved u sh' x') x' a (s.shared.mem a) 0 := by
  obtain ⟨todo, version, hpc⟩ := hcopy.copying
  have heff := effect_of_move (h.owners.shape u) (move_of_act (c := .step) hstep)
  simp only [Tx.step, hpc, wordAt_of_readsShared hcopy.shared, Option.some.injEq,
    Prod.mk.injEq] at hstep
  obtain ⟨rfl, rfl⟩ := hstep
  exact .inl ⟨rfl, todo, version, rfl, hcopy.shared, hle todo version hpc,
    (tooNew_of_copiesInWindow h hcleared hcopy).moved heff⟩

/-- The loads of the post-validation. -/
theorem Caught.access (hcaught : Caught s (s.tx u) a v k)
    (hstep : (s.tx u).step S u s.shared = some (sh', x')) :
    Caught (s.moved u sh' x') x' a v (k + 1) := by
  have heff := effect_of_move (h.owners.shape u) (move_of_act (c := .step) hstep)
  obtain ⟨rfl, todo, version, hpc, hshared, hle, hnew⟩ |
    ⟨rfl, todo, version, newVersion, hpc, hshared, hmid⟩ | ⟨-, hpc⟩ := hcaught
  · simp only [Tx.step, hpc, Option.some.injEq, Prod.mk.injEq] at hstep
    obtain ⟨rfl, rfl⟩ := hstep
    refine .inr (.inl ⟨rfl, todo, version, _, rfl, hshared, fun heq => ?_⟩)
    -- an unchanged version means that the word is not published yet
    have hversion : versionOf (s.shared.locks (S.lockOf a)) ≤ (s.tx u).txn.rv.toNat := by
      rw [versionOf, heq]
      exact Nat.le_of_not_lt hle
    apply (hnew.midCommit h hversion).moved h heff
    intro todo' hpc'
    rw [hpc] at hpc'
    cases hpc'
  · have hfail : isLocked (s.shared.locks (S.lockOf a)) = true ∨ newVersion ≠ version ∨
        (s.tx u).txn.isRo = true ∧ (s.tx u).txn.rv < newVersion := by
      -- with an unchanged version the commit is in progress, so the lock bit is set
      by_cases heq : newVersion = version
      · exact .inl ((hmid heq).locked h)
      · exact .inr (.inl heq)
    simp only [Tx.step, hpc, if_pos hfail, Option.some.injEq, Prod.mk.injEq] at hstep
    obtain ⟨rfl, rfl⟩ := hstep
    exact .inr (.inr ⟨rfl, rfl⟩)
  · simp [Tx.step, hpc] at hstep

end Steps

/-- In the post-validation a transaction takes no other step than the next access. -/
theorem Caught.eq_step (hcaught : Caught s (s.tx u) a v k) {c : Command V}
    (hact : (s.tx u).act S u s.shared c = some (sh', x')) : c = .step := by
  have hbusy : (s.tx u).pc ≠ .unborn ∧ (s.tx u).pc ≠ .idle := by
    obtain ⟨-, todo, version, hpc, -⟩ | ⟨-, todo, version, newVersion, hpc, -⟩ | ⟨-, hpc⟩ :=
      hcaught <;> simp [hpc]
  cases c with
  | step => rfl
  | _ => simp [Tx.act, hbusy] at hact

/-! ## Runs -/

/-- In an undisturbed run a word is copied only from a cleared address. -/
theorem copiesCleared_of_reachable [Zero V] (h : (machine S).Reachable (undisturbed S) s)
    (u : Tid) : CopiesCleared s (s.tx u) := by
  refine h.invariant (I := fun s => ∀ u, CopiesCleared s (s.tx u))
    (fun u a todo version hpc => ?_) (fun s lab s' hs ih hstep _ => ?_) u
  · cases hpc
  · rcases step_cases hstep with ⟨t, c, sh', x', -, hmove, rfl⟩ | ⟨-, rfl⟩
    · exact copiesCleared_move (snapshots_of_reachable hs).versions hmove ih
    · exact ih

/-- Once caught, the reader stays caught, and each of its accesses brings it closer to the end. -/
theorem Caught.of_run [Zero V] (h : (machine S).Reachable (undisturbed S) s)
    (hcaught : Caught s (s.tx u) a v 0) (hrun : (machine S).Run (undisturbed S) s as s') :
    Caught s' (s'.tx u) a v (as.countP (isAccessOf u)) := by
  refine hrun.history (P := fun as s => Caught s (s.tx u) a v (as.countP (isAccessOf u))) hcaught
    fun cs w lab w' hcs ih hstep hok => ?_
  have hver := (snapshots_of_reachable (h.run hcs)).versions
  rw [List.countP_append, List.countP_singleton]
  cases lab with
  | otherRegion =>
    simp only [machine, Option.some.injEq] at hstep
    subst hstep
    exact ih
  | tx t c =>
    -- no `setVersion` falls between the two loads of `u`
    have hwhole : ∀ a v todo todo' version, (w.tx t).pc = .publish (a, v) todo →
        (w.tx u).ReadsShared a → (w.tx u).pc ≠ .readPostLocked a todo' version v version := by
      intro b z todo todo' version hpublish hshared hread
      obtain rfl := eq_step_of_publish hstep hpublish
      exact hok.2 t rfl ⟨u, b, z, todo, todo', version, hpublish, hshared, hread⟩
    simp only [machine, Option.map_eq_some_iff] at hstep
    obtain ⟨⟨sh', x'⟩, hact, rfl⟩ := hstep
    show Caught (w.moved t sh' x') ((w.moved t sh' x').tx u) a v _
    by_cases htu : t = u
    · subst htu
      obtain rfl := ih.eq_step hact
      rw [State.moved_tx_self, if_pos (isAccessOf_step t)]
      exact ih.access hver hact
    · have hother : isAccessOf u (.tx t c) ≠ true := by simp [isAccessOf_of_ne htu]
      rw [State.moved_tx_of_ne (Ne.symm htu), if_neg hother]
      exact ih.moved hver (effect_of_move (hver.owners.shape t) (move_of_act hact)) hwhole

/-- A copy that is caught is refused. -/
theorem Caught.refusesCopy (hcaught : Caught s (s.tx u) a v (as.countP (isAccessOf u))) :
    RefusesCopy u a v as s := by
  obtain ⟨hk, todo, version, hpc, -⟩ | ⟨hk, todo, version, newVersion, hpc, -⟩ | ⟨hk, hpc⟩ :=
    hcaught
  · exact ⟨fun _ => .inl ⟨hk, todo, version, hpc⟩, fun hle => by omega⟩
  · exact ⟨fun _ => .inr ⟨hk, todo, version, newVersion, hpc⟩, fun hle => by omega⟩
  · exact ⟨fun hlt => by omega, fun _ => hpc⟩

/-- In an undisturbed run, a transaction that copies a word from shared memory while another one,
which holds the lock of the word, has stored it and not yet released the lock, never accepts the
word: `tm_read` returns false with the second load of the post-validation. -/
theorem copyRefused [Zero V] (h : (machine S).Reachable (undisturbed S) s)
    (hcopy : CopiesInWindow S s t u a)
    (hrun : (machine S).Run (undisturbed S) s (.tx u .step :: as) s') :
    RefusesCopy u a (s.shared.mem a) as s' := by
  obtain ⟨w, hstep, hok, hrest⟩ := hrun.of_cons
  have hreach := h.step hstep hok
  have hinv := snapshots_of_reachable h
  -- the pre-validation has compared the version with the read version
  have hle : ∀ todo version, (s.tx u).pc = .readCopy a todo version →
      ¬ (s.tx u).txn.rv < version := by
    intro todo version hpc
    have hreads := hinv.reads u
    rw [Reads, hpc] at hreads
    exact hreads.2
  simp only [machine, Option.map_eq_some_iff] at hstep
  obtain ⟨⟨sh', x'⟩, hact, rfl⟩ := hstep
  have hcaught : Caught (s.moved u sh' x') ((s.moved u sh' x').tx u) a (s.shared.mem a) 0 := by
    rw [State.moved_tx_self]
    exact Caught.copy hinv.versions hcopy (copiesCleared_of_reachable h u) hle hact
  exact (Caught.of_run hreach hcaught hrest).refusesCopy

/-- Transaction 2 has found the lock of the address 8 free and is about to copy the word there,
where transaction 1 has just stored its own. -/
def windowRun : List (Label ℕ) :=
  [.tx 2 (.begin true), .tx 2 (.read [8]), .tx 1 (.begin false), .tx 1 (.write 8 1),
    .tx 1 .endTx] ++
  accesses ℕ 2 2 ++ accesses ℕ 1 4

/-- The step truncates no version and is not a `setVersion`. -/
def checkQuiet (s : State ℕ) (lab : Label ℕ) (s' : State ℕ) : Bool :=
  decide (versionsKept s lab s') && !publishing s lab

/-- A tested step is undisturbed. -/
theorem undisturbed_of_checkQuiet {s s' : State ℕ} {lab : Label ℕ}
    (h : checkQuiet s lab s' = true) : undisturbed (Setup.direct ℕ) s lab s' := by
  rw [checkQuiet, Bool.and_eq_true, decide_eq_true_eq, Bool.not_eq_true'] at h
  exact ⟨⟨h.1, collisionFree_direct s'⟩, wholeValidation_of_not_publishing h.2⟩

theorem windowRun_isSome : ((machine (Setup.direct ℕ)).exec checkQuiet
    (machine (Setup.direct ℕ)).init windowRun).isSome := by decide

/-- The state at the end of the run. -/
def windowState : State ℕ :=
  ((machine (Setup.direct ℕ)).exec checkQuiet (machine (Setup.direct ℕ)).init windowRun).get
    windowRun_isSome

theorem copiesInWindow_windowState : CopiesInWindow (Setup.direct ℕ) windowState 1 2 8 :=
  ⟨⟨[], 0, by decide⟩, .inl (by decide), ⟨trivial, by decide, by decide⟩, by decide⟩

theorem windowRun_refused_isSome : ((machine (Setup.direct ℕ)).exec checkQuiet windowState
    (.tx 2 .step :: accesses ℕ 2 2)).isSome := by decide

theorem copyRefused_window : RefusesCopy 2 8 (windowState.shared.mem 8) (accesses ℕ 2 2)
    (((machine (Setup.direct ℕ)).exec checkQuiet windowState
      (.tx 2 .step :: accesses ℕ 2 2)).get windowRun_refused_isSome) :=
  copyRefused
    (LabelledSystem.reachable_of_exec (fun _ _ _ => undisturbed_of_checkQuiet) windowRun_isSome)
    copiesInWindow_windowState
    (LabelledSystem.run_of_exec (fun _ _ _ => undisturbed_of_checkQuiet)
      (Option.eq_some_of_isSome windowRun_refused_isSome))

/-- Transaction 2 loads the version of the lock, transaction 1 publishes the word, and transaction
2 finds the lock bit clear. -/
def splitWindow : List (Label ℕ) := accesses ℕ 2 1 ++ accesses ℕ 1 1 ++ accesses ℕ 2 1

theorem windowRun_plain_isSome : ((machine (Setup.plain ℕ)).exec (fun _ _ _ => true)
    (machine (Setup.plain ℕ)).init windowRun).isSome := by decide

theorem splitWindow_isSome : ((machine (Setup.plain ℕ)).exec (fun _ _ _ => true)
    (((machine (Setup.plain ℕ)).exec (fun _ _ _ => true) (machine (Setup.plain ℕ)).init
      windowRun).get windowRun_plain_isSome) (.tx 2 .step :: splitWindow)).isSome := by decide

/-- With a `setVersion` between the two loads of the post-validation, a word is accepted that was
copied in the window of its commit. -/
theorem copyRefused_fails : ¬ ∀ s t u a as s',
    (machine (Setup.plain ℕ)).Reachable LabelledSystem.always s →
    CopiesInWindow (Setup.plain ℕ) s t u a →
    (machine (Setup.plain ℕ)).Run LabelledSystem.always s (.tx u .step :: as) s' →
    RefusesCopy u a (s.shared.mem a) as s' := by
  intro hall
  have hrefuses := hall _ 1 2 8 splitWindow _
    (LabelledSystem.reachable_of_exec (fun _ _ _ _ => trivial) windowRun_plain_isSome)
    ⟨⟨[], 0, by decide⟩, .inl (by decide), ⟨trivial, by decide, by decide⟩, by decide⟩
    (LabelledSystem.run_of_exec (fun _ _ _ _ => trivial)
      (Option.eq_some_of_isSome splitWindow_isSome))
  exact absurd (hrefuses.refused (by decide)) (by decide)

end TransactionalMemory
