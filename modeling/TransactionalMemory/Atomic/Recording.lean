import TransactionalMemory.Atomic.Clock
import TransactionalMemory.Sequential.Serialization

/-!
# Recorded runs

The machine with a record of what its transactions have done: the operations of each transaction
with the words they returned, and the steps at which it began and at which its outcome was
decided. No step of the machine reads the record (`recorded_of_run`, `Recorded.run_state`).

* `Journal` relates the operations of a transaction to its object and to the words it accepted:
  from every memory that agrees with these words, the operations replay, and lead to the memory
  with the write set laid over it. Every command keeps it (`Journal.act`).
* `Times` relates the steps recorded to each other and to the read and write versions
  (`times_of_reachable`).

An outcome is decided when `tm_end` starts to write back, or returns at once because the
transaction is read-only. From then on the object and the write version do not change
(`decided_move`).
-/

namespace TransactionalMemory

open VersionedWriteLock UnorderedMap Tx

variable {V : Type} {S : Setup V} {t u : Tid} {sh sh' : Shared V} {x x' : Tx V} {s s' : State V}
  {c : Command V} {ops : List (Op V)}

namespace Tx

/-- The transaction is going to be committed, or has been. -/
def decided (x : Tx V) : Bool :=
  match x.pc with
  | .writeBack _ | .publish .. | .committed => true
  | _ => false

/-- What a command adds to the operations of its transaction: a buffered word, or a word that
`tm_read` has accepted. -/
def performed (x x' : Tx V) : Command V → List (Op V)
  | .write a val => [.write [(a, val)]]
  | .step =>
    match x.pc, x'.pc with
    | .readPostLocked a _ _ val _, .read _ => [.read [a] [val]]
    | _, _ => []
  | _ => []

end Tx

/-- A state of the machine with the record of the run that led to it. -/
structure Recorded (V : Type) where
  /-- The state. -/
  state : State V
  /-- The number of steps taken. -/
  time : ℕ
  /-- The operations of each transaction, with what they returned. -/
  ops : Tid → List (Op V)
  /-- The step at which a transaction began. -/
  began : Tid → ℕ
  /-- The step at which it was decided that a transaction commits. -/
  decided : Tid → ℕ

/-- The record after a command of `t` that leads to the state `s'`. -/
def Recorded.record (w : Recorded V) (t : Tid) (c : Command V) (s' : State V) : Recorded V where
  state := s'
  time := w.time + 1
  ops := Function.update w.ops t (w.ops t ++ (w.state.tx t).performed (s'.tx t) c)
  began := match c with
    | .begin _ => Function.update w.began t w.time
    | _ => w.began
  decided := if (s'.tx t).decided ∧ ¬ (w.state.tx t).decided then
    Function.update w.decided t w.time else w.decided

/-- The record after a step that leads to the state `s'`. -/
def Recorded.next (w : Recorded V) (s' : State V) : Label V → Recorded V
  | .tx t c => w.record t c s'
  | .otherRegion => { w with state := s' }

/-- The machine, recording its runs. -/
def recording [Zero V] (S : Setup V) : LabelledSystem (Recorded V) (Label V) where
  init := {
    state := (machine S).init
    time := 0
    ops := fun _ => []
    began := fun _ => 0
    decided := fun _ => 0 }
  step w lab := ((machine S).step w.state lab).map fun s' => w.next s' lab

/-- A side condition on the steps of the machine, for recorded runs. -/
def recordedStep (ok : State V → Label V → State V → Prop) :
    Recorded V → Label V → Recorded V → Prop :=
  fun w lab w' => ok w.state lab w'.state

/-- Only transactions that are not declared read-only write, as the interface asks of its
callers. -/
def writesInUpdates : State V → Label V → State V → Prop :=
  fun s lab _ => ∀ t a val, lab = .tx t (.write a val) → (s.tx t).txn.isRo = false

variable {w w' : Recorded V}

/-- Recording does not change the state. -/
@[simp] theorem Recorded.next_state (lab : Label V) : (w.next s' lab).state = s' := by
  cases lab <;> rfl

/-- A step of a recorded run is a move of one transaction or a tick from another region. -/
theorem recording_cases [Zero V] {lab : Label V} (h : (recording S).step w lab = some w') :
    (∃ t c sh' x', lab = .tx t c ∧
      (w.state.tx t).act S t w.state.shared c = some (sh', x') ∧
      w' = w.record t c (w.state.moved t sh' x')) ∨
    (lab = .otherRegion ∧ w' = { w with state := w.state.ticked }) := by
  obtain ⟨s', hstep, rfl⟩ := Option.map_eq_some_iff.1 h
  cases lab with
  | tx t c =>
    obtain ⟨⟨sh', x'⟩, hact, rfl⟩ := Option.map_eq_some_iff.1 hstep
    exact .inl ⟨t, c, sh', x', rfl, hact, rfl⟩
  | otherRegion =>
    obtain rfl := Option.some.inj hstep
    exact .inr ⟨rfl, rfl⟩

/-- A recorded run is a run of the machine. -/
theorem Recorded.run_state [Zero V] {ok : State V → Label V → State V → Prop}
    {labs : List (Label V)} (h : (recording S).Run (recordedStep ok) w labs w') :
    (machine S).Run ok w.state labs w'.state := by
  induction h with
  | nil => exact .nil _
  | snoc _ hstep hok ih =>
    obtain ⟨s', hs', rfl⟩ := Option.map_eq_some_iff.1 hstep
    rw [recordedStep, Recorded.next_state] at hok
    rw [Recorded.next_state]
    exact ih.snoc hs' hok

/-- Every run of the machine can be recorded. -/
theorem recorded_of_run [Zero V] {ok : State V → Label V → State V → Prop}
    {labs : List (Label V)} (h : (machine S).Run ok s labs s') (hw : w.state = s) :
    ∃ w', (recording S).Run (recordedStep ok) w labs w' ∧ w'.state = s' := by
  induction h with
  | nil => exact ⟨w, .nil _, hw⟩
  | snoc _ hstep hok ih =>
    obtain ⟨w₁, hrun, rfl⟩ := ih
    refine ⟨_, hrun.snoc (Option.map_eq_some_iff.2 ⟨_, hstep, rfl⟩) ?_, Recorded.next_state _⟩
    rwa [recordedStep, Recorded.next_state]

/-- The recorded states are those of the machine. -/
theorem Recorded.reachable_state [Zero V] {ok : State V → Label V → State V → Prop}
    (h : (recording S).Reachable (recordedStep ok) w) : (machine S).Reachable ok w.state := by
  obtain ⟨labs, hrun⟩ := h
  exact ⟨labs, run_state hrun⟩

/-! ## The operations -/

/-- The operations of a transaction, its object and the words it accepted. -/
structure Journal (x : Tx V) (ops : List (Op V)) : Prop where
  /-- Where the words accepted are found, the operations return what they returned, and buffer
  the write set. -/
  replays : ∀ m : Addr → V, (∀ a v, (a, v) ∈ x.seen → m a = v) →
    Replays ops m (overlay x.txn.writeSet m)
  readOnly : x.txn.isRo = true → x.txn.writeSet = ∅
  /-- An accepted word of an update transaction is validated in `tm_end`. -/
  seen_read : ∀ a v, (a, v) ∈ x.seen → x.txn.isRo = false → a ∈ x.txn.readSet
  /-- A word that is not copied from shared memory is copied from the write set. -/
  buffered : ∀ a todo version val, (x.pc = .readPostVersion a todo version val ∨
    ∃ newVersion, x.pc = .readPostLocked a todo version val newVersion) →
      ¬ x.ReadsShared a → x.txn.writeSet.lookup a = some val
  unborn : x.pc = .unborn → ops = [] ∧ x.seen = []

namespace Journal

/-- A command that neither writes, nor accepts a word, nor copies one. -/
theorem quiet (h : Journal x ops) (htxn : x'.txn = x.txn) (hseen : x'.seen = x.seen)
    (hborn : x'.pc ≠ .unborn)
    (hcopy : ∀ a todo version val, (x'.pc = .readPostVersion a todo version val ∨
      ∃ newVersion, x'.pc = .readPostLocked a todo version val newVersion) →
        ¬ x'.ReadsShared a → x'.txn.writeSet.lookup a = some val) :
    Journal x' ops where
  replays m hm := by
    rw [htxn]
    exact h.replays m (hseen ▸ hm)
  readOnly := by
    rw [htxn]
    exact h.readOnly
  seen_read := by
    rw [htxn, hseen]
    exact h.seen_read
  buffered := hcopy
  unborn hpc := absurd hpc hborn

/-- An update transaction buffers a word. -/
theorem write (h : Journal x ops) (hpc : x.pc = .idle) (hro : x.txn.isRo = false) (a : Addr)
    (val : V) :
    Journal { x with
      txn := { x.txn with writeSet := x.txn.writeSet.insert a val }
      accessed := a :: x.accessed } (ops ++ [.write [(a, val)]]) where
  replays m hm := by
    refine replays_append.2 ⟨_, h.replays m hm, ?_⟩
    show overlay (x.txn.writeSet.insert a val) m = _
    rw [overlay_insert]
    rfl
  readOnly hro' := by
    rw [show x.txn.isRo = true from hro'] at hro
    cases hro
  seen_read b v hseen hro' := h.seen_read b v hseen hro'
  buffered b todo version val' hcopied := by
    simp [hpc] at hcopied
  unborn hborn := by
    rw [show x.pc = .unborn from hborn] at hpc
    cases hpc

/-- `tm_read` accepts a word. -/
theorem accept (h : Journal x ops) {a : Addr} {todo : List Addr} {version newVersion : Word}
    {val : V} (hpc : x.pc = .readPostLocked a todo version val newVersion) :
    Journal (x.acceptWord a val todo) (ops ++ [.read [a] [val]]) where
  replays m hm := by
    by_cases hshared : x.ReadsShared a
    · -- the word was copied from shared memory, and is not in the write set
      simp only [acceptWord, if_pos hshared, List.mem_append, List.mem_singleton] at hm
      refine replays_append.2 ⟨_, h.replays m fun b v hb => hm b v (.inl hb), ?_, rfl⟩
      have hlookup : x.txn.writeSet.lookup a = none := by
        rcases hshared with hro | hnot
        · rw [h.readOnly hro, AList.lookup_empty]
        · exact AList.lookup_eq_none.2 hnot
      simp only [List.map_cons, List.map_nil, overlay, hlookup, Option.getD_none,
        hm a val (.inr rfl)]
    · simp only [acceptWord, if_neg hshared] at hm
      refine replays_append.2 ⟨_, h.replays m hm, ?_, rfl⟩
      have hlookup := h.buffered a todo version val (.inr ⟨newVersion, hpc⟩) hshared
      simp only [List.map_cons, List.map_nil, overlay, hlookup, Option.getD_some]
  readOnly := h.readOnly
  seen_read b v hseen hro := by
    have hro' : x.txn.isRo = false := hro
    simp only [acceptWord, Transaction.recordRead, hro', Bool.false_eq_true, if_false,
      UnorderedSet.mem_insert] at hseen ⊢
    split at hseen
    · rcases List.mem_append.1 hseen with hold | hnew
      · exact .inr (h.seen_read b v hold hro')
      · exact .inl (Prod.mk.inj (List.mem_singleton.1 hnew)).1
    · exact .inr (h.seen_read b v hseen hro')
  buffered b todo' version' val' hcopied := by
    simp [acceptWord] at hcopied
  unborn hborn := by
    simp [acceptWord] at hborn

/-- The copy of `tm_read`. -/
theorem copy (h : Journal x ops) {mem : Addr → V} {a : Addr} {todo : List Addr} {version : Word} :
    Journal { x with pc := .readPostVersion a todo version (x.txn.wordAt mem a) } ops := by
  refine h.quiet rfl rfl (by simp) fun b todo' version' val hcopied hshared => ?_
  simp only [Pc.readPostVersion.injEq, reduceCtorEq, exists_false, or_false] at hcopied
  obtain ⟨rfl, -, -, rfl⟩ := hcopied
  simp only [ReadsShared, not_or, Bool.not_eq_true, not_not] at hshared
  obtain ⟨v, hv⟩ := mem_iff_lookup.1 hshared.2
  rw [Transaction.wordAt_update hshared.1, overlay, hv, Option.getD_some]

/-- Every atomic access of the calls in progress keeps the journal. -/
theorem step (h : Journal x ops) (hact : x.act S t sh .step = some (sh', x')) :
    Journal x' (ops ++ x.performed x' .step) := by
  have hmove := move_of_act hact
  cases hmove with
  -- calls are not atomic accesses
  | begin _ hpc | callRead _ hpc | write _ _ hpc | endRo hpc | callEnd hpc =>
    simp [Tx.act, Tx.step, hpc] at hact
  | readAccept a todo version val newVersion hpc =>
    simpa [performed, hpc, acceptWord] using h.accept hpc
  | readCopy a todo version hpc =>
    simpa [performed, hpc] using h.copy
  | readPostVersion a todo version val hpc =>
    simp only [performed, hpc, List.append_nil]
    refine h.quiet rfl rfl (by simp) fun b todo' version' val' hcopied hshared => ?_
    simp only [reduceCtorEq, Pc.readPostLocked.injEq, false_or, exists_and_left] at hcopied
    obtain ⟨rfl, -, -, rfl, -⟩ := hcopied
    exact h.buffered a todo version val (.inl hpc) hshared
  -- the other control points
  | readDone hpc | readStart _ _ hpc | readPreFail _ _ _ hpc | readPrePass _ _ _ hpc
  | readPostFail _ _ _ _ _ hpc | lockLoad _ _ hpc | lockTake _ _ _ hpc | lockAgain _ _ _ hpc
  | lockFail _ _ _ hpc | unlockDone hpc | unlockLoad _ _ hpc | unlockStore _ _ _ hpc
  | clockValidate hpc | clockSkip hpc | validateDone hpc | validateFree _ _ hpc
  | validateLockedFail _ _ hpc | writeDone hpc | store _ _ hpc | publish _ _ hpc =>
    simp only [performed, hpc, giveUp, startWriteBack, List.append_nil]
    exact h.quiet rfl rfl (by simp) (by simp)
  | validateVersionPass _ _ hpc | validateVersionFail _ _ hpc =>
    rcases hpc with hpc | ⟨hpc, -⟩
    all_goals
      simp only [performed, hpc, giveUp, List.append_nil]
      exact h.quiet rfl rfl (by simp) (by simp)

/-- Every command keeps the journal, if only update transactions write. -/
theorem act (h : Journal x ops) (hact : x.act S t sh c = some (sh', x'))
    (hwrites : ∀ a val, c = .write a val → x.txn.isRo = false) :
    Journal x' (ops ++ x.performed x' c) := by
  cases c with
  | step => exact h.step hact
  | write a val =>
    unfold Tx.act at hact
    dsimp only at hact
    split at hact
    next hpc =>
      cases hact
      exact h.write hpc (hwrites a val rfl) a val
    next => cases hact
  | begin isRo =>
    unfold Tx.act at hact
    dsimp only at hact
    split at hact
    next hpc =>
      cases hact
      obtain ⟨rfl, hseen⟩ := h.unborn hpc
      exact {
        replays := fun m _ => rfl
        readOnly := fun _ => rfl
        seen_read := fun a v hmem => by
          rw [show x.seen = [] from hseen] at hmem
          exact absurd hmem List.not_mem_nil
        buffered := fun _ _ _ _ hcopied => by simp at hcopied
        unborn := fun hborn => by simp at hborn }
    next => cases hact
  | read addrs =>
    unfold Tx.act at hact
    dsimp only at hact
    split at hact
    next hpc =>
      cases hact
      simp only [performed, List.append_nil]
      exact h.quiet rfl rfl (by simp) (by simp)
    next => cases hact
  | endTx =>
    unfold Tx.act at hact
    dsimp only at hact
    split at hact
    next hpc =>
      split at hact
      all_goals
        cases hact
        simp only [performed, List.append_nil]
        exact h.quiet rfl rfl (by simp) (by simp)
    next => cases hact

end Journal

/-- The journals of a recorded run. -/
theorem journal_of_reachable [Zero V]
    (h : (recording S).Reachable (recordedStep writesInUpdates) w) (t : Tid) :
    Journal (w.state.tx t) (w.ops t) := by
  refine h.invariant (I := fun w => ∀ t, Journal (w.state.tx t) (w.ops t)) ?_ ?_ t
  · exact fun t => {
      replays := fun m _ => rfl
      readOnly := fun _ => rfl
      seen_read := fun _ _ hmem => absurd hmem List.not_mem_nil
      buffered := fun _ _ _ _ hcopied => by simp [recording, machine, Tx.unborn] at hcopied
      unborn := fun _ => ⟨rfl, rfl⟩ }
  intro w lab w' _ ih hstep hok u
  rcases recording_cases hstep with ⟨t, c, sh', x', rfl, hact, rfl⟩ | ⟨rfl, rfl⟩
  · by_cases hut : u = t
    · subst hut
      simpa [Recorded.record] using (ih u).act hact fun a val hc => hok u a val (by rw [hc])
    · simpa [Recorded.record, hut] using ih u
  · exact ih u

/-! ## The times -/

/-- Once it is decided that a transaction commits, its object and its write version stay. -/
theorem decided_move (hmove : Move S t sh x sh' x') (h : x.decided = true) :
    x'.decided = true ∧ x'.txn = x.txn ∧ x'.wv = x.wv := by
  unfold Tx.decided at h
  cases hmove with
  | writeDone | store | publish => exact ⟨rfl, rfl, rfl⟩
  | validateVersionPass _ _ hpc | validateVersionFail _ _ hpc =>
    rcases hpc with hpc | ⟨hpc, -⟩ <;> simp [hpc] at h
  | begin _ hpc | callRead _ hpc | write _ _ hpc | endRo hpc | callEnd hpc | readDone hpc
  | readStart _ _ hpc | readPreFail _ _ _ hpc | readPrePass _ _ _ hpc | readCopy _ _ _ hpc
  | readPostVersion _ _ _ _ hpc | readPostFail _ _ _ _ _ hpc | readAccept _ _ _ _ _ hpc
  | lockLoad _ _ hpc | lockTake _ _ _ hpc | lockAgain _ _ _ hpc | lockFail _ _ _ hpc
  | unlockDone hpc | unlockLoad _ _ hpc | unlockStore _ _ _ hpc | clockValidate hpc
  | clockSkip hpc | validateDone hpc | validateFree _ _ hpc | validateLockedFail _ _ hpc =>
    simp [hpc] at h

/-- A transaction begins with its first command, which sets its read version to the clock. The
other commands keep the read version. -/
theorem begin_of_act (hact : x.act S t sh c = some (sh', x')) :
    (x.pc = .unborn ∧ (∃ isRo, c = .begin isRo) ∧ x'.txn.rv = sh.gvc ∧ x'.pc = .idle) ∨
    (x.pc ≠ .unborn ∧ (∀ isRo, c ≠ .begin isRo) ∧ x'.txn.rv = x.txn.rv ∧ x'.pc ≠ .unborn) := by
  have hmove := move_of_act hact
  by_cases hpc : x.pc = .unborn
  · -- no other command is accepted
    refine .inl ⟨hpc, ?_⟩
    cases c with
    | begin isRo =>
      simp only [Tx.act, hpc, Option.some.injEq, Prod.mk.injEq] at hact
      obtain ⟨-, rfl⟩ := hact
      exact ⟨⟨isRo, rfl⟩, rfl, rfl⟩
    | _ => simp [Tx.act, Tx.step, hpc] at hact
  · refine .inr ⟨hpc, ?_, ?_⟩
    · rintro isRo rfl
      unfold Tx.act at hact
      dsimp only at hact
      split at hact
      next hborn => exact hpc hborn
      next => cases hact
    · cases hmove with
      | begin isRo hborn => exact absurd hborn hpc
      | write a val hidle => simp [hidle]
      | _ => exact ⟨rfl, by simp [giveUp, startWriteBack, acceptWord]⟩

namespace Recorded

/-- `tm_begin` of the transaction has been called. -/
def Begun (w : Recorded V) (t : Tid) : Prop := (w.state.tx t).pc ≠ .unborn

/-- What a step does to the record of the transaction that takes it. -/
inductive Entry (w w' : Recorded V) (t : Tid) : Prop where
  | begins (hnew : ¬ w.Begun t) (hborn : w'.Begun t) (hbegan : w'.began t = w.time)
      (hrv : (w'.state.tx t).txn.rv = w.state.shared.gvc)
      (hopen : (w'.state.tx t).decided = false)
  | decides (hborn : w.Begun t) (hborn' : w'.Begun t) (hbegan : w'.began t = w.began t)
      (hrv : (w'.state.tx t).txn.rv = (w.state.tx t).txn.rv)
      (hopen : (w.state.tx t).decided = false) (hdecided : w'.decided t = w.time)
  | keeps (hborn : w.Begun t) (hborn' : w'.Begun t) (hbegan : w'.began t = w.began t)
      (hrv : (w'.state.tx t).txn.rv = (w.state.tx t).txn.rv)
      (hdecided : (w'.state.tx t).decided = true → (w.state.tx t).decided = true ∧
        w'.decided t = w.decided t ∧ (w'.state.tx t).txn = (w.state.tx t).txn ∧
        (w'.state.tx t).wv = (w.state.tx t).wv)

/-- What a step adds to the record of its transaction. -/
theorem entry_record (hact : (w.state.tx t).act S t w.state.shared c = some (sh', x')) :
    Entry w (w.record t c (w.state.moved t sh' x')) t := by
  have hmove := move_of_act hact
  rcases begin_of_act hact with ⟨hpc, ⟨isRo, rfl⟩, hrv, hidle⟩ | ⟨hpc, hc, hrv, hborn⟩
  · refine .begins (not_not.2 hpc) ?_ ?_ ?_ ?_
    · simp [Begun, record, hidle]
    · simp [record]
    · simpa [record] using hrv
    · simp [record, Tx.decided, hidle]
  · have hbegan : (w.record t c (w.state.moved t sh' x')).began t = w.began t := by
      unfold record
      dsimp only
      split
      next isRo => exact absurd rfl (hc isRo)
      next => rfl
    have hborn' : (w.record t c (w.state.moved t sh' x')).Begun t := by
      simpa [Begun, record] using hborn
    cases hd : (w.state.tx t).decided with
    | true =>
      refine .keeps hpc hborn' hbegan (by simpa [record] using hrv) fun _ => ?_
      obtain ⟨-, htxn, hwv⟩ := decided_move hmove hd
      simp [record, hd, htxn, hwv]
    | false =>
      cases hd' : x'.decided with
      | true =>
        exact .decides hpc hborn' hbegan (by simpa [record] using hrv) hd
          (by simp [record, hd, hd'])
      | false =>
        refine .keeps hpc hborn' hbegan (by simpa [record] using hrv) fun hnow => ?_
        simp [record, hd'] at hnow

/-- A step leaves the record of the other transactions alone. -/
theorem record_of_ne (w : Recorded V) (c : Command V) (sh' : Shared V) (x' : Tx V)
    (hut : u ≠ t) :
    (w.record t c (w.state.moved t sh' x')).state.tx u = w.state.tx u ∧
    (w.record t c (w.state.moved t sh' x')).began u = w.began u ∧
    (w.record t c (w.state.moved t sh' x')).decided u = w.decided u := by
  refine ⟨by simp [record, hut], ?_, ?_⟩
  · unfold record
    dsimp only
    split <;> simp [hut]
  · unfold record
    dsimp only
    split <;> simp [hut]

/-- A transaction that has begun did so before, or begins with this step. -/
theorem begun_record (hact : (w.state.tx t).act S t w.state.shared c = some (sh', x'))
    (hw' : w' = w.record t c (w.state.moved t sh' x')) (hu : w'.Begun u) :
    (w.Begun u ∧ w'.began u = w.began u ∧
      (w'.state.tx u).txn.rv = (w.state.tx u).txn.rv) ∨
    (u = t ∧ ¬ w.Begun u ∧ w'.began u = w.time ∧
      (w'.state.tx u).txn.rv = w.state.shared.gvc) := by
  subst hw'
  by_cases hut : u = t
  · subst hut
    cases entry_record hact with
    | begins hnew _ hbegan hrv => exact .inr ⟨rfl, hnew, hbegan, hrv⟩
    | decides hborn _ hbegan hrv | keeps hborn _ hbegan hrv => exact .inl ⟨hborn, hbegan, hrv⟩
  · obtain ⟨htx, hbegan, -⟩ := record_of_ne w c sh' x' hut
    rw [Begun, htx] at hu
    exact .inl ⟨hu, hbegan, by rw [htx]⟩

/-- A transaction that has begun keeps the step at which it did. -/
theorem begun_kept (hact : (w.state.tx t).act S t w.state.shared c = some (sh', x'))
    (hw' : w' = w.record t c (w.state.moved t sh' x')) (hu : w.Begun u) :
    w'.Begun u ∧ w'.began u = w.began u := by
  subst hw'
  by_cases hut : u = t
  · subst hut
    cases entry_record hact with
    | begins hnew => exact absurd hu hnew
    | decides _ hborn hbegan | keeps _ hborn hbegan => exact ⟨hborn, hbegan⟩
  · obtain ⟨htx, hbegan, -⟩ := record_of_ne w c sh' x' hut
    exact ⟨by rwa [Begun, htx], hbegan⟩

/-- A decision was made before, or is made by this step. -/
theorem decided_record (hact : (w.state.tx t).act S t w.state.shared c = some (sh', x'))
    (hw' : w' = w.record t c (w.state.moved t sh' x'))
    (hu : (w'.state.tx u).decided = true) :
    ((w.state.tx u).decided = true ∧ w'.decided u = w.decided u ∧
      (w'.state.tx u).txn = (w.state.tx u).txn ∧ (w'.state.tx u).wv = (w.state.tx u).wv) ∨
    (u = t ∧ w.Begun u ∧ (w.state.tx u).decided = false ∧ w'.decided u = w.time) := by
  subst hw'
  by_cases hut : u = t
  · subst hut
    cases entry_record hact with
    | begins _ _ _ _ hopen =>
      rw [hopen] at hu
      cases hu
    | decides hborn _ _ _ hopen hdecided => exact .inr ⟨rfl, hborn, hopen, hdecided⟩
    | keeps _ _ _ _ hdecided => exact .inl (hdecided hu)
  · obtain ⟨htx, -, hdecided⟩ := record_of_ne w c sh' x' hut
    rw [htx] at hu ⊢
    exact .inl ⟨hu, hdecided, rfl, rfl⟩

end Recorded

/-- The order of the steps recorded. -/
structure Times (w : Recorded V) : Prop where
  began_lt : ∀ t, w.Begun t → w.began t < w.time
  began_inj : ∀ t u, w.Begun t → w.Begun u → w.began t = w.began u → t = u
  /-- A later transaction has a read version at least as great. -/
  began_mono : ∀ t u, w.Begun t → w.Begun u → w.began t ≤ w.began u →
    (w.state.tx t).txn.rv.toNat ≤ (w.state.tx u).txn.rv.toNat
  decided_lt : ∀ t, (w.state.tx t).decided = true → w.decided t < w.time
  decided_inj : ∀ t u, (w.state.tx t).decided = true → (w.state.tx u).decided = true →
    w.decided t = w.decided u → t = u
  began_decided : ∀ t, (w.state.tx t).decided = true → w.Begun t ∧ w.began t < w.decided t
  /-- The write version of a transaction decided before another one began is at most the read
  version of that one. -/
  realTime : ∀ t u, (w.state.tx t).decided = true → (w.state.tx t).txn.isRo = false →
    w.Begun u → w.decided t < w.began u →
      (w.state.tx t).wv.toNat ≤ (w.state.tx u).txn.rv.toNat
  finite : ∃ ts : List Tid, ∀ t, w.Begun t → t ∈ ts

/-- A transaction that commits has drawn its write version, unless it is read-only. -/
theorem stamped_of_decided (h : x.decided = true) (hro : x.txn.isRo = false) : x.Stamped := by
  unfold Tx.decided at h
  unfold Stamped
  split at h <;> simp_all

/-- The times stay in order. -/
theorem Times.record (h : Times w) (hclocked : Clocked S w.state)
    (hact : (w.state.tx t).act S t w.state.shared c = some (sh', x')) :
    Times (w.record t c (w.state.moved t sh' x')) := by
  obtain ⟨w', hw'⟩ : ∃ w', w' = w.record t c (w.state.moved t sh' x') := ⟨_, rfl⟩
  have htime : w'.time = w.time + 1 := by
    rw [hw']
    rfl
  have hbegun := fun u => Recorded.begun_record (u := u) hact hw'
  have hdecided := fun u => Recorded.decided_record (u := u) hact hw'
  rw [← hw']
  exact {
    began_lt := fun u hu => by
      rcases hbegun u hu with ⟨hold, hb, -⟩ | ⟨-, -, hb, -⟩
      · have := h.began_lt u hold
        omega
      · omega
    began_inj := fun u v hu hv heq => by
      -- the step of a transaction that begins now is later than all others
      rcases hbegun u hu with ⟨hold, hb, -⟩ | ⟨rfl, -, hb, -⟩ <;>
        rcases hbegun v hv with ⟨hold', hb', -⟩ | ⟨rfl, -, hb', -⟩
      · exact h.began_inj u v hold hold' (by omega)
      · have := h.began_lt u hold
        omega
      · have := h.began_lt v hold'
        omega
      · rfl
    began_mono := fun u v hu hv hle => by
      -- and so is its read version
      rcases hbegun u hu with ⟨hold, hb, hrv⟩ | ⟨rfl, -, hb, hrv⟩ <;>
        rcases hbegun v hv with ⟨hold', hb', hrv'⟩ | ⟨rfl, -, hb', hrv'⟩
      · rw [hrv, hrv']
        exact h.began_mono u v hold hold' (by omega)
      · rw [hrv, hrv']
        exact hclocked.rv_le u
      · have := h.began_lt v hold'
        omega
      · rfl
    decided_lt := fun u hu => by
      rcases hdecided u hu with ⟨hold, hd, -⟩ | ⟨-, -, -, hd⟩
      · have := h.decided_lt u hold
        omega
      · omega
    decided_inj := fun u v hu hv heq => by
      rcases hdecided u hu with ⟨hold, hd, -⟩ | ⟨rfl, -, -, hd⟩ <;>
        rcases hdecided v hv with ⟨hold', hd', -⟩ | ⟨rfl, -, -, hd'⟩
      · exact h.decided_inj u v hold hold' (by omega)
      · have := h.decided_lt u hold
        omega
      · have := h.decided_lt v hold'
        omega
      · rfl
    began_decided := fun u hu => by
      rcases hdecided u hu with ⟨hold, hd, -⟩ | ⟨-, hold, -, hd⟩
      · obtain ⟨hb, hlt⟩ := h.began_decided u hold
        obtain ⟨hb', hsame⟩ := Recorded.begun_kept hact hw' hb
        exact ⟨hb', by omega⟩
      · obtain ⟨hb', hsame⟩ := Recorded.begun_kept hact hw' hold
        have := h.began_lt u hold
        exact ⟨hb', by omega⟩
    realTime := fun u v hu hro hv hlt => by
      rcases hdecided u hu with ⟨hold, hd, htxn, hwv⟩ | ⟨-, -, -, hd⟩ <;>
        rcases hbegun v hv with ⟨hold', hb', hrv'⟩ | ⟨-, -, hb', hrv'⟩
      · rw [hwv, hrv']
        exact h.realTime u v hold (htxn ▸ hro) hold' (by omega)
      · rw [hwv, hrv']
        exact hclocked.stamped_le u (stamped_of_decided hold (htxn ▸ hro))
      · have := h.began_lt v hold'
        omega
      · omega
    finite := by
      obtain ⟨ts, hts⟩ := h.finite
      refine ⟨t :: ts, fun u hu => ?_⟩
      rcases hbegun u hu with ⟨hold, -⟩ | ⟨rfl, -⟩
      · exact List.mem_cons_of_mem _ (hts u hold)
      · exact List.mem_cons_self }

/-- The steps are in order in every recorded run that keeps the clock below `2 ^ 63`. -/
theorem times_of_reachable [Zero V]
    (h : (recording S).Reachable (recordedStep (clockBelow (2 ^ 63))) w) : Times w := by
  refine h.invariant ?_ fun w lab w' hreach ih hstep _ => ?_
  · have hborn : ∀ t, ¬ (recording S).init.Begun t := fun t hb => hb rfl
    have hopen : ∀ t, ((recording S).init.state.tx t).decided ≠ true := by
      intro t
      simp [recording, machine, Tx.unborn, Tx.decided]
    exact {
      began_lt := fun t ht => absurd ht (hborn t)
      began_inj := fun t _ ht => absurd ht (hborn t)
      began_mono := fun t _ ht => absurd ht (hborn t)
      decided_lt := fun t ht => absurd ht (hopen t)
      decided_inj := fun t _ ht => absurd ht (hopen t)
      began_decided := fun t ht => absurd ht (hopen t)
      realTime := fun t _ ht => absurd ht (hopen t)
      finite := ⟨[], fun t ht => absurd ht (hborn t)⟩ }
  rcases recording_cases hstep with ⟨t, c, sh', x', -, hact, rfl⟩ | ⟨-, rfl⟩
  · exact ih.record (clocked_of_reachable (Recorded.reachable_state hreach)) hact
  · exact { ih with }

end TransactionalMemory
