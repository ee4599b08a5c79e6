import TransactionalMemory.Atomic.Serializability
import TransactionalMemory.Foundations.Programs

/-!
# Programs as transactions

Each transaction executes a program that accesses single words. `executes` is the side condition:
`tm_read` and `tm_write` are called for the next access of the program, with what the calls so far
have returned, and `tm_end` when the program has returned. A program that is refused and tried again
is another transaction with the same program.

`RunsAlone` is what concurrent programs are meant to come to: there is an order of the
transactions in which each of them, executed alone on what the committed ones before it have left,
returns what it returned in the concurrent run.
-/

namespace TransactionalMemory

open VersionedWriteLock UnorderedMap Tx

variable {V R : Type} {S : Setup V} {t u : Tid} {sh sh' : Shared V} {x x' : Tx V} {s s' : State V}
  {c : Command V} {w w' : Recorded V} {programs : Tid → WordProgram Addr V R}

/-! ## Accesses -/

/-- The accesses of an operation. -/
def Op.accesses : Op V → List (WordAccess Addr V)
  | .read addrs vals => List.zipWith .read addrs vals
  | .write entries => entries.map fun e => .write e.1 e.2
  | .alloc _ _ => []

/-- Reads of the words in memory replay. -/
theorem replays_zipWith {m : Addr → V} (addrs : List Addr) :
    WordProgram.Replays (List.zipWith .read addrs (addrs.map m)) m m := by
  induction addrs with
  | nil => rfl
  | cons a addrs ih => exact ⟨rfl, ih⟩

/-- Writes replay as stores. -/
theorem replays_storeAll {m : Addr → V} (entries : List (Addr × V)) :
    WordProgram.Replays (entries.map fun e => .write e.1 e.2) m (storeAll entries m) := by
  induction entries generalizing m with
  | nil => rfl
  | cons e entries ih => exact ih

/-- Operations that replay consist of accesses that do. -/
theorem replays_accesses {ops : List (Op V)} {m m' : Addr → V} (h : Replays ops m m') :
    WordProgram.Replays (ops.flatMap Op.accesses) m m' := by
  induction ops generalizing m with
  | nil => exact h
  | cons op ops ih =>
    rw [List.flatMap_cons, WordProgram.replays_append]
    cases op with
    | read addrs vals =>
      obtain ⟨rfl, hrest⟩ := h
      exact ⟨m, replays_zipWith addrs, ih hrest⟩
    | write entries => exact ⟨_, replays_storeAll entries, ih h⟩
    | alloc seg words => exact ⟨m, rfl, ih h⟩

/-! ## Executing programs -/

namespace Recorded

/-- The accesses of a transaction. -/
def accesses (w : Recorded V) (t : Tid) : List (WordAccess Addr V) :=
  (w.ops t).flatMap Op.accesses

/-- What the program of a transaction has still to do. -/
def rest [DecidableEq V] (w : Recorded V) (programs : Tid → WordProgram Addr V R) (t : Tid) :
    Option (WordProgram Addr V R) :=
  (programs t).after (w.accesses t)

end Recorded

variable [DecidableEq V]

/-- The command is the next one of a program. -/
def Command.continues : Command V → Option (WordProgram Addr V R) → Prop
  | .read addrs, rest => ∃ a next, addrs = [a] ∧ rest = some (.read a next)
  | .write a val, rest => ∃ next, rest = some (.write a val next)
  | .endTx, rest => ∃ result, rest = some (.ret result)
  | _, _ => True

/-- The transactions execute programs. -/
def executes (programs : Tid → WordProgram Addr V R) :
    Recorded V → Label V → Recorded V → Prop :=
  fun w lab _ => ∀ t c, lab = .tx t c → c.continues (w.rest programs t)

/-- The addresses that `tm_read` has still to read. -/
def Tx.toRead (x : Tx V) : List Addr :=
  match x.pc with
  | .read todo => todo
  | .readPreLocked a todo _ | .readCopy a todo _ | .readPostVersion a todo _ _
  | .readPostLocked a todo _ _ _ => a :: todo
  | _ => []

/-- Where a transaction is in its program. -/
structure Executing (x : Tx V) (rest : Option (WordProgram Addr V R)) : Prop where
  following : ∃ p, rest = some p
  reading : x.toRead = [] ∨ ∃ a next, x.toRead = [a] ∧ rest = some (.read a next)
  ending : x.InEnd ∨ x.pc = .committed → ∃ result, rest = some (.ret result)

namespace Executing

variable {rest : Option (WordProgram Addr V R)}

omit [DecidableEq V] in
/-- A step that accepts no word. -/
theorem quiet (h : Executing x rest) (hread : x'.toRead = [] ∨ x'.toRead = x.toRead)
    (hend : x'.InEnd ∨ x'.pc = .committed → x.InEnd ∨ x.pc = .committed) :
    Executing x' rest where
  following := h.following
  reading := hread.elim .inl fun heq => by
    rw [heq]
    exact h.reading
  ending hx' := h.ending (hend hx')

/-- What the program has still to do after a command. -/
abbrev restAfter (rest : Option (WordProgram Addr V R)) (x x' : Tx V) (c : Command V) :
    Option (WordProgram Addr V R) :=
  rest.bind fun p => p.after ((x.performed x' c).flatMap Op.accesses)

/-- A command that performs no operation leaves the program where it is. -/
theorem restAfter_of_quiet (h : x.performed x' c = []) : restAfter rest x x' c = rest := by
  simp only [restAfter, h, List.flatMap_nil, WordProgram.after_nil]
  cases rest <;> rfl

/-- Every atomic access of a call in progress. -/
theorem step (h : Executing x rest) (hact : x.act S t sh .step = some (sh', x')) :
    Executing x' (restAfter rest x x' .step) := by
  have hmove := move_of_act hact
  cases hmove with
  -- calls are not atomic accesses
  | begin _ hpc | callRead _ hpc | write _ _ hpc | endRo hpc | callEnd hpc =>
    simp [Tx.act, Tx.step, hpc] at hact
  | readAccept a todo version val newVersion hpc =>
    -- the program goes on with the word
    rcases h.reading with hnone | ⟨b, next, hread, hrest⟩
    · simp [toRead, hpc] at hnone
    · simp only [toRead, hpc, List.cons.injEq] at hread
      obtain ⟨rfl, rfl⟩ := hread
      refine ⟨⟨next val, ?_⟩, .inl (by simp [toRead, acceptWord]), fun hend => ?_⟩
      · simp [restAfter, performed, hpc, acceptWord, hrest, Op.accesses,
          WordProgram.after_singleton, WordProgram.advance]
      · simp [InEnd, acceptWord] at hend
  | validateVersionPass _ _ hpc | validateVersionFail _ _ hpc =>
    rcases hpc with hpc | ⟨hpc, -⟩
    all_goals
      rw [restAfter_of_quiet (by simp [performed, hpc])]
      exact h.quiet (.inl (by simp [toRead, giveUp])) fun _ => by simp [InEnd, hpc]
  | readDone hpc | readStart _ _ hpc | readPreFail _ _ _ hpc | readPrePass _ _ _ hpc
  | readCopy _ _ _ hpc | readPostVersion _ _ _ _ hpc | readPostFail _ _ _ _ _ hpc
  | lockLoad _ _ hpc | lockTake _ _ _ hpc | lockAgain _ _ _ hpc | lockFail _ _ _ hpc
  | unlockDone hpc | unlockLoad _ _ hpc | unlockStore _ _ _ hpc | clockValidate hpc
  | clockSkip hpc | validateDone hpc | validateFree _ _ hpc | validateLockedFail _ _ hpc
  | writeDone hpc | store _ _ hpc | publish _ _ hpc =>
    rw [restAfter_of_quiet (by simp [performed, hpc])]
    exact h.quiet (by simp [toRead, giveUp, startWriteBack, hpc])
      (by simp [InEnd, giveUp, startWriteBack, hpc])

/-- Every command that continues the program. -/
theorem act (h : Executing x rest) (hact : x.act S t sh c = some (sh', x'))
    (hc : c.continues rest) : Executing x' (restAfter rest x x' c) := by
  cases c with
  | step => exact h.step hact
  | begin isRo =>
    obtain ⟨-, -, -, hidle⟩ | ⟨-, hne, -⟩ := begin_of_act hact
    · rw [restAfter_of_quiet rfl]
      exact ⟨h.following, .inl (by simp [toRead, hidle]), fun hend => by
        simp [InEnd, hidle] at hend⟩
    · exact absurd rfl (hne isRo)
  | read addrs =>
    obtain ⟨a, next, rfl, hrest⟩ := hc
    simp only [Tx.act] at hact
    split at hact
    next hpc =>
      cases hact
      rw [restAfter_of_quiet rfl]
      exact ⟨h.following, .inr ⟨a, next, rfl, hrest⟩, fun hend => by simp [InEnd] at hend⟩
    next => cases hact
  | write a val =>
    obtain ⟨next, rfl⟩ := hc
    simp only [Tx.act] at hact
    split at hact
    next hpc =>
      cases hact
      refine ⟨⟨next, ?_⟩, .inl (by simp [toRead, hpc]), fun hend => by simp [InEnd, hpc] at hend⟩
      simp [restAfter, performed, Op.accesses, WordProgram.after_singleton, WordProgram.advance]
    next => cases hact
  | endTx =>
    obtain ⟨result, hrest⟩ := hc
    rw [restAfter_of_quiet rfl]
    simp only [Tx.act] at hact
    split at hact
    next hpc =>
      split at hact
      all_goals
        cases hact
        exact ⟨h.following, .inl (by simp [toRead]), fun _ => ⟨result, hrest⟩⟩
    next => cases hact

end Executing

/-- The transactions stay in their programs. -/
theorem executing_of_reachable [Zero V] (h : (recording S).Reachable (executes programs) w)
    (t : Tid) : Executing (w.state.tx t) (w.rest programs t) := by
  refine h.invariant (I := fun w => ∀ t, Executing (w.state.tx t) (w.rest programs t)) ?_ ?_ t
  · exact fun t => ⟨⟨programs t, rfl⟩, .inl rfl, fun hend => by
      simp [recording, machine, Tx.unborn, InEnd] at hend⟩
  intro w lab w' _ ih hstep hok u
  rcases recording_cases hstep with ⟨t, c, sh', x', rfl, hact, rfl⟩ | ⟨rfl, rfl⟩
  · by_cases hut : u = t
    · subst hut
      have hnew := (ih u).act hact (hok u c rfl)
      rw [Executing.restAfter, Recorded.rest] at hnew
      simpa [Recorded.rest, Recorded.accesses, Recorded.record, WordProgram.after_append]
        using hnew
    · simpa [Recorded.rest, Recorded.accesses, Recorded.record, hut] using ih u
  · exact ih u

/-! ## Executing programs alone -/

/-- The transactions that commit, among those of a list. -/
def Recorded.committed (w : Recorded V) (order : List Tid) : List Tid :=
  order.filter fun t => (w.state.tx t).decided

/-- The concurrent transactions come to their programs executed alone, in the given order. -/
structure RunsAlone [Zero V] (programs : Tid → WordProgram Addr V R) (w : Recorded V)
    (order : List Tid) (m : Addr → V) : Prop where
  serializes : Serializes w w.Begun order m
  /-- The memory is what the programs that commit leave. -/
  memory : WordProgram.execAll programs (w.committed order) (fun _ => 0) = some m
  /-- Every transaction, whatever becomes of it, makes the accesses that its program makes on the
  memory that those before it leave, and returns what the program returns there. -/
  alone : ∀ l t l', order = l ++ t :: l' → ∃ m₁ m₂,
    WordProgram.execAll programs (w.committed l) (fun _ => 0) = some m₁ ∧
    WordProgram.Replays (w.accesses t) m₁ m₂ ∧
    ∀ result, w.rest programs t = some (.ret result) →
      (programs t).exec m₁ = some (result, m₂)
  /-- The accesses of a transaction that has not finished are those its program makes first. -/
  following : ∀ t, ∃ p, w.rest programs t = some p
  /-- A transaction that commits has executed its program to the end. -/
  ended : ∀ t, (w.state.tx t).decided = true → ∃ result, w.rest programs t = some (.ret result)

omit [DecidableEq V] in
/-- An order is legal in two parts. -/
theorem Recorded.legal_append {l l' : List Tid} {m m' : Addr → V} :
    w.Legal (l ++ l') m m' ↔ ∃ m₁, w.Legal l m m₁ ∧ w.Legal l' m₁ m' := by
  induction l generalizing m with
  | nil => simp [Legal]
  | cons t l ih =>
    simp only [List.cons_append, Legal, ih]
    exact ⟨fun ⟨m₁, hops, m₂, hl, hl'⟩ => ⟨m₂, ⟨m₁, hops, hl⟩, hl'⟩,
      fun ⟨m₂, ⟨m₁, hops, hl⟩, hl'⟩ => ⟨m₁, hops, m₂, hl, hl'⟩⟩

/-- A program whose accesses replay, executes them. -/
theorem Recorded.exec_of_rest {result : R} {m m' : Addr → V}
    (hrest : w.rest programs t = some (.ret result))
    (h : WordProgram.Replays (w.accesses t) m m') : (programs t).exec m = some (result, m') :=
  WordProgram.exec_of_after hrest h

/-- In a legal order the programs that commit can be executed one after another. -/
theorem Recorded.execAll_of_legal {order : List Tid} {m m' : Addr → V}
    (hended : ∀ t, (w.state.tx t).decided = true → ∃ result, w.rest programs t = some (.ret result))
    (h : w.Legal order m m') :
    WordProgram.execAll programs (w.committed order) m = some m' := by
  induction order generalizing m with
  | nil => rw [show m' = m from h]; rfl
  | cons t order ih =>
    obtain ⟨m₁, hops, hrest⟩ := h
    cases hd : (w.state.tx t).decided with
    | true =>
      rw [if_pos hd] at hrest
      obtain ⟨result, hret⟩ := hended t hd
      rw [committed, List.filter_cons_of_pos (by simpa using hd), WordProgram.execAll,
        exec_of_rest hret (replays_accesses hops)]
      exact ih hrest
    | false =>
      rw [if_neg (by simp [hd])] at hrest
      rw [committed, List.filter_cons_of_neg (by simp [hd])]
      exact ih hrest

/-- An order in which the transactions are serializable is one in which the programs come to
programs executed alone. -/
theorem Serializes.runsAlone [Zero V] {order : List Tid} {m : Addr → V}
    (h : Serializes w w.Begun order m)
    (hexec : ∀ t, Executing (w.state.tx t) (w.rest programs t)) :
    RunsAlone programs w order m := by
  have hended : ∀ t, (w.state.tx t).decided = true →
      ∃ result, w.rest programs t = some (.ret result) := by
    intro t hd
    refine (hexec t).ending ?_
    unfold Tx.decided at hd
    unfold InEnd
    split at hd <;> simp_all
  refine ⟨h, Recorded.execAll_of_legal hended h.legal, fun l t l' horder => ?_,
    fun t => (hexec t).following, hended⟩
  have hlegal := h.legal
  rw [horder, Recorded.legal_append] at hlegal
  obtain ⟨m₁, hl, m₂, hops, -⟩ := hlegal
  exact ⟨m₁, m₂, Recorded.execAll_of_legal hended hl, replays_accesses hops,
    fun result hret => Recorded.exec_of_rest hret (replays_accesses hops)⟩

/-- The steps that execute programs in an undisturbed run. -/
def undisturbedPrograms (S : Setup V) (programs : Tid → WordProgram Addr V R) :
    Recorded V → Label V → Recorded V → Prop :=
  fun w lab w' =>
    recordedStep (fun s lab s' => undisturbed S s lab s' ∧ writesInUpdates s lab s') w lab w' ∧
      executes programs w lab w'

/-- In an undisturbed run the transactions are serializable. -/
theorem exists_serializes_of_undisturbed [Zero V]
    (h : (recording S).Reachable (undisturbedPrograms S programs) w) :
    ∃ order m, Serializes w w.Begun order m := by
  have hinv : RecordInv S w :=
    recordInv_of_reachable (h.mono fun _ _ _ hok => ⟨hok.1.1.1, hok.1.2⟩)
  have hkept := kept_begun
    (snapshots_of_reachable (Recorded.reachable_state (h.mono fun _ _ _ hok => hok.1.1)))
  obtain ⟨order, m, hserial⟩ := exists_serializes hinv hkept
  exact ⟨order, m, hserial.congr fun t => Tx.begun_iff⟩

/-- In an undisturbed run, concurrent programs come to their programs executed alone, one after
another, in an order that respects the order in which they ran. -/
theorem runsAlone_of_reachable [Zero V]
    (h : (recording S).Reachable (undisturbedPrograms S programs) w) :
    ∃ order m, RunsAlone programs w order m := by
  obtain ⟨order, m, hserial⟩ := exists_serializes_of_undisturbed h
  exact ⟨order, m, hserial.runsAlone (executing_of_reachable (h.mono fun _ _ _ hok => hok.2))⟩

/-- The command is the next one of a program, as a test. -/
def Command.checkContinues : Command V → Option (WordProgram Addr V R) → Bool
  | .read [a], some (.read b _) => a = b
  | .read _, _ => false
  | .write a val, some (.write b val' _) => a = b ∧ val = val'
  | .write _ _, _ => false
  | .endTx, some (.ret _) => true
  | .endTx, _ => false
  | _, _ => true

/-- A tested command is the next one. -/
theorem continues_of_checkContinues {rest : Option (WordProgram Addr V R)}
    (h : c.checkContinues rest = true) : c.continues rest := by
  unfold Command.checkContinues at h
  split at h
  · exact ⟨_, _, rfl, by rw [of_decide_eq_true h]⟩
  · cases h
  · obtain ⟨rfl, rfl⟩ := of_decide_eq_true h
    exact ⟨_, rfl⟩
  · cases h
  · exact ⟨_, rfl⟩
  · cases h
  · unfold Command.continues
    split <;> simp_all

/-- The transactions execute programs, as a test. -/
def checkExecutes (programs : Tid → WordProgram Addr V R) (w : Recorded V) : Label V → Bool
  | .tx t c => c.checkContinues (w.rest programs t)
  | .otherRegion => true

/-- A tested step executes the programs. -/
theorem executes_of_checkExecutes {lab : Label V} (h : checkExecutes programs w lab = true) :
    executes programs w lab w' := by
  rintro t c rfl
  exact continues_of_checkContinues h

/-- What is tested of each step of a run of the first `k` transactions. -/
def checkPrograms (k : ℕ) (programs : Tid → WordProgram Addr V R) (w : Recorded V) (lab : Label V)
    (w' : Recorded V) : Bool :=
  decide (versionsKept w.state lab w'.state) && checkWrite w.state lab &&
    checkWhole k w.state lab && checkExecutes programs w lab

/-- A tested run is undisturbed, and the transactions from `k` on have not begun. -/
theorem reachable_of_checkPrograms [Zero V] {k : ℕ} {labs : List (Label V)}
    (h : (recording (Setup.direct V)).exec (checkPrograms k programs)
      (recording (Setup.direct V)).init labs = some w) :
    (recording (Setup.direct V)).Reachable (undisturbedPrograms (Setup.direct V) programs) w ∧
      ∀ u, k ≤ u → (w.state.tx u).pc = .unborn := by
  have hrun : (recording (Setup.direct V)).Run
      (fun w lab w' => checkPrograms k programs w lab w' = true) _ _ _ :=
    LabelledSystem.run_of_exec (fun _ _ _ hc => hc) h
  refine (hrun.strengthen (I := fun w => ∀ u, k ≤ u → (w.state.tx u).pc = .unborn)
    (fun _ _ => rfl) ?_ ?_).imp_left fun hrun => ⟨labs, hrun⟩
  · -- only the first `k` transactions take steps
    intro w lab w' hborn hstep hcheck u hu
    rcases recording_cases hstep with ⟨t, c, sh', x', rfl, -, rfl⟩ | ⟨rfl, rfl⟩
    · simp only [checkPrograms, checkWhole, Bool.and_eq_true, decide_eq_true_eq] at hcheck
      have hut : u ≠ t := by
        rintro rfl
        exact absurd hcheck.1.2.1 (Nat.not_lt.2 hu)
      rw [(w.record_of_ne c sh' x' hut).1]
      exact hborn u hu
    · exact hborn u hu
  · intro w lab w' hborn hcheck
    simp only [checkPrograms, Bool.and_eq_true, decide_eq_true_eq] at hcheck
    obtain ⟨⟨⟨hclock, hwrite⟩, hwhole⟩, hexec⟩ := hcheck
    exact ⟨⟨⟨⟨hclock, collisionFree_direct _⟩, wholeValidation_of_checkWhole hborn hwhole⟩,
      writesInUpdates_of_checkWrite hwrite⟩, executes_of_checkExecutes hexec⟩

/-- A program that counts up the word at the address 8. -/
def countUp : WordProgram Addr ℕ ℕ := do
  let count ← .load 8
  .store 8 (count + 1)
  return count

/-- Two transactions count up concurrently; the second is refused and tried again as a third. -/
def countingRun : List (Label ℕ) :=
  [.tx 1 (.begin false), .tx 1 (.read [8])] ++ accesses ℕ 1 6 ++
  [.tx 2 (.begin false), .tx 2 (.read [8])] ++ accesses ℕ 2 6 ++
  [.tx 1 (.write 8 1), .tx 1 .endTx] ++ accesses ℕ 1 6 ++
  [.tx 2 (.write 8 1), .tx 2 .endTx] ++ accesses ℕ 2 7 ++
  [.tx 3 (.begin false), .tx 3 (.read [8])] ++ accesses ℕ 3 6 ++
  [.tx 3 (.write 8 2), .tx 3 .endTx] ++ accesses ℕ 3 6

theorem countingRun_isSome : ((recording (Setup.direct ℕ)).exec
    (checkPrograms 4 fun _ => countUp) (recording (Setup.direct ℕ)).init countingRun).isSome := by
  decide

theorem runsAlone_counting : ∃ order m, RunsAlone (fun _ => countUp)
    (((recording (Setup.direct ℕ)).exec (checkPrograms 4 fun _ => countUp)
      (recording (Setup.direct ℕ)).init countingRun).get countingRun_isSome) order m :=
  runsAlone_of_reachable
    (reachable_of_checkPrograms (Option.eq_some_of_isSome countingRun_isSome)).1

end TransactionalMemory
