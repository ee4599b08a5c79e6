import TransactionalMemory.Atomic.Programs

/-!
# Threads that call `transactional`

The loop of `transactional` (`grading/transactional.hpp`) on the interleaved library. Any number of
threads call it one after another with any closures. A call makes a transaction that executes the
closure; if the transaction is refused, it makes another one, until one of them commits.

All attempts of a call execute the same closure object, so what a refused attempt did to the
variables that it captures is not undone. The lambda of `short_tx` captures the indexes of two
accounts by reference and counts them down, and starts from the reduced indexes when it is tried
again. A closure is therefore a function: it gives the program of an attempt from the accesses that
the refused attempts before it have made. One that keeps no state gives the same program always.

`callsSerialized` is what the loop is for: in an undisturbed run there is one order of the calls, in
which every call that has returned occurs exactly once, those of a thread in the order in which it
made them, and in which the program of its last attempt, executed alone, returns what the call has
returned. Attempts that were refused leave no trace in shared memory.
-/

namespace TransactionalMemory

open Tx

variable {V R : Type}

/-! ## What a step of the library leaves as it is -/

namespace Recorded

variable {S : Setup V} {w w' : Recorded V} {t u : Tid} {c : Command V}

/-- The record of a transaction stays as it is. -/
structure Keeps (w w' : Recorded V) (u : Tid) : Prop where
  tx : w'.state.tx u = w.state.tx u
  began : w'.began u = w.began u
  decided : w'.decided u = w.decided u
  ops : w'.ops u = w.ops u

/-- A step of another transaction keeps the record of a transaction. -/
theorem keeps_of_ne [Zero V] (h : (recording S).step w (.tx t c) = some w') (hut : u ≠ t) :
    Keeps w w' u := by
  rcases recording_cases h with ⟨t', c', sh', x', heq, -, rfl⟩ | ⟨heq, -⟩
  · cases heq
    obtain ⟨htx, hbegan, hdecided⟩ := w.record_of_ne c sh' x' hut
    exact ⟨htx, hbegan, hdecided, Function.update_of_ne hut _ _⟩
  · cases heq

/-- A tick of the clock keeps all records. -/
theorem keeps_of_tick [Zero V] (h : (recording S).step w .otherRegion = some w') (u : Tid) :
    Keeps w w' u ∧ w'.time = w.time := by
  rcases recording_cases h with ⟨_, _, _, _, heq, -⟩ | ⟨-, rfl⟩
  · cases heq
  · exact ⟨⟨rfl, rfl, rfl, rfl⟩, rfl⟩

/-- Steps are counted. -/
theorem time_of_step [Zero V] (h : (recording S).step w (.tx t c) = some w') :
    w'.time = w.time + 1 := by
  rcases recording_cases h with ⟨t', c', sh', x', heq, -, rfl⟩ | ⟨heq, -⟩
  · rfl
  · cases heq

/-- A transaction that has begun stays so. -/
theorem began_of_step [Zero V] (h : (recording S).step w (.tx t c) = some w') (hu : w.Begun u) :
    w'.Begun u ∧ w'.began u = w.began u := by
  rcases recording_cases h with ⟨t', c', sh', x', heq, hact, hw'⟩ | ⟨heq, -⟩
  · exact begun_kept hact hw' hu
  · cases heq

/-- A transaction begins at the current step. -/
theorem begun_of_begin [Zero V] {isRo : Bool}
    (h : (recording S).step w (.tx t (.begin isRo)) = some w') :
    w'.Begun t ∧ w'.began t = w.time := by
  rcases recording_cases h with ⟨t', c', sh', x', heq, hact, rfl⟩ | ⟨heq, -⟩
  · cases heq
    cases entry_record hact with
    | begins _ hborn hbegan => exact ⟨hborn, hbegan⟩
    | decides hborn | keeps hborn =>
      obtain ⟨hpc, -⟩ | ⟨-, hne, -⟩ := begin_of_act hact
      · exact absurd hpc hborn
      · exact absurd rfl (hne isRo)
  · cases heq

/-- What is left of the program of a transaction is read off its record. -/
theorem Keeps.rest [DecidableEq V] {programs : Tid → WordProgram Addr V R}
    (h : w.Keeps w' u) : w'.rest programs u = w.rest programs u := by
  rw [Recorded.rest, Recorded.rest, accesses, accesses, h.ops]

end Recorded

/-! ## Threads -/

/-- A closure: the program of an attempt, from the accesses that the refused attempts of the call
have made. They determine what is in the variables that the closure captures. -/
abbrev Closure (V R : Type) : Type := List (List (WordAccess Addr V)) → WordProgram Addr V R

/-- A call of `transactional`. -/
structure ThreadCall (V R : Type) where
  /-- Whether the mode is `read_only`. -/
  isRo : Bool
  /-- What the transactions execute. -/
  closure : Closure V R
  /-- The number of steps of the library when it is called. -/
  called : ℕ

/-- A call with its result. -/
structure ThreadReply (V R : Type) extends ThreadCall V R where
  thread : ℕ
  /-- The accesses of the attempts that were refused. -/
  refused : List (List (WordAccess Addr V))
  /-- The transaction that commits. -/
  tid : Tid
  result : R
  /-- The number of steps of the library when it returns, if it has returned. -/
  returned : Option ℕ

/-- A thread. -/
structure ThreadState (V R : Type) where
  /-- The calls that have returned. -/
  log : List (ThreadReply V R)
  /-- The call in progress. -/
  call : Option (ThreadCall V R)
  /-- The accesses of the attempts of this call that were refused. -/
  refused : List (List (WordAccess Addr V))
  /-- The transaction of this call. -/
  attempt : Option Tid

/-- The threads and the library. Transactions are numbered as they are created. Their threads and
the numbers of steps are only recorded. -/
structure Threads (V R : Type) where
  recorded : Recorded V
  /-- The number of transactions so far. -/
  created : ℕ
  /-- The thread of a transaction. -/
  owner : Tid → ℕ
  /-- The program of a transaction. -/
  programs : Tid → WordProgram Addr V R
  thread : ℕ → ThreadState V R

/-- A step of the threads. -/
inductive ThreadLabel (V R : Type) where
  /-- A thread calls `transactional`. -/
  | call (i : ℕ) (isRo : Bool) (closure : Closure V R)
  /-- A thread goes on with its call. -/
  | go (i : ℕ)
  /-- The clock is incremented by a transaction of another region. -/
  | otherRegion

/-- The program of the attempt that commits. -/
def ThreadReply.program (x : ThreadReply V R) : WordProgram Addr V R := x.closure x.refused

namespace Threads

/-- Replace a thread. -/
def set (s : Threads V R) (i : ℕ) (x : ThreadState V R) : Threads V R :=
  { s with thread := Function.update s.thread i x }

/-- The transaction of a call is created. -/
def create (s : Threads V R) (i : ℕ) (q : ThreadCall V R) (w : Recorded V) : Threads V R where
  recorded := w
  created := s.created + 1
  owner := Function.update s.owner s.created i
  programs := Function.update s.programs s.created (q.closure (s.thread i).refused)
  thread := Function.update s.thread i { s.thread i with attempt := some s.created }

/-- The exception of a refused transaction is caught. -/
def retry (s : Threads V R) (i : ℕ) (t : Tid) : Threads V R :=
  s.set i {
    s.thread i with
    refused := (s.thread i).refused ++ [s.recorded.accesses t]
    attempt := none }

/-- The reply to the call of a thread. -/
def reply (s : Threads V R) (i : ℕ) (q : ThreadCall V R) (t : Tid) (result : R)
    (returned : Option ℕ) : ThreadReply V R :=
  { q with thread := i, refused := (s.thread i).refused, tid := t, result, returned }

/-- The call of a thread returns. -/
def answer (s : Threads V R) (i : ℕ) (q : ThreadCall V R) (t : Tid) (result : R) : Threads V R :=
  s.set i {
    log := (s.thread i).log ++ [s.reply i q t result (some s.recorded.time)]
    call := none
    refused := []
    attempt := none }

variable {s : Threads V R} {i j : ℕ} {t u : Tid} {x : ThreadState V R} {q : ThreadCall V R}
  {w : Recorded V}

/-- The thread that is replaced. -/
@[simp] theorem set_thread_self : (s.set i x).thread i = x := Function.update_self _ _ _

/-- The other threads stay as they are. -/
theorem set_thread_of_ne (h : j ≠ i) : (s.set i x).thread j = s.thread j :=
  Function.update_of_ne h _ _

/-- What holds of the new thread and of all others. -/
theorem forall_set {P : ℕ → ThreadState V R → Prop} (hself : P i x)
    (hother : ∀ j, j ≠ i → P j (s.thread j)) (j : ℕ) : P j ((s.set i x).thread j) := by
  by_cases hj : j = i
  · subst hj
    rwa [set_thread_self]
  · rw [set_thread_of_ne hj]
    exact hother j hj

/-- The thread whose transaction is created. -/
@[simp] theorem create_thread_self :
    (s.create i q w).thread i = { s.thread i with attempt := some s.created } :=
  Function.update_self _ _ _

/-- The other threads stay as they are. -/
theorem create_thread_of_ne (h : j ≠ i) : (s.create i q w).thread j = s.thread j :=
  Function.update_of_ne h _ _

/-- The creation of a transaction changes no more of a thread than its attempt. -/
theorem exists_create_thread (j : ℕ) :
    ∃ attempt, (s.create i q w).thread j = { s.thread j with attempt } := by
  by_cases hj : j = i
  · subst hj
    exact ⟨_, create_thread_self⟩
  · exact ⟨_, create_thread_of_ne hj⟩

/-- It adds nothing to a log. -/
@[simp] theorem create_log (j : ℕ) : ((s.create i q w).thread j).log = (s.thread j).log := by
  obtain ⟨attempt, hthread⟩ := s.exists_create_thread (i := i) (q := q) (w := w) j
  rw [hthread]

/-- It changes no call. -/
@[simp] theorem create_call (j : ℕ) : ((s.create i q w).thread j).call = (s.thread j).call := by
  obtain ⟨attempt, hthread⟩ := s.exists_create_thread (i := i) (q := q) (w := w) j
  rw [hthread]

/-- It refuses no attempt. -/
@[simp] theorem create_refused (j : ℕ) :
    ((s.create i q w).thread j).refused = (s.thread j).refused := by
  obtain ⟨attempt, hthread⟩ := s.exists_create_thread (i := i) (q := q) (w := w) j
  rw [hthread]

/-- An attempt is the new one, or was under way. -/
theorem attempt_create (h : ((s.create i q w).thread j).attempt = some t) :
    j = i ∧ t = s.created ∨ j ≠ i ∧ (s.thread j).attempt = some t := by
  by_cases hj : j = i
  · rw [hj, create_thread_self] at h
    exact .inl ⟨hj, (Option.some.inj h).symm⟩
  · rw [create_thread_of_ne hj] at h
    exact .inr ⟨hj, h⟩

/-- The new transaction belongs to the thread. -/
@[simp] theorem create_owner_self : (s.create i q w).owner s.created = i :=
  Function.update_self _ _ _

/-- The others belong to the same threads. -/
theorem create_owner_of_lt (h : u < s.created) : (s.create i q w).owner u = s.owner u :=
  Function.update_of_ne (Nat.ne_of_lt h) _ _

/-- The new transaction executes the closure, in the state in which the refused attempts left it. -/
@[simp] theorem create_programs_self :
    (s.create i q w).programs s.created = q.closure (s.thread i).refused :=
  Function.update_self _ _ _

/-- The others keep their programs. -/
theorem create_programs_of_lt (h : u < s.created) :
    (s.create i q w).programs u = s.programs u :=
  Function.update_of_ne (Nat.ne_of_lt h) _ _

end Threads

/-- What a transaction that executes a program does next, from what the program has still to do. -/
def nextCommand (pc : Pc V) (rest : Option (WordProgram Addr V R)) : Option (Command V) :=
  match pc with
  | .idle =>
    match rest with
    | some (.read a _) => some (.read [a])
    | some (.write a val _) => some (.write a val)
    | some (.ret _) => some .endTx
    | _ => none
  | .unborn | .aborted | .committed => none
  | _ => some .step

/-- The next command of a transaction continues its program. -/
theorem continues_of_nextCommand {pc : Pc V} {rest : Option (WordProgram Addr V R)} {c : Command V}
    (h : nextCommand pc rest = some c) : c.continues rest ∧ pc ≠ .unborn := by
  unfold nextCommand at h
  split at h
  next =>
    refine ⟨?_, fun hpc => by cases hpc⟩
    split at h
    · cases h
      exact ⟨_, _, rfl, rfl⟩
    · cases h
      exact ⟨_, rfl⟩
    · cases h
      exact ⟨_, rfl⟩
    · cases h
  next => cases h
  next => cases h
  next => cases h
  next hne _ _ =>
    cases h
    exact ⟨trivial, hne⟩

variable [DecidableEq V]

namespace Threads

variable (s : Threads V R) (i : ℕ)

/-- What a thread calls of the library, or the next step of this call. -/
def command : Option (Tid × Command V) :=
  match (s.thread i).call, (s.thread i).attempt with
  | none, _ => none
  | some q, none => some (s.created, .begin q.isRo)
  | some _, some t =>
    (nextCommand (s.recorded.state.tx t).pc (s.recorded.rest s.programs t)).map (Prod.mk t)

/-- The state after a command of a thread, which led the library to `w`. -/
def commanded (w : Recorded V) : Threads V R :=
  match (s.thread i).call, (s.thread i).attempt with
  | some q, none => s.create i q w
  | _, _ => { s with recorded := w }

/-- The end of an attempt: the exception is caught, or the call returns. -/
def finish : Option (Threads V R) :=
  match (s.thread i).call, (s.thread i).attempt with
  | some q, some t =>
    match (s.recorded.state.tx t).pc, s.recorded.rest s.programs t with
    | .aborted, _ => some (s.retry i t)
    | .committed, some (.ret result) => some (s.answer i q t result)
    | _, _ => none
  | _, _ => none

/-- The step of the library in a step of the threads. -/
def label : ThreadLabel V R → Option (Label V)
  | .call .. => none
  | .go i => (s.command i).map fun r => .tx r.1 r.2
  | .otherRegion => some .otherRegion

end Threads

/-- The threads. -/
def threadSystem [Zero V] (S : Setup V) : LabelledSystem (Threads V R) (ThreadLabel V R) where
  init := {
    recorded := (recording S).init
    created := 0
    owner := fun _ => 0
    programs := fun _ => .cut
    thread := fun _ => ⟨[], none, [], none⟩ }
  step s
    | .call i isRo closure =>
      match (s.thread i).call with
      | none => some (s.set i { s.thread i with call := some ⟨isRo, closure, s.recorded.time⟩ })
      | some _ => none
    | .go i =>
      match s.command i with
      | some (t, c) => ((recording S).step s.recorded (.tx t c)).map (s.commanded i)
      | none => s.finish i
    | .otherRegion =>
      ((recording S).step s.recorded .otherRegion).map fun w => { s with recorded := w }

/-- Undisturbed steps, in which closures declared read-only do not write. -/
def undisturbedThreads (S : Setup V) : Threads V R → ThreadLabel V R → Threads V R → Prop :=
  fun s lab s' => ∀ l, s.label lab = some l →
    recordedStep (fun s lab s' => undisturbed S s lab s' ∧ writesInUpdates s lab s')
      s.recorded l s'.recorded

/-! ## What a step can do -/

variable {S : Setup V} {s s' : Threads V R} {lab : ThreadLabel V R} {i j : ℕ} {t u : Tid}
  {w : Recorded V}

/-- The steps of the threads. -/
inductive ThreadMove [Zero V] (S : Setup V) (s : Threads V R) :
    ThreadLabel V R → Threads V R → Prop where
  | call (i : ℕ) (isRo : Bool) (closure : Closure V R)
      (hcall : (s.thread i).call = none) :
      ThreadMove S s (.call i isRo closure)
        (s.set i { s.thread i with call := some ⟨isRo, closure, s.recorded.time⟩ })
  | create (i : ℕ) (q : ThreadCall V R) (w : Recorded V) (hcall : (s.thread i).call = some q)
      (hattempt : (s.thread i).attempt = none)
      (hlabel : s.label (.go i) = some (.tx s.created (.begin q.isRo)))
      (hstep : (recording S).step s.recorded (.tx s.created (.begin q.isRo)) = some w) :
      ThreadMove S s (.go i) (s.create i q w)
  | goOn (i : ℕ) (t : Tid) (c : Command V) (w : Recorded V)
      (hattempt : (s.thread i).attempt = some t)
      (hnext : nextCommand (s.recorded.state.tx t).pc (s.recorded.rest s.programs t) = some c)
      (hlabel : s.label (.go i) = some (.tx t c))
      (hstep : (recording S).step s.recorded (.tx t c) = some w) :
      ThreadMove S s (.go i) { s with recorded := w }
  | retry (i : ℕ) (t : Tid) (hattempt : (s.thread i).attempt = some t)
      (hpc : (s.recorded.state.tx t).pc = .aborted) :
      ThreadMove S s (.go i) (s.retry i t)
  | reply (i : ℕ) (q : ThreadCall V R) (t : Tid) (result : R) (hcall : (s.thread i).call = some q)
      (hattempt : (s.thread i).attempt = some t) (hpc : (s.recorded.state.tx t).pc = .committed)
      (hrest : s.recorded.rest s.programs t = some (.ret result)) :
      ThreadMove S s (.go i) (s.answer i q t result)
  | tick (w : Recorded V) (hstep : (recording S).step s.recorded .otherRegion = some w) :
      ThreadMove S s .otherRegion { s with recorded := w }

/-- What the end of an attempt is. -/
theorem threadMove_of_finish [Zero V] (h : s.finish i = some s') : ThreadMove S s (.go i) s' := by
  unfold Threads.finish at h
  split at h
  next q t hcall hattempt =>
    split at h
    next hpc =>
      cases h
      exact .retry i t hattempt hpc
    next result hpc hrest =>
      cases h
      exact .reply i q t result hcall hattempt hpc hrest
    next => cases h
  next => cases h

/-- Every step of the threads is one of the moves. -/
theorem threadMove_of_step [Zero V] (h : (threadSystem S).step s lab = some s') :
    ThreadMove S s lab s' := by
  cases lab with
  | call i isRo closure =>
    simp only [threadSystem] at h
    split at h
    next hcall =>
      cases h
      exact .call i isRo closure hcall
    next => cases h
  | otherRegion =>
    simp only [threadSystem] at h
    obtain ⟨w, hstep, rfl⟩ := Option.map_eq_some_iff.1 h
    exact .tick w hstep
  | go i =>
    simp only [threadSystem] at h
    split at h
    next t c hcommand =>
      obtain ⟨w, hstep, rfl⟩ := Option.map_eq_some_iff.1 h
      have hlabel : s.label (.go i) = some (.tx t c) := by simp [Threads.label, hcommand]
      unfold Threads.command at hcommand
      split at hcommand
      next => cases hcommand
      next q hcall hattempt =>
        cases hcommand
        rw [Threads.commanded, hcall, hattempt]
        exact .create i q w hcall hattempt hlabel hstep
      next q t' hcall hattempt =>
        obtain ⟨c', hnext, heq⟩ := Option.map_eq_some_iff.1 hcommand
        cases heq
        rw [Threads.commanded, hcall, hattempt]
        exact .goOn i t c w hattempt hnext hlabel hstep
    next => exact threadMove_of_finish h

/-! ## The transactions of a thread -/

/-- A call that has returned. -/
structure Logged (s : Threads V R) (i : ℕ) (x : ThreadReply V R) : Prop where
  thread : x.thread = i
  created : x.tid < s.created
  owner : s.owner x.tid = i
  committed : (s.recorded.state.tx x.tid).pc = .committed
  program : s.programs x.tid = x.program
  result : s.recorded.rest s.programs x.tid = some (.ret x.result)
  called : x.called ≤ s.recorded.began x.tid
  returned : ∃ n, x.returned = some n ∧ s.recorded.decided x.tid < n

namespace Logged

variable {x : ThreadReply V R}

/-- A step of other transactions leaves a call in the log. -/
theorem recorded (h : Logged s i x) (hkeep : s.recorded.Keeps w x.tid) :
    Logged { s with recorded := w } i x where
  thread := h.thread
  created := h.created
  owner := h.owner
  committed := by
    rw [hkeep.tx]
    exact h.committed
  program := h.program
  result := by
    rw [hkeep.rest]
    exact h.result
  called := by
    rw [hkeep.began]
    exact h.called
  returned := by
    rw [hkeep.decided]
    exact h.returned

/-- So does a thread between two transactions. -/
theorem set (h : Logged s j x) {y : ThreadState V R} : Logged (s.set i y) j x :=
  { h with }

/-- So does a transaction that is created. -/
theorem create (h : Logged s j x) {q : ThreadCall V R} (hkeep : s.recorded.Keeps w x.tid) :
    Logged (s.create i q w) j x := by
  have hprogram : (s.create i q w).programs x.tid = s.programs x.tid :=
    Threads.create_programs_of_lt h.created
  have hnew := h.recorded hkeep
  exact {
    thread := h.thread
    created := Nat.lt_succ_of_lt h.created
    owner := (Threads.create_owner_of_lt h.created).trans h.owner
    committed := hnew.committed
    program := hprogram.trans h.program
    result := by
      rw [Recorded.rest, hprogram]
      exact hnew.result
    called := hnew.called
    returned := hnew.returned }

end Logged

/-- Each thread has at most one transaction under way, and those that committed are in its log. -/
structure ThreadsInv (s : Threads V R) : Prop where
  begun : ∀ t, s.recorded.Begun t ↔ t < s.created
  attempt : ∀ i t, (s.thread i).attempt = some t → t < s.created ∧ s.owner t = i
  call : ∀ i t, (s.thread i).attempt = some t → ∃ q, (s.thread i).call = some q ∧
    s.programs t = q.closure (s.thread i).refused ∧ q.called ≤ s.recorded.began t
  called : ∀ i q, (s.thread i).call = some q → q.called ≤ s.recorded.time
  last : ∀ t u, t < s.created → (s.thread (s.owner t)).attempt = some u → t ≤ u
  ended : ∀ t, t < s.created → (s.recorded.state.tx t).decided = true →
    (s.thread (s.owner t)).attempt = some t ∨ ∃ x ∈ (s.thread (s.owner t)).log, x.tid = t
  left : ∀ i, ∀ x ∈ (s.thread i).log, (s.thread i).attempt ≠ some x.tid
  logged : ∀ i, ∀ x ∈ (s.thread i).log, Logged s i x
  sorted : ∀ i, (s.thread i).log.Pairwise fun x y => x.tid < y.tid
  ordered : ∀ t u, t < u → u < s.created → s.owner t = s.owner u →
    (s.recorded.state.tx t).decided = true → s.recorded.decided t < s.recorded.began u

namespace ThreadsInv

/-- At first there are no transactions. -/
theorem init [Zero V] : ThreadsInv (threadSystem (R := R) S).init where
  begun t := by simp [threadSystem, recording, machine, Recorded.Begun, Tx.unborn]
  attempt i t h := by cases h
  call i t h := by cases h
  called i q h := by cases h
  last t u h := by cases h
  ended t h := by cases h
  left i x h := by cases h
  logged i x h := by cases h
  sorted i := .nil
  ordered t u _ h := by cases h

/-- A step of the library, in which at most the transaction of an attempt takes part. -/
theorem recorded (h : ThreadsInv s)
    (hkeeps : ∀ u, (s.thread (s.owner u)).attempt ≠ some u → s.recorded.Keeps w u)
    (hbegan : ∀ u, s.recorded.Begun u → w.Begun u ∧ w.began u = s.recorded.began u)
    (htime : s.recorded.time ≤ w.time) : ThreadsInv { s with recorded := w } where
  begun t := by
    by_cases hat : (s.thread (s.owner t)).attempt = some t
    · have hlt := (h.attempt _ t hat).1
      exact ⟨fun _ => hlt, fun _ => (hbegan t ((h.begun t).2 hlt)).1⟩
    · rw [Recorded.Begun, (hkeeps t hat).tx]
      exact h.begun t
  attempt := h.attempt
  call i t hat := by
    obtain ⟨q, hq, hprogram, hcalled⟩ := h.call i t hat
    have hsame := (hbegan t ((h.begun t).2 (h.attempt i t hat).1)).2
    exact ⟨q, hq, hprogram, hsame.symm ▸ hcalled⟩
  called i q hq := (h.called i q hq).trans htime
  last := h.last
  ended t ht hdecided := by
    by_cases hat : (s.thread (s.owner t)).attempt = some t
    · exact .inl hat
    · rw [(hkeeps t hat).tx] at hdecided
      exact h.ended t ht hdecided
  left := h.left
  logged i x hx := by
    have hold := h.logged i x hx
    exact hold.recorded (hkeeps x.tid (by rw [hold.owner]; exact h.left i x hx))
  sorted := h.sorted
  ordered t u htu hu howner hdecided := by
    -- the last transaction of a thread is not before another one
    have hat : (s.thread (s.owner t)).attempt ≠ some t := fun hat =>
      absurd (h.last u t hu (howner ▸ hat)) (Nat.not_le.2 htu)
    rw [(hkeeps t hat).tx] at hdecided
    rw [(hkeeps t hat).decided, (hbegan u ((h.begun u).2 hu)).2]
    exact h.ordered t u htu hu howner hdecided

/-- A thread is between two transactions. -/
theorem set (h : ThreadsInv s) {x : ThreadState V R} (hnone : x.attempt = none)
    (hcalled : ∀ q, x.call = some q → q.called ≤ s.recorded.time)
    (hended : ∀ t, t < s.created → s.owner t = i → (s.recorded.state.tx t).decided = true →
      ∃ y ∈ x.log, y.tid = t)
    (hlogged : ∀ y ∈ x.log, Logged s i y)
    (hsorted : x.log.Pairwise fun y z => y.tid < z.tid) : ThreadsInv (s.set i x) := by
  -- the other threads are as before
  have hold : ∀ j t, ((s.set i x).thread j).attempt = some t →
      (s.set i x).thread j = s.thread j ∧ (s.thread j).attempt = some t := fun j t hat =>
    Threads.forall_set
      (P := fun j y => y.attempt = some t → y = s.thread j ∧ (s.thread j).attempt = some t)
      (fun hat => by rw [hnone] at hat; cases hat) (fun j _ hat => ⟨rfl, hat⟩) j hat
  exact {
    begun := h.begun
    attempt := fun j t hat => h.attempt j t (hold j t hat).2
    call := fun j t hat => by
      obtain ⟨hsame, hat⟩ := hold j t hat
      rw [hsame]
      exact h.call j t hat
    called := Threads.forall_set
      (P := fun _ y => ∀ q, y.call = some q → q.called ≤ s.recorded.time) hcalled
      fun j _ => h.called j
    last := fun t u ht hat => h.last t u ht (hold _ u hat).2
    ended := fun t ht hdecided =>
      Threads.forall_set
        (P := fun j y => s.owner t = j → y.attempt = some t ∨ ∃ z ∈ y.log, z.tid = t)
        (fun howner => .inr (hended t ht howner hdecided))
        (fun j _ howner => howner ▸ h.ended t ht hdecided) (s.owner t) rfl
    left := fun j y hy hat => by
      obtain ⟨hsame, hat⟩ := hold j y.tid hat
      rw [hsame] at hy
      exact h.left j y hy hat
    logged := fun j y hy =>
      (Threads.forall_set (P := fun j z => ∀ y ∈ z.log, Logged s j y) hlogged
        (fun j _ => h.logged j) j y hy).set
    sorted := Threads.forall_set (P := fun _ z => z.log.Pairwise fun x y => x.tid < y.tid) hsorted
      fun j _ => h.sorted j
    ordered := h.ordered }

/-- The calls that a thread has completed are older than its attempt. -/
theorem lt_attempt (h : ThreadsInv s) (hattempt : (s.thread i).attempt = some t)
    {x : ThreadReply V R} (hx : x ∈ (s.thread i).log) : x.tid < t := by
  have hx' := h.logged i x hx
  have hle := h.last x.tid t hx'.created (by rw [hx'.owner]; exact hattempt)
  exact lt_of_le_of_ne hle fun heq => h.left i x hx (by rw [heq]; exact hattempt)

/-- `transactional` is called. -/
theorem call_step (h : ThreadsInv s) (hcall : (s.thread i).call = none) {q : ThreadCall V R}
    (hq : q.called = s.recorded.time) :
    ThreadsInv (s.set i { s.thread i with call := some q }) := by
  have hnone : (s.thread i).attempt = none := by
    by_contra hsome
    obtain ⟨t, hat⟩ := Option.ne_none_iff_exists'.1 hsome
    obtain ⟨q', hq', -⟩ := h.call i t hat
    rw [hcall] at hq'
    cases hq'
  refine h.set hnone (fun q' hq' => ?_) (fun t ht howner hdecided => ?_) (h.logged i) (h.sorted i)
  · rw [← Option.some.inj hq', hq]
  · subst howner
    refine (h.ended t ht hdecided).resolve_left fun hat => ?_
    rw [hnone] at hat
    cases hat

/-- The exception is caught. -/
theorem retry (h : ThreadsInv s) (hattempt : (s.thread i).attempt = some t)
    (hpc : (s.recorded.state.tx t).pc = .aborted) :
    ThreadsInv (s.retry i t) := by
  refine h.set rfl (h.called i) (fun u hu howner hdecided => ?_) (h.logged i) (h.sorted i)
  subst howner
  refine (h.ended u hu hdecided).resolve_left fun hat => ?_
  obtain rfl := Option.some.inj (hattempt.symm.trans hat)
  simp [Tx.decided, hpc] at hdecided

/-- The call returns. -/
theorem reply (h : ThreadsInv s) (htimes : Times s.recorded) {q : ThreadCall V R} {result : R}
    (hcall : (s.thread i).call = some q) (hattempt : (s.thread i).attempt = some t)
    (hpc : (s.recorded.state.tx t).pc = .committed)
    (hrest : s.recorded.rest s.programs t = some (.ret result)) :
    ThreadsInv (s.answer i q t result) := by
  obtain ⟨hlt, howner⟩ := h.attempt i t hattempt
  obtain ⟨q', hq', hprogram, hcalled⟩ := h.call i t hattempt
  obtain rfl : q = q' := Option.some.inj (hcall.symm.trans hq')
  have hdecided : (s.recorded.state.tx t).decided = true := by simp [Tx.decided, hpc]
  refine h.set rfl (fun q hq => by cases hq) (fun u hu hown hdecided => ?_) (fun y hy => ?_) ?_
  · subst hown
    rcases h.ended u hu hdecided with hat | ⟨y, hy, htid⟩
    · exact ⟨_, List.mem_append_right _ List.mem_cons_self,
        Option.some.inj (hattempt.symm.trans hat)⟩
    · exact ⟨y, List.mem_append_left _ hy, htid⟩
  · rcases List.mem_append.1 hy with hy | hy
    · exact h.logged i y hy
    · obtain rfl := List.mem_singleton.1 hy
      exact {
        thread := rfl
        created := hlt
        owner := howner
        committed := hpc
        program := hprogram
        result := hrest
        called := hcalled
        returned := ⟨_, rfl, htimes.decided_lt t hdecided⟩ }
  · refine List.pairwise_append.2 ⟨h.sorted i, List.pairwise_singleton _ _, fun y hy z hz => ?_⟩
    obtain rfl := List.mem_singleton.1 hz
    exact h.lt_attempt hattempt hy

/-- The transaction of a call is created. -/
theorem create [Zero V] (h : ThreadsInv s) (htimes : Times s.recorded) {q : ThreadCall V R}
    (hcall : (s.thread i).call = some q) (hattempt : (s.thread i).attempt = none)
    (hstep : (recording S).step s.recorded (.tx s.created (.begin q.isRo)) = some w) :
    ThreadsInv (s.create i q w) := by
  obtain ⟨hbegun, hbegan⟩ := Recorded.begun_of_begin hstep
  have hkeeps : ∀ u, u < s.created → s.recorded.Keeps w u := fun u hu =>
    Recorded.keeps_of_ne hstep (Nat.ne_of_lt hu)
  exact {
    begun := fun t => by
      by_cases ht : t = s.created
      · subst ht
        exact ⟨fun _ => Nat.lt_succ_self _, fun _ => hbegun⟩
      · have hkeep := Recorded.keeps_of_ne hstep ht
        have hold := h.begun t
        simp only [Recorded.Begun, Threads.create, hkeep.tx] at hold ⊢
        exact hold.trans ⟨Nat.lt_succ_of_lt, fun hlt => lt_of_le_of_ne (Nat.lt_succ_iff.1 hlt) ht⟩
    attempt := fun j t hj => by
      rcases Threads.attempt_create hj with ⟨rfl, rfl⟩ | ⟨-, hold⟩
      · exact ⟨Nat.lt_succ_self _, Threads.create_owner_self⟩
      · obtain ⟨hlt, hown⟩ := h.attempt j t hold
        exact ⟨Nat.lt_succ_of_lt hlt, (Threads.create_owner_of_lt hlt).trans hown⟩
    call := fun j t hj => by
      rw [Threads.create_call, Threads.create_refused]
      rcases Threads.attempt_create hj with ⟨rfl, rfl⟩ | ⟨-, hold⟩
      · exact ⟨q, hcall, Threads.create_programs_self, (h.called j q hcall).trans_eq hbegan.symm⟩
      · have hlt := (h.attempt j t hold).1
        obtain ⟨q', hq', hprog, hcalled⟩ := h.call j t hold
        exact ⟨q', hq', (Threads.create_programs_of_lt hlt).trans hprog,
          hcalled.trans_eq (hkeeps t hlt).began.symm⟩
    called := fun j q' hq' => by
      have hle := h.called j q' ((Threads.create_call j).symm.trans hq')
      exact hle.trans ((Nat.le_succ _).trans_eq (Recorded.time_of_step hstep).symm)
    last := fun t u ht hu => by
      rcases Threads.attempt_create hu with ⟨-, rfl⟩ | ⟨hji, hold⟩
      · exact Nat.lt_succ_iff.1 ht
      · have hlt : t < s.created := lt_of_le_of_ne (Nat.lt_succ_iff.1 ht) fun heq =>
          hji (heq ▸ Threads.create_owner_self)
        rw [Threads.create_owner_of_lt hlt] at hold
        exact h.last t u hlt hold
    ended := fun t ht hdecided => by
      by_cases htnew : t = s.created
      · subst htnew
        left
        rw [Threads.create_owner_self, Threads.create_thread_self]
      · have hlt : t < s.created := lt_of_le_of_ne (Nat.lt_succ_iff.1 ht) htnew
        change (w.state.tx t).decided = true at hdecided
        rw [(hkeeps t hlt).tx] at hdecided
        rw [Threads.create_owner_of_lt hlt, Threads.create_log]
        refine (h.ended t hlt hdecided).imp_left fun hold => ?_
        rw [Threads.create_thread_of_ne fun heq => ?_]
        · exact hold
        · rw [heq, hattempt] at hold
          cases hold
    left := fun j x hx hj => by
      rw [Threads.create_log] at hx
      rcases Threads.attempt_create hj with ⟨-, heq⟩ | ⟨-, hold⟩
      · exact absurd (h.logged j x hx).created (Nat.not_lt.2 heq.ge)
      · exact h.left j x hx hold
    logged := fun j x hx => by
      rw [Threads.create_log] at hx
      have hold := h.logged j x hx
      exact hold.create (hkeeps x.tid hold.created)
    sorted := fun j => by
      rw [Threads.create_log]
      exact h.sorted j
    ordered := fun t u htu hu hown hdecided => by
      have hlt : t < s.created := Nat.lt_of_lt_of_le htu (Nat.lt_succ_iff.1 hu)
      change (w.state.tx t).decided = true at hdecided
      change w.decided t < w.began u
      rw [(hkeeps t hlt).tx] at hdecided
      rw [(hkeeps t hlt).decided]
      by_cases hunew : u = s.created
      · subst hunew
        rw [hbegan]
        exact htimes.decided_lt t hdecided
      · have hult : u < s.created := lt_of_le_of_ne (Nat.lt_succ_iff.1 hu) hunew
        rw [(hkeeps u hult).began]
        rw [Threads.create_owner_of_lt hlt, Threads.create_owner_of_lt hult] at hown
        exact h.ordered t u htu hult hown hdecided }

end ThreadsInv

/-! ## The library under the threads -/

/-- The steps of the library are undisturbed. -/
theorem recorded_of_threads [Zero V] (h : (threadSystem S).Reachable (undisturbedThreads S) s) :
    (recording S).Reachable
      (recordedStep fun s lab s' => undisturbed S s lab s' ∧ writesInUpdates s lab s')
      s.recorded := by
  refine h.invariant (I := fun s : Threads V R => (recording S).Reachable
    (recordedStep fun s lab s' => undisturbed S s lab s' ∧ writesInUpdates s lab s') s.recorded)
    .init fun s lab s' _ ih hstep hok => ?_
  cases threadMove_of_step hstep with
  | call | retry | reply => exact ih
  | create i q w _ _ hlabel hrec => exact ih.step hrec (hok _ hlabel)
  | goOn i t c w _ _ hlabel hrec => exact ih.step hrec (hok _ hlabel)
  | tick w hrec => exact ih.step hrec (hok _ rfl)

/-- The times of the record are in order. -/
theorem times_of_threads [Zero V] (h : (threadSystem S).Reachable (undisturbedThreads S) s) :
    Times s.recorded :=
  (recordInv_of_reachable ((recorded_of_threads h).mono fun _ _ _ hok => ⟨hok.1.1, hok.2⟩)).times

/-- The invariant holds in every state of an undisturbed run. -/
theorem threadsInv_of_reachable [Zero V] (h : (threadSystem S).Reachable (undisturbedThreads S) s) :
    ThreadsInv s := by
  refine h.invariant .init fun s lab s' hreach ih hstep _ => ?_
  cases threadMove_of_step hstep with
  | call i isRo closure hcall => exact ih.call_step hcall rfl
  | create i q w hcall hattempt _ hrec =>
    exact ih.create (times_of_threads hreach) hcall hattempt hrec
  | goOn i t c w hattempt _ _ hrec =>
    have howner := (ih.attempt i t hattempt).2
    refine ih.recorded (fun u hu => Recorded.keeps_of_ne hrec ?_)
      (fun u hu => Recorded.began_of_step hrec hu)
      ((Nat.le_succ _).trans_eq (Recorded.time_of_step hrec).symm)
    rintro rfl
    exact hu (howner ▸ hattempt)
  | retry i t hattempt hpc => exact ih.retry hattempt hpc
  | reply i q t result hcall hattempt hpc hrest =>
    exact ih.reply (times_of_threads hreach) hcall hattempt hpc hrest
  | tick w hrec =>
    have hkeeps := fun u => (Recorded.keeps_of_tick hrec u).1
    refine ih.recorded (fun u _ => hkeeps u) (fun u hu => ⟨?_, (hkeeps u).began⟩)
      (Recorded.keeps_of_tick hrec 0).2.ge
    rwa [Recorded.Begun, (hkeeps u).tx]

/-- Every transaction executes its program. Those to come may be given any programs. -/
theorem programs_of_threads [Zero V] (h : (threadSystem S).Reachable (undisturbedThreads S) s)
    {programs : Tid → WordProgram Addr V R}
    (hprograms : ∀ t < s.created, programs t = s.programs t) :
    (recording S).Reachable (undisturbedPrograms S programs) s.recorded := by
  refine h.invariant (I := fun s : Threads V R => (∀ t < s.created, programs t = s.programs t) →
    (recording S).Reachable (undisturbedPrograms S programs) s.recorded)
    (fun _ => .init) (fun s lab s' hreach ih hstep hok hprograms => ?_) hprograms
  cases threadMove_of_step hstep with
  | call | retry | reply => exact ih hprograms
  | create i q w _ _ hlabel hrec =>
    refine (ih fun t ht => ?_).step hrec ⟨hok _ hlabel, ?_⟩
    · rw [hprograms t (Nat.lt_succ_of_lt ht)]
      exact Function.update_of_ne (Nat.ne_of_lt ht) _ _
    · rintro t c heq
      cases heq
      trivial
  | goOn i t c w hattempt hnext hlabel hrec =>
    refine (ih hprograms).step hrec ⟨hok _ hlabel, ?_⟩
    rintro t' c' heq
    cases heq
    have hlt := ((threadsInv_of_reachable hreach).attempt i t hattempt).1
    rw [Recorded.rest, hprograms t hlt]
    exact (continues_of_nextCommand hnext).1
  | tick w hrec =>
    refine (ih hprograms).step hrec ⟨hok _ rfl, ?_⟩
    rintro t c heq
    cases heq

/-! ## The calls in order -/

/-- The calls of a thread that have taken effect: those that have returned, and one that is going
to. -/
def Threads.effective (s : Threads V R) (i : ℕ) : List (ThreadReply V R) :=
  (s.thread i).log ++
    match (s.thread i).call, (s.thread i).attempt with
    | some q, some t =>
      match (s.recorded.state.tx t).decided, s.recorded.rest s.programs t with
      | true, some (.ret result) => [s.reply i q t result none]
      | _, _ => []
    | _, _ => []

/-- The programs of the calls, executed one after another, return the results. -/
def SerialCalls : List (ThreadReply V R) → (Addr → V) → (Addr → V) → Prop
  | [], m, m' => m' = m
  | x :: calls, m, m' => ∃ m₁, x.program.exec m = some (x.result, m₁) ∧ SerialCalls calls m₁ m'

/-- The calls that have taken effect, in an order in which they can be executed alone. -/
structure CallsSerialized [Zero V] (s : Threads V R) (calls : List (ThreadReply V R))
    (m : Addr → V) : Prop where
  serial : SerialCalls calls (fun _ => 0) m
  /-- Every call occurs once, and the calls of a thread are in the order in which it made them. -/
  own : ∀ i, calls.filter (fun x => x.thread = i) = s.effective i
  /-- A call that returned before another one was made comes before it. -/
  realTime : calls.Pairwise fun x y => ∀ n, y.returned = some n → x.called < n
  /-- The memory is the shared one, up to the words that are still to be stored. -/
  memory : ∀ a, (∀ t, a ∉ (s.recorded.state.tx t).unstored) → m a = s.recorded.state.shared.mem a

/-- What is known of a call that has taken effect. -/
structure TookEffect (s : Threads V R) (i : ℕ) (x : ThreadReply V R) : Prop where
  thread : x.thread = i
  created : x.tid < s.created
  owner : s.owner x.tid = i
  decided : (s.recorded.state.tx x.tid).decided = true
  program : s.programs x.tid = x.program
  result : s.recorded.rest s.programs x.tid = some (.ret x.result)
  called : x.called ≤ s.recorded.began x.tid
  returned : ∀ n, x.returned = some n → s.recorded.decided x.tid < n

namespace ThreadsInv

/-- What the invariant says of a call that has taken effect. -/
theorem tookEffect (h : ThreadsInv s) {x : ThreadReply V R} (hx : x ∈ s.effective i) :
    TookEffect s i x := by
  rcases List.mem_append.1 hx with hx | hx
  · have hold := h.logged i x hx
    obtain ⟨n, hn, hlt⟩ := hold.returned
    exact {
      hold with
      decided := by simp [Tx.decided, hold.committed]
      returned := fun n' hn' => by
        obtain rfl := Option.some.inj (hn.symm.trans hn')
        exact hlt }
  · split at hx
    next q t hcall hattempt =>
      split at hx
      next result hdecided hrest =>
        obtain rfl := List.mem_singleton.1 hx
        obtain ⟨hlt, howner⟩ := h.attempt i t hattempt
        obtain ⟨q', hq', hprogram, hcalled⟩ := h.call i t hattempt
        obtain rfl : q = q' := Option.some.inj (hcall.symm.trans hq')
        exact {
          thread := rfl
          created := hlt
          owner := howner
          decided := hdecided
          program := hprogram
          result := hrest
          called := hcalled
          returned := fun n hn => by cases hn }
      next => cases hx
    next => cases hx

/-- The calls of a thread are in the order of their transactions. -/
theorem sorted_effective (h : ThreadsInv s) (i : ℕ) :
    (s.effective i).Pairwise fun x y => x.tid < y.tid := by
  refine List.pairwise_append.2 ⟨h.sorted i, ?_, fun x hx y hy => ?_⟩
  · split
    · split
      · exact List.pairwise_singleton _ _
      · exact .nil
    · exact .nil
  · split at hy
    next q t hcall hattempt =>
      split at hy
      next =>
        obtain rfl := List.mem_singleton.1 hy
        exact h.lt_attempt hattempt hx
      next => cases hy
    next => cases hy

/-- A transaction is that of one call. -/
theorem eq_of_tid (h : ThreadsInv s) {x y : ThreadReply V R} (hx : x ∈ s.effective i)
    (hy : y ∈ s.effective i) (htid : x.tid = y.tid) : x = y := by
  have hnodup : ((s.effective i).map fun x => x.tid).Nodup :=
    List.pairwise_map.2 ((h.sorted_effective i).imp Nat.ne_of_lt)
  exact List.inj_on_of_nodup_map hnodup hx hy htid

/-- Every transaction that commits is the one of a call. -/
theorem exists_effective (h : ThreadsInv s) (hdecided : (s.recorded.state.tx t).decided = true)
    {result : R} (hrest : s.recorded.rest s.programs t = some (.ret result)) :
    ∃ x ∈ s.effective (s.owner t), x.tid = t := by
  have hlt : t < s.created := (h.begun t).1 fun hpc => by simp [Tx.decided, hpc] at hdecided
  rcases h.ended t hlt hdecided with hattempt | ⟨x, hx, htid⟩
  · obtain ⟨q, hcall, -⟩ := h.call _ t hattempt
    refine ⟨s.reply (s.owner t) q t result none, List.mem_append_right _ ?_, rfl⟩
    simp [hcall, hattempt, hdecided, hrest]
  · exact ⟨x, List.mem_append_left _ hx, htid⟩

/-- Transactions that commit are those of as many calls. -/
theorem exists_calls (h : ThreadsInv s) {l : List Tid}
    (hl : ∀ t ∈ l, (s.recorded.state.tx t).decided = true ∧
      ∃ result, s.recorded.rest s.programs t = some (.ret result)) :
    ∃ calls : List (ThreadReply V R), calls.map (fun x => x.tid) = l ∧
      ∀ x ∈ calls, ∃ i, x ∈ s.effective i := by
  induction l with
  | nil => exact ⟨[], rfl, fun x hx => by cases hx⟩
  | cons t l ih =>
    obtain ⟨calls, hcalls, hmem⟩ := ih fun u hu => hl u (List.mem_cons_of_mem t hu)
    obtain ⟨hdecided, result, hrest⟩ := hl t List.mem_cons_self
    obtain ⟨x, hx, htid⟩ := h.exists_effective hdecided hrest
    refine ⟨x :: calls, by rw [List.map_cons, hcalls, htid], fun y hy => ?_⟩
    rcases List.mem_cons.1 hy with rfl | hy
    · exact ⟨_, hx⟩
    · exact hmem y hy

/-- The calls of a thread, in an order of all calls that respects real time. -/
theorem filter_calls (h : ThreadsInv s) {calls : List (ThreadReply V R)}
    (hmem : ∀ x ∈ calls, ∃ i, x ∈ s.effective i)
    (hall : ∀ t, (s.recorded.state.tx t).decided = true → ∃ x ∈ calls, x.tid = t)
    (hnodup : calls.Nodup)
    (htime : calls.Pairwise fun x y => s.recorded.began x.tid ≤ s.recorded.settled y.tid) (i : ℕ) :
    calls.filter (fun x => x.thread = i) = s.effective i := by
  have hsorted := h.sorted_effective i
  have hmem_iff : ∀ x, x ∈ calls.filter (fun x => x.thread = i) ↔ x ∈ s.effective i := by
    intro x
    rw [List.mem_filter, decide_eq_true_eq]
    constructor
    · rintro ⟨hx, rfl⟩
      obtain ⟨j, hj⟩ := hmem x hx
      rw [(h.tookEffect hj).thread]
      exact hj
    · intro hx
      have hx' := h.tookEffect hx
      obtain ⟨y, hy, htid⟩ := hall x.tid hx'.decided
      obtain ⟨j, hj⟩ := hmem y hy
      -- the call of this transaction is one of the same thread
      obtain rfl : j = i := by rw [← (h.tookEffect hj).owner, htid, hx'.owner]
      obtain rfl := h.eq_of_tid hj hx htid
      exact ⟨hy, hx'.thread⟩
  have hnodup' : (s.effective i).Nodup := hsorted.imp fun hlt heq => by
    rw [heq] at hlt
    exact Nat.lt_irrefl _ hlt
  refine List.Perm.eq_of_pairwise (fun x y _ _ hxy hyx => absurd hxy (Nat.lt_asymm hyx))
    (((htime.and hnodup).filter _).imp_of_mem fun {x y} hx hy hxy => ?_) hsorted
    ((List.perm_ext_iff_of_nodup (hnodup.filter _) hnodup').2 hmem_iff)
  rw [hmem_iff] at hx hy
  have hx' := h.tookEffect hx
  have hy' := h.tookEffect hy
  rcases Nat.lt_trichotomy x.tid y.tid with hlt | heq | hgt
  · exact hlt
  · exact absurd (h.eq_of_tid hx hy heq) hxy.2
  · -- `y` was decided before `x` began
    have hle := hxy.1
    rw [Recorded.settled, if_pos hy'.decided] at hle
    have hlt := h.ordered _ _ hgt hx'.created (hy'.owner.trans hx'.owner.symm) hy'.decided
    omega

end ThreadsInv

/-- Calls in a legal order of their transactions can be executed one after another. -/
theorem serialCalls_of_legal {programs : Tid → WordProgram Addr V R} {order : List Tid}
    {calls : List (ThreadReply V R)} {m m' : Addr → V}
    (hcalls : calls.map (fun x => x.tid) = w.committed order)
    (hresult : ∀ x ∈ calls, programs x.tid = x.program ∧
      w.rest programs x.tid = some (.ret x.result))
    (h : w.Legal order m m') : SerialCalls calls m m' := by
  induction order generalizing m calls with
  | nil =>
    obtain rfl := List.map_eq_nil_iff.1 hcalls
    exact h
  | cons t order ih =>
    obtain ⟨m₁, hops, hrest⟩ := h
    cases hd : (w.state.tx t).decided with
    | true =>
      rw [if_pos hd] at hrest
      rw [Recorded.committed, List.filter_cons_of_pos (by simpa using hd)] at hcalls
      obtain ⟨x, calls, rfl, rfl, hrestCalls⟩ := List.map_eq_cons_iff.1 hcalls
      obtain ⟨hprogram, hret⟩ := hresult x List.mem_cons_self
      refine ⟨m₁, ?_, ih hrestCalls (fun y hy => hresult y (List.mem_cons_of_mem x hy)) hrest⟩
      rw [← hprogram]
      exact Recorded.exec_of_rest hret (replays_accesses hops)
    | false =>
      rw [if_neg (by simp [hd])] at hrest
      rw [Recorded.committed, List.filter_cons_of_neg (by simp [hd])] at hcalls
      exact ih hcalls hresult hrest

/-- In an undisturbed run, the calls of `transactional` come to the programs of their last attempts,
executed alone and one after another, each of them once. -/
theorem callsSerialized [Zero V] (h : (threadSystem S).Reachable (undisturbedThreads S) s) :
    ∃ calls m, CallsSerialized s calls m := by
  have hinv := threadsInv_of_reachable h
  have hprograms := programs_of_threads h fun _ _ => rfl
  obtain ⟨order, m, hserial⟩ := exists_serializes_of_undisturbed hprograms
  have halone := hserial.runsAlone
    (executing_of_reachable (hprograms.mono fun _ _ _ hok => hok.2))
  have hended : ∀ t ∈ s.recorded.committed order, (s.recorded.state.tx t).decided = true ∧
      ∃ result, s.recorded.rest s.programs t = some (.ret result) := fun t ht =>
    have hdecided := (List.mem_filter.1 ht).2
    ⟨hdecided, halone.ended t hdecided⟩
  obtain ⟨calls, hcalls, hmem⟩ := hinv.exists_calls hended
  have hnodup : calls.Nodup := .of_map (fun x => x.tid) (hcalls ▸ hserial.nodup.filter _)
  have htime : calls.Pairwise fun x y =>
      s.recorded.began x.tid ≤ s.recorded.settled y.tid := by
    have hpairs : (s.recorded.committed order).Pairwise fun t u =>
        s.recorded.began t ≤ s.recorded.settled u := hserial.realTime.filter _
    rw [← hcalls] at hpairs
    exact List.pairwise_map.1 hpairs
  have hresult : ∀ x ∈ calls, s.programs x.tid = x.program ∧
      s.recorded.rest s.programs x.tid = some (.ret x.result) := fun x hx => by
    obtain ⟨i, hi⟩ := hmem x hx
    exact ⟨(hinv.tookEffect hi).program, (hinv.tookEffect hi).result⟩
  refine ⟨calls, m, serialCalls_of_legal hcalls hresult hserial.legal,
    hinv.filter_calls hmem (fun t hdecided => ?_) hnodup htime, ?_, hserial.memory⟩
  · have hbegun : s.recorded.Begun t := fun hpc => by simp [Tx.decided, hpc] at hdecided
    have ht : t ∈ calls.map fun x => x.tid := by
      rw [hcalls]
      exact List.mem_filter.2 ⟨(hserial.mem t).2 hbegun, hdecided⟩
    exact List.mem_map.1 ht
  · refine htime.imp_of_mem fun {x y} hx hy hle n hn => ?_
    obtain ⟨i, hi⟩ := hmem x hx
    obtain ⟨j, hj⟩ := hmem y hy
    have hy' := hinv.tookEffect hj
    rw [Recorded.settled, if_pos hy'.decided] at hle
    exact ((hinv.tookEffect hi).called.trans hle).trans_lt (hy'.returned n hn)

/-! ## A test of runs -/

/-- What is tested of each step of the threads. -/
def checkThreads (s : Threads V R) (lab : ThreadLabel V R) (s' : Threads V R) : Bool :=
  match s.label lab with
  | none => true
  | some l =>
    decide (versionsKept s.recorded.state l s'.recorded.state) &&
      checkWrite s.recorded.state l && checkWhole (s.created + 1) s.recorded.state l

/-- A tested run is undisturbed. -/
theorem reachable_of_checkThreads [Zero V] {s : Threads V R} {labs : List (ThreadLabel V R)}
    (h : (threadSystem (Setup.direct V)).exec checkThreads (threadSystem (Setup.direct V)).init
      labs = some s) :
    (threadSystem (Setup.direct V)).Reachable (undisturbedThreads (Setup.direct V)) s := by
  have hrun : (threadSystem (Setup.direct V)).Run
      (fun s lab s' => checkThreads s lab s' = true) _ _ _ :=
    LabelledSystem.run_of_exec (fun _ _ _ hc => hc) h
  refine hrun.invariant (I := (threadSystem (Setup.direct V)).Reachable
    (undisturbedThreads (Setup.direct V))) (fun s lab s' hreach hstep hcheck => ?_) .init
  refine hreach.step hstep fun l hl => ?_
  have hborn : ∀ u, s.created + 1 ≤ u → (s.recorded.state.tx u).pc = .unborn := fun u hu =>
    not_not.1 fun hpc =>
      absurd (((threadsInv_of_reachable hreach).begun u).1 hpc)
        (Nat.not_lt.2 (Nat.le_of_succ_le hu))
  simp only [checkThreads, hl, Bool.and_eq_true, decide_eq_true_eq] at hcheck
  obtain ⟨⟨hclock, hwrite⟩, hwhole⟩ := hcheck
  exact ⟨⟨⟨hclock, collisionFree_direct _⟩, wholeValidation_of_checkWhole hborn hwhole⟩,
    writesInUpdates_of_checkWrite hwrite⟩

/-- A closure that captures a variable, in which it counts its attempts, and adds their number to
the word at the address 8. -/
def addAttempts : Closure ℕ ℕ := fun refused => do
  let count ← .load 8
  .store 8 (count + (refused.length + 1))
  return count

/-- Two threads count up concurrently. The transaction of one of them is refused, and its call makes
another one, which adds more. -/
def threadsRun : List (ThreadLabel ℕ ℕ) :=
  [.call 0 false fun _ => countUp, .call 1 false addAttempts] ++ List.replicate 8 (.go 0) ++
  List.replicate 8 (.go 1) ++ List.replicate 9 (.go 0) ++ List.replicate 27 (.go 1)

theorem threadsRun_isSome : ((threadSystem (Setup.direct ℕ)).exec checkThreads
    (threadSystem (Setup.direct ℕ)).init threadsRun).isSome := by
  decide +kernel

theorem callsSerialized_threadsRun : ∃ calls m, CallsSerialized
    (((threadSystem (Setup.direct ℕ)).exec checkThreads
      (threadSystem (Setup.direct ℕ)).init threadsRun).get threadsRun_isSome) calls m :=
  callsSerialized (reachable_of_checkThreads (Option.eq_some_of_isSome threadsRun_isSome))

end TransactionalMemory
