import TransactionalMemory.Grading.Transactional
import TransactionalMemory.Sequential.Buffered

/-!
# All or nothing

`transactional` should return a value exactly from the attempt that was committed, and commit
nothing if it is left by an exception (`AllOrNothing`). What an attempt does is determined by what
the library answers to the operations of the closure (`Closure.ending`): the closure gets to its
end, the library refuses an operation, or an allocation fails for lack of memory.

An allocation that fails for lack of memory does not abort the transaction. The exception leaves
`transactional`, and on the way the destructor asks the library to commit what the closure has done
so far. So `transactional` is all-or-nothing exactly if the library never accepts such a commit
(`allOrNothing_iff`), which it may (`allOrNothing_fails`).
-/

namespace TransactionalMemory.Grading

variable {σ TX α : Type} {lib : TransactionalLibrary σ TX} {mode : Transaction.Mode}
  {func : Closure α} {s s' : σ} {fuel : ℕ} {outcome : Outcome α} {a : Attempt α}
  {attempts : List (Attempt α)}

/-- `tm_end` has committed the attempt. -/
def Attempt.committed (a : Attempt α) : Bool := a.ended == some true

/-- A value is returned only from the one attempt that was committed, and nothing is committed if an
exception leaves `transactional`. -/
structure AllOrNothing (outcome : Outcome α) (attempts : List (Attempt α)) : Prop where
  returned : ∀ value, outcome = .returned value →
    ∃ a, attempts.filter Attempt.committed = [a] ∧ a.result = .ok value
  threw : ∀ e, outcome = .threw e → e ≠ .transactionRetry →
    attempts.filter Attempt.committed = []

/-- An attempt that commits nothing does not matter. -/
theorem allOrNothing_cons (ha : a.committed = false) :
    AllOrNothing outcome (a :: attempts) ↔ AllOrNothing outcome attempts := by
  have hfilter : (a :: attempts).filter Attempt.committed = attempts.filter Attempt.committed :=
    List.filter_cons_of_neg (by simp [ha])
  constructor
  · rintro ⟨hreturned, hthrew⟩
    exact ⟨hfilter ▸ hreturned, hfilter ▸ hthrew⟩
  · rintro ⟨hreturned, hthrew⟩
    exact ⟨hfilter ▸ hreturned, hfilter ▸ hthrew⟩

/-! ## What the library answers to a closure -/

/-- Where a closure gets. -/
inductive Ending (α : Type) where
  /-- All operations succeed and the closure computes a value. -/
  | value (value : α)
  /-- After some operations that succeed, the library aborts the transaction. -/
  | refused
  /-- After some operations that succeed, an allocation fails for lack of memory. -/
  | outOfMemory

/-- Where the closure gets with the answers of the library. -/
def Closure.ending (lib : TransactionalLibrary σ TX) (tx : TX) : Closure α → σ → Ending α × σ
  | .ret value, s => (.value value, s)
  | .read source size next, s =>
    match lib.tmRead tx source size s with
    | (some target, s) => (next target).ending lib tx s
    | (none, s) => (.refused, s)
  | .write source target next, s =>
    match lib.tmWrite tx source target s with
    | (true, s) => next.ending lib tx s
    | (false, s) => (.refused, s)
  | .alloc size next, s =>
    match lib.tmAlloc tx size s with
    | (.success target, s) => (next target).ending lib tx s
    | (.nomem, s) => (.outOfMemory, s)
    | (.abort, s) => (.refused, s)
  | .free target next, s =>
    match lib.tmFree tx target s with
    | (true, s) => next.ending lib tx s
    | (false, s) => (.refused, s)

/-- The attempt that starts in state `s` is left by the exception of a failed allocation and is
committed, or it is retried and a later one is. -/
inductive CommitsOutOfMemory (lib : TransactionalLibrary σ TX) (mode : Transaction.Mode)
    (func : Closure α) : σ → Prop where
  | commits {s s₁ s₂ s₃ : σ} {tx : TX} (hbegin : lib.tmBegin mode.isRo s = (some tx, s₁))
      (hending : func.ending lib tx s₁ = (.outOfMemory, s₂))
      (hend : lib.tmEnd tx s₂ = (true, s₃)) : CommitsOutOfMemory lib mode func s
  | refused {s s₁ s₂ : σ} {tx : TX} (hbegin : lib.tmBegin mode.isRo s = (some tx, s₁))
      (hending : func.ending lib tx s₁ = (.refused, s₂))
      (hlater : CommitsOutOfMemory lib mode func s₂) : CommitsOutOfMemory lib mode func s
  | endRefused {s s₁ s₂ s₃ : σ} {tx : TX} {value : α}
      (hbegin : lib.tmBegin mode.isRo s = (some tx, s₁))
      (hending : func.ending lib tx s₁ = (.value value, s₂))
      (hend : lib.tmEnd tx s₂ = (false, s₃))
      (hlater : CommitsOutOfMemory lib mode func s₃) : CommitsOutOfMemory lib mode func s

/-- Only a refusal marks the transaction as aborted. -/
theorem Closure.run_eq (func : Closure α) (txn : Transaction TX) (s : σ) :
    func.run lib txn s = match func.ending lib txn.tx s with
      | (.value value, s) => (.ok value, txn, s)
      | (.refused, s) => (.error .transactionRetry, { txn with aborted := true }, s)
      | (.outOfMemory, s) => (.error .transactionAlloc, txn, s) := by
  induction func generalizing s with
  | ret value => rfl
  -- each operation is refused or lets the closure go on
  | read source size next ih =>
    rcases hread : lib.tmRead txn.tx source size s with ⟨_ | target, s⟩
    · simp [run, ending, Transaction.read, hread]
    · simp [run, ending, Transaction.read, hread, ih]
  | write source target next ih =>
    rcases hwrite : lib.tmWrite txn.tx source target s with ⟨_ | _, s⟩
    · simp [run, ending, Transaction.write, assertMode, hwrite]
    · simp [run, ending, Transaction.write, assertMode, hwrite, ih]
  | alloc size next ih =>
    rcases halloc : lib.tmAlloc txn.tx size s with ⟨target | _ | _, s⟩
    · simp [run, ending, Transaction.alloc, assertMode, halloc, ih]
    · simp [run, ending, Transaction.alloc, assertMode, halloc]
    · simp [run, ending, Transaction.alloc, assertMode, halloc]
  | free target next ih =>
    rcases hfree : lib.tmFree txn.tx target s with ⟨_ | _, s⟩
    · simp [run, ending, Transaction.free, assertMode, hfree]
    · simp [run, ending, Transaction.free, assertMode, hfree, ih]

/-! ## One attempt -/

section Attempt

variable {s₁ s₂ s₃ : σ} {tx : TX} {value : α} {committed : Bool}

/-- The attempt when `tm_begin` fails. -/
theorem attempt_of_begin (hbegin : lib.tmBegin mode.isRo s = (none, s₁)) :
    attempt lib mode func s = (.threw .transactionBegin, ⟨.error .transactionBegin, none⟩, s₁) := by
  simp [attempt, hbegin]

/-- The attempt when an operation is refused. -/
theorem attempt_of_refused (hbegin : lib.tmBegin mode.isRo s = (some tx, s₁))
    (hending : func.ending lib tx s₁ = (.refused, s₂)) :
    attempt lib mode func s = (.threw .transactionRetry, ⟨.error .transactionRetry, none⟩, s₂) := by
  simp [attempt, hbegin, Closure.run_eq, hending, Transaction.destroy]

/-- The attempt when the closure returns. -/
theorem attempt_of_value (hbegin : lib.tmBegin mode.isRo s = (some tx, s₁))
    (hending : func.ending lib tx s₁ = (.value value, s₂))
    (hend : lib.tmEnd tx s₂ = (committed, s₃)) :
    attempt lib mode func s =
      (if committed then .returned value else .threw .transactionRetry,
        ⟨.ok value, some committed⟩, s₃) := by
  cases committed <;> simp [attempt, hbegin, Closure.run_eq, hending, Transaction.destroy, hend]

/-- The exception of a failed allocation does not keep the destructor from calling `tm_end`. -/
theorem attempt_of_outOfMemory (hbegin : lib.tmBegin mode.isRo s = (some tx, s₁))
    (hending : func.ending lib tx s₁ = (.outOfMemory, s₂))
    (hend : lib.tmEnd tx s₂ = (committed, s₃)) :
    attempt lib mode func s =
      (if committed then .threw .transactionAlloc else .terminated,
        ⟨.error .transactionAlloc, some committed⟩, s₃) := by
  cases committed <;> simp [attempt, hbegin, Closure.run_eq, hending, Transaction.destroy, hend]

end Attempt

/-- A retried attempt is followed by the others. -/
theorem transactional_of_retry (h : attempt lib mode func s = (.threw .transactionRetry, a, s')) :
    transactional lib mode func (fuel + 1) s =
      (transactional lib mode func fuel s').map fun r => (r.1, a :: r.2.1, r.2.2) := by
  simp [transactional, h]

/-- The first attempt that is not retried is the last. -/
theorem transactional_of_ne_retry (h : attempt lib mode func s = (outcome, a, s'))
    (hne : outcome ≠ .threw .transactionRetry) :
    transactional lib mode func (fuel + 1) s = some (outcome, [a], s') := by
  unfold transactional
  rw [h]
  split
  next heq =>
    injection heq with houtcome
    exact absurd houtcome hne
  next heq =>
    obtain ⟨rfl, rfl, rfl⟩ : _ ∧ _ ∧ _ := by simpa using heq
    rfl

/-! ## All attempts -/

/-- If no failed allocation is committed, `transactional` is all-or-nothing. -/
theorem allOrNothing_of_not_commits (h : ¬ CommitsOutOfMemory lib mode func s)
    (hrun : transactional lib mode func fuel s = some (outcome, attempts, s')) :
    AllOrNothing outcome attempts := by
  induction fuel generalizing s attempts with
  | zero => cases hrun
  | succ fuel ih =>
    -- a retried attempt commits nothing, and the rest is all-or-nothing
    have hretry : ∀ {a : Attempt α} {s₁ : σ},
        attempt lib mode func s = (.threw .transactionRetry, a, s₁) → a.committed = false →
        ¬ CommitsOutOfMemory lib mode func s₁ → AllOrNothing outcome attempts := by
      intro a s₁ hattempt hcommitted hlater
      rw [transactional_of_retry hattempt, Option.map_eq_some_iff] at hrun
      obtain ⟨⟨o, as, s₂⟩, hrest, heq⟩ := hrun
      cases heq
      exact (allOrNothing_cons hcommitted).mpr (ih hlater hrest)
    -- an attempt that is not retried decides
    have hlast : ∀ {o : Outcome α} {a : Attempt α} {s₁ : σ},
        attempt lib mode func s = (o, a, s₁) → o ≠ .threw .transactionRetry → AllOrNothing o [a] →
        AllOrNothing outcome attempts := by
      intro o a s₁ hattempt hne hall
      rw [transactional_of_ne_retry hattempt hne, Option.some.injEq] at hrun
      cases hrun
      exact hall
    -- the transaction does not begin, or the closure gets to one of its endings
    rcases hbegin : lib.tmBegin mode.isRo s with ⟨_ | tx, s₁⟩
    · -- `tm_begin` fails
      refine hlast (attempt_of_begin hbegin) (by simp) ⟨nofun, fun _ _ _ => rfl⟩
    rcases hending : func.ending lib tx s₁ with ⟨value | _ | _, s₂⟩
    · rcases hend : lib.tmEnd tx s₂ with ⟨_ | _, s₃⟩
      · -- `tm_end` refuses, and the next attempt is made
        exact hretry (attempt_of_value hbegin hending hend) rfl
          fun hlater => h (.endRefused hbegin hending hend hlater)
      · -- committed: the value is returned
        refine hlast (attempt_of_value hbegin hending hend) (by simp) ⟨fun v hv => ?_, nofun⟩
        cases hv
        exact ⟨_, rfl, rfl⟩
    · -- the library has aborted the transaction, so the destructor does not call `tm_end`
      exact hretry (attempt_of_refused hbegin hending) rfl
        fun hlater => h (.refused hbegin hending hlater)
    · rcases hend : lib.tmEnd tx s₂ with ⟨_ | _, s₃⟩
      · -- the destructor throws while the exception of the allocation is on its way
        exact hlast (attempt_of_outOfMemory hbegin hending hend) (by simp) ⟨nofun, nofun⟩
      · -- the defect that the hypothesis excludes
        exact absurd (.commits hbegin hending hend) h

/-- If a failed allocation is committed, `transactional` is left by its exception. -/
theorem exists_not_allOrNothing (h : CommitsOutOfMemory lib mode func s) :
    ∃ fuel outcome attempts s', transactional lib mode func fuel s = some (outcome, attempts, s') ∧
      ¬ AllOrNothing outcome attempts := by
  induction h with
  | @commits s s₁ s₂ s₃ tx hbegin hending hend =>
    refine ⟨1, .threw .transactionAlloc, [⟨.error .transactionAlloc, some true⟩], s₃, ?_, ?_⟩
    · exact transactional_of_ne_retry (attempt_of_outOfMemory hbegin hending hend) (by simp)
    · intro hall
      have hnone := hall.threw _ rfl (by decide)
      cases hnone
  -- a retried attempt only adds one that is not committed
  | refused hbegin hending _ ih =>
    obtain ⟨fuel, outcome, attempts, s', hrun, hnot⟩ := ih
    refine ⟨fuel + 1, outcome, ⟨.error .transactionRetry, none⟩ :: attempts, s', ?_, ?_⟩
    · rw [transactional_of_retry (attempt_of_refused hbegin hending), hrun]
      rfl
    · intro hall
      exact hnot ((allOrNothing_cons rfl).mp hall)
  | @endRefused s s₁ s₂ s₃ tx value hbegin hending hend _ ih =>
    obtain ⟨fuel, outcome, attempts, s', hrun, hnot⟩ := ih
    refine ⟨fuel + 1, outcome, ⟨.ok value, some false⟩ :: attempts, s', ?_, ?_⟩
    · rw [transactional_of_retry (attempt_of_value hbegin hending hend), hrun]
      rfl
    · intro hall
      exact hnot ((allOrNothing_cons rfl).mp hall)

/-- `transactional` is all-or-nothing, for any number of attempts, exactly if the library never
accepts the commit of an attempt in which an allocation has failed for lack of memory. -/
theorem allOrNothing_iff :
    (∀ fuel outcome attempts s',
      transactional lib mode func fuel s = some (outcome, attempts, s') →
        AllOrNothing outcome attempts) ↔
      ¬ CommitsOutOfMemory lib mode func s := by
  constructor
  · intro hall hcommits
    obtain ⟨fuel, outcome, attempts, s', hrun, hnot⟩ := exists_not_allOrNothing hcommits
    exact hnot (hall fuel outcome attempts s' hrun)
  · intro hnot fuel outcome attempts s' hrun
    exact allOrNothing_of_not_commits hnot hrun

/-! ## The implementation under test -/

/-- The implementation under test with one transaction running on it. -/
structure LibraryState (align : ℕ) where
  /-- The region. -/
  region : TransactionalMemory.Region (MemWord align)
  /-- The transaction object. -/
  current : TransactionalMemory.Transaction (MemWord align)
  /-- The blocks that `aligned_alloc` still returns. -/
  blocks : List Addr

/-- The functions of `394984/tm.cpp`, with words of `align` bytes. -/
def library {align : ℕ} (S : Setup (MemWord align)) (t : Tid) :
    TransactionalLibrary (LibraryState align) Tid where
  tmBegin isRo s := (some t, { s with current := TransactionalMemory.tmBegin s.region isRo })
  tmEnd t s :=
    match TransactionalMemory.tmEnd S t s.region s.current with
    | (committed, region) => (committed, { s with region })
  tmRead _ source size s :=
    match TransactionalMemory.tmRead S s.region s.current
        (ByteMemory.wordAddrs align source size) with
    | (region, none) => (none, { s with region })
    | (region, some (txn, vals)) =>
      (some (vals.flatMap List.ofFn), { s with region, current := txn })
  tmWrite _ source target s :=
    (true, { s with
      current := TransactionalMemory.tmWrite s.current
        (ByteMemory.wordEntries align target source) })
  tmAlloc _ size s :=
    match s.blocks with
    | [] => (.nomem, s)
    | target :: blocks =>
      match TransactionalMemory.tmAlloc s.region s.current
          (some (ByteMemory.wordAddrs align target size)) with
      | (region, txn, _) => (.success target, { region, current := txn, blocks })
  tmFree _ _ s := (true, s)

/-- A fresh region with one word at address 8; no block is large enough for `tm_alloc`. -/
def exhausted : LibraryState 8 where
  region := tmCreate 0 (fun _ _ => 255) [8]
  current := Transaction.create 0 false
  blocks := []

/-- Write the word, then allocate more memory than there is. -/
def writeThenAlloc : Closure Unit :=
  .write [1, 2, 3, 4, 5, 6, 7, 8] 8 (.alloc (2 ^ 60) fun _ => .ret ())

/-- A failed allocation makes the write before it visible. -/
theorem allOrNothing_fails :
    ∃ outcome attempts s', transactional (library (Setup.plain (MemWord 8)) 1) .readWrite
        writeThenAlloc 1 exhausted = some (outcome, attempts, s') ∧
      ¬ AllOrNothing outcome attempts ∧
      List.ofFn (exhausted.region.shared.mem 8) = [0, 0, 0, 0, 0, 0, 0, 0] ∧
      List.ofFn (s'.region.shared.mem 8) = [1, 2, 3, 4, 5, 6, 7, 8] := by
  refine ⟨.threw .transactionAlloc, [⟨.error .transactionAlloc, some true⟩], _, rfl, ?_, ?_, ?_⟩
  · intro hall
    have hnone := hall.threw _ rfl (by decide)
    cases hnone
  · decide
  · decide

end TransactionalMemory.Grading
