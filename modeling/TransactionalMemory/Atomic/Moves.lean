import TransactionalMemory.Atomic.Machine

/-!
# The transitions of the machine, one by one

`Move S t sh x sh' x'` lists what one command can do to a transaction `x` and to the shared
state `sh`, with the guards under which it does so. `move_of_act` says that the list is complete,
and `step_cases` lifts it to states of the machine: a step is a move of one transaction, which
leaves the other transactions alone, or a tick of the clock from another region. Invariants are
proved by cases on `Move`.
-/

namespace TransactionalMemory

open VersionedWriteLock

variable {V : Type} {S : Setup V} {t u : Tid} {sh sh' : Shared V} {x x' : Tx V}

namespace Shared

/-- Replace one lock word. -/
def setLock (sh : Shared V) (l : LockId) (w : Word) : Shared V :=
  { sh with locks := Function.update sh.locks l w }

/-- Replace one shared word. -/
def setWord (sh : Shared V) (a : Addr) (v : V) : Shared V :=
  { sh with mem := Function.update sh.mem a v }

/-- Advance the clock by one. -/
def tick (sh : Shared V) : Shared V := { sh with gvc := sh.gvc + 1 }

/-- Setting a lock keeps the clock. -/
@[simp] theorem setLock_gvc (l : LockId) (w : Word) : (sh.setLock l w).gvc = sh.gvc := rfl

/-- Setting a lock keeps the words. -/
@[simp] theorem setLock_mem (l : LockId) (w : Word) : (sh.setLock l w).mem = sh.mem := rfl

/-- The lock that is set. -/
@[simp] theorem setLock_locks_self (l : LockId) (w : Word) : (sh.setLock l w).locks l = w := by
  simp [setLock]

/-- The other locks stay as they are. -/
theorem setLock_locks_of_ne {l l' : LockId} (h : l' ≠ l) (w : Word) :
    (sh.setLock l w).locks l' = sh.locks l' := by
  simp [setLock, h]

/-- Storing a word keeps the clock. -/
@[simp] theorem setWord_gvc (a : Addr) (v : V) : (sh.setWord a v).gvc = sh.gvc := rfl

/-- Storing a word keeps the locks. -/
@[simp] theorem setWord_locks (a : Addr) (v : V) : (sh.setWord a v).locks = sh.locks := rfl

/-- The word that is stored. -/
@[simp] theorem setWord_mem_self (a : Addr) (v : V) : (sh.setWord a v).mem a = v := by
  simp [setWord]

/-- The other words stay as they are. -/
theorem setWord_mem_of_ne {a b : Addr} (h : b ≠ a) (v : V) :
    (sh.setWord a v).mem b = sh.mem b := by
  simp [setWord, h]

/-- A tick increments the clock. -/
@[simp] theorem tick_gvc : sh.tick.gvc = sh.gvc + 1 := rfl

/-- A tick keeps the locks. -/
@[simp] theorem tick_locks : sh.tick.locks = sh.locks := rfl

/-- A tick keeps the words. -/
@[simp] theorem tick_mem : sh.tick.mem = sh.mem := rfl

end Shared

/-- The moves of a transaction `x` with handle `t`. -/
inductive Move (S : Setup V) (t : Tid) (sh : Shared V) (x : Tx V) : Shared V → Tx V → Prop where
  -- calls; `tm_end` is done at once for a read-only transaction
  | begin (isRo : Bool) (hpc : x.pc = .unborn) :
      Move S t sh x sh { x with txn := Transaction.create sh.gvc isRo, pc := .idle }
  | callRead (addrs : List Addr) (hpc : x.pc = .idle) :
      Move S t sh x sh { x with pc := .read addrs }
  | write (a : Addr) (val : V) (hpc : x.pc = .idle) :
      Move S t sh x sh { x with
        txn := { x.txn with writeSet := x.txn.writeSet.insert a val }
        accessed := a :: x.accessed }
  | endRo (hpc : x.pc = .idle) (hro : x.txn.isRo = true) :
      Move S t sh x sh { x with pc := .committed }
  | callEnd (hpc : x.pc = .idle) (hro : x.txn.isRo = false) :
      Move S t sh x sh { x with
        pc := .lockLoad (x.txn.writeSet.toList (S.writeOrder t)), locksHeld := ∅ }
  -- `tm_read`: pre-validation, copy and post-validation of one word after the other
  | readDone (hpc : x.pc = .read []) : Move S t sh x sh { x with pc := .idle }
  | readStart (a : Addr) (todo : List Addr) (hpc : x.pc = .read (a :: todo)) :
      Move S t sh x sh { x with
        pc := .readPreLocked a todo (getVersion (sh.locks (S.lockOf a)))
        accessed := a :: x.accessed }
  | readPreFail (a : Addr) (todo : List Addr) (version : Word)
      (hpc : x.pc = .readPreLocked a todo version)
      (hfail : isLocked (sh.locks (S.lockOf a)) = true ∨ x.txn.rv < version) :
      Move S t sh x sh { x with pc := .aborted }
  | readPrePass (a : Addr) (todo : List Addr) (version : Word)
      (hpc : x.pc = .readPreLocked a todo version)
      (hfree : isLocked (sh.locks (S.lockOf a)) = false) (hle : ¬ x.txn.rv < version) :
      Move S t sh x sh { x with pc := .readCopy a todo version }
  | readCopy (a : Addr) (todo : List Addr) (version : Word)
      (hpc : x.pc = .readCopy a todo version) :
      Move S t sh x sh { x with pc := .readPostVersion a todo version (x.txn.wordAt sh.mem a) }
  | readPostVersion (a : Addr) (todo : List Addr) (version : Word) (val : V)
      (hpc : x.pc = .readPostVersion a todo version val) :
      Move S t sh x sh { x with
        pc := .readPostLocked a todo version val (getVersion (sh.locks (S.lockOf a))) }
  | readPostFail (a : Addr) (todo : List Addr) (version : Word) (val : V) (newVersion : Word)
      (hpc : x.pc = .readPostLocked a todo version val newVersion)
      (hfail : isLocked (sh.locks (S.lockOf a)) = true ∨ newVersion ≠ version ∨
        x.txn.isRo = true ∧ x.txn.rv < newVersion) :
      Move S t sh x sh { x with pc := .aborted }
  | readAccept (a : Addr) (todo : List Addr) (version : Word) (val : V) (newVersion : Word)
      (hpc : x.pc = .readPostLocked a todo version val newVersion)
      (hfree : isLocked (sh.locks (S.lockOf a)) = false) (heq : newVersion = version)
      (hle : x.txn.isRo = true → ¬ x.txn.rv < newVersion) :
      Move S t sh x sh (x.acceptWord a val todo)
  -- `tm_end`, locking: the lock is taken, or it was held before, or the transaction gives up
  | lockLoad (e : Addr × V) (todo : List (Addr × V)) (hpc : x.pc = .lockLoad (e :: todo)) :
      Move S t sh x sh { x with pc := .lockCas e todo (lockExpected (sh.locks (S.lockOf e.1))) }
  | lockTake (e : Addr × V) (todo : List (Addr × V)) (expected : Word)
      (hpc : x.pc = .lockCas e todo expected) (heq : sh.locks (S.lockOf e.1) = expected) :
      Move S t sh x (sh.setLock (S.lockOf e.1) (lockDesired expected))
        { x with
          pc := .lockLoad todo
          locksHeld := x.locksHeld.insert (S.lockOf e.1)
          owned := insert (S.lockOf e.1) x.owned }
  | lockAgain (e : Addr × V) (todo : List (Addr × V)) (expected : Word)
      (hpc : x.pc = .lockCas e todo expected) (hne : sh.locks (S.lockOf e.1) ≠ expected)
      (hheld : S.lockOf e.1 ∈ x.locksHeld) :
      Move S t sh x sh
        { x with pc := .lockLoad todo, locksHeld := x.locksHeld.insert (S.lockOf e.1) }
  | lockFail (e : Addr × V) (todo : List (Addr × V)) (expected : Word)
      (hpc : x.pc = .lockCas e todo expected) (hne : sh.locks (S.lockOf e.1) ≠ expected)
      (hheld : S.lockOf e.1 ∉ x.locksHeld) :
      Move S t sh x sh (x.giveUp S t)
  -- `tm_end`, rolling back
  | unlockDone (hpc : x.pc = .unlockLoad []) : Move S t sh x sh { x with pc := .aborted }
  | unlockLoad (l : LockId) (todo : List LockId) (hpc : x.pc = .unlockLoad (l :: todo)) :
      Move S t sh x sh { x with pc := .unlockStore l todo (sh.locks l) }
  | unlockStore (l : LockId) (todo : List LockId) (current : Word)
      (hpc : x.pc = .unlockStore l todo current) :
      Move S t sh x (sh.setLock l (unlockValue current))
        { x with pc := .unlockLoad todo, owned := x.owned.erase l }
  -- `tm_end`, advancing the clock
  | clockValidate (hpc : x.pc = .lockLoad []) (hne : x.txn.rv + 1 ≠ sh.gvc + 1) :
      Move S t sh x sh.tick
        { x with
          wv := sh.gvc + 1
          pc := .validateLocked (x.txn.readSet.toList (S.readOrder t)) }
  | clockSkip (hpc : x.pc = .lockLoad []) (heq : x.txn.rv + 1 = sh.gvc + 1) :
      Move S t sh x sh.tick ({ x with wv := sh.gvc + 1 }.startWriteBack S t)
  -- `tm_end`, validating; the version is compared for own locks and for free ones
  | validateDone (hpc : x.pc = .validateLocked []) : Move S t sh x sh (x.startWriteBack S t)
  | validateFree (a : Addr) (todo : List Addr) (hpc : x.pc = .validateLocked (a :: todo))
      (hheld : S.lockOf a ∉ x.locksHeld) (hfree : isLocked (sh.locks (S.lockOf a)) = false) :
      Move S t sh x sh { x with pc := .validateVersion a todo }
  | validateLockedFail (a : Addr) (todo : List Addr) (hpc : x.pc = .validateLocked (a :: todo))
      (hheld : S.lockOf a ∉ x.locksHeld) (hlocked : isLocked (sh.locks (S.lockOf a)) = true) :
      Move S t sh x sh (x.giveUp S t)
  | validateVersionPass (a : Addr) (todo : List Addr)
      (hpc : x.pc = .validateVersion a todo ∨
        x.pc = .validateLocked (a :: todo) ∧ S.lockOf a ∈ x.locksHeld)
      (hle : ¬ x.txn.rv < getVersion (sh.locks (S.lockOf a))) :
      Move S t sh x sh { x with pc := .validateLocked todo }
  | validateVersionFail (a : Addr) (todo : List Addr)
      (hpc : x.pc = .validateVersion a todo ∨
        x.pc = .validateLocked (a :: todo) ∧ S.lockOf a ∈ x.locksHeld)
      (hlt : x.txn.rv < getVersion (sh.locks (S.lockOf a))) :
      Move S t sh x sh (x.giveUp S t)
  -- `tm_end`, writing back: each word is followed by the store to its lock
  | writeDone (hpc : x.pc = .writeBack []) : Move S t sh x sh { x with pc := .committed }
  | store (e : Addr × V) (todo : List (Addr × V)) (hpc : x.pc = .writeBack (e :: todo)) :
      Move S t sh x (sh.setWord e.1 e.2) { x with pc := .publish e todo }
  | publish (e : Addr × V) (todo : List (Addr × V)) (hpc : x.pc = .publish e todo) :
      Move S t sh x (sh.setLock (S.lockOf e.1) (setVersion x.wv))
        { x with pc := .writeBack todo, owned := x.owned.erase (S.lockOf e.1) }

/-- The version test of a validation step either passes or makes the transaction give up. -/
private theorem move_checkVersion {a : Addr} {todo : List Addr}
    (hpc : x.pc = .validateVersion a todo ∨
      x.pc = .validateLocked (a :: todo) ∧ S.lockOf a ∈ x.locksHeld) :
    Move S t sh x sh (x.checkVersion S t sh a todo) := by
  unfold Tx.checkVersion
  split
  next hlt => exact .validateVersionFail a todo hpc hlt
  next hle => exact .validateVersionPass a todo hpc hle

/-- One atomic access is one of the moves. -/
private theorem move_of_step (h : x.step S t sh = some (sh', x')) : Move S t sh x sh' x' := by
  unfold Tx.step at h
  split at h
  case h_1 | h_2 | h_3 | h_4 => cases h
  case h_5 hpc => cases h; exact .readDone hpc
  case h_6 a todo hpc => cases h; exact .readStart a todo hpc
  case h_7 a todo version hpc =>
    split at h
    next hfail => cases h; exact .readPreFail a todo version hpc hfail
    next hpass =>
      cases h
      rw [not_or, Bool.not_eq_true] at hpass
      exact .readPrePass a todo version hpc hpass.1 hpass.2
  case h_8 a todo version hpc => cases h; exact .readCopy a todo version hpc
  case h_9 a todo version val hpc => cases h; exact .readPostVersion a todo version val hpc
  case h_10 a todo version val newVersion hpc =>
    split at h
    next hfail => cases h; exact .readPostFail a todo version val newVersion hpc hfail
    next hpass =>
      cases h
      rw [not_or, not_or, Bool.not_eq_true, not_not, not_and] at hpass
      exact .readAccept a todo version val newVersion hpc hpass.1 hpass.2.1 hpass.2.2
  case h_11 e todo hpc => cases h; exact .lockLoad e todo hpc
  case h_12 e todo expected hpc =>
    dsimp only at h
    split at h
    next w hcas =>
      obtain ⟨heq, rfl⟩ := compareExchange_eq_some_iff.1 hcas
      cases h
      exact .lockTake e todo expected hpc heq
    next hcas =>
      have hne := compareExchange_eq_none_iff.1 hcas
      split at h
      next hheld => cases h; exact .lockAgain e todo expected hpc hne hheld
      next hheld => cases h; exact .lockFail e todo expected hpc hne hheld
  case h_13 hpc => cases h; exact .unlockDone hpc
  case h_14 l todo hpc => cases h; exact .unlockLoad l todo hpc
  case h_15 l todo current hpc => cases h; exact .unlockStore l todo current hpc
  case h_16 hpc =>
    dsimp only at h
    split at h
    next hne => cases h; exact .clockValidate hpc hne
    next heq => cases h; exact .clockSkip hpc (not_not.1 heq)
  case h_17 hpc => cases h; exact .validateDone hpc
  case h_18 a todo hpc =>
    split at h
    next hheld => cases h; exact move_checkVersion (.inr ⟨hpc, hheld⟩)
    next hheld =>
      split at h
      next hlocked => cases h; exact .validateLockedFail a todo hpc hheld hlocked
      next hfree => cases h; exact .validateFree a todo hpc hheld (Bool.not_eq_true _ ▸ hfree)
  case h_19 a todo hpc => cases h; exact move_checkVersion (.inl hpc)
  case h_20 hpc => cases h; exact .writeDone hpc
  case h_21 e todo hpc => cases h; exact .store e todo hpc
  case h_22 e todo hpc => cases h; exact .publish e todo hpc

/-- Every command has the effect of one of the moves. -/
theorem move_of_act {c : Command V} (h : x.act S t sh c = some (sh', x')) :
    Move S t sh x sh' x' := by
  unfold Tx.act at h
  cases c with
  | begin isRo =>
    dsimp only at h
    split at h
    next hpc => cases h; exact .begin isRo hpc
    next => cases h
  | read addrs =>
    dsimp only at h
    split at h
    next hpc => cases h; exact .callRead addrs hpc
    next => cases h
  | write a val =>
    dsimp only at h
    split at h
    next hpc => cases h; exact .write a val hpc
    next => cases h
  | endTx =>
    dsimp only at h
    split at h
    next hpc =>
      split at h
      next hro => cases h; exact .endRo hpc hro
      next hro => cases h; exact .callEnd hpc (Bool.not_eq_true _ ▸ hro)
    next => cases h
  | step => exact move_of_step h

/-- The state after a move of the transaction `t`. -/
def State.moved (s : State V) (t : Tid) (sh' : Shared V) (x' : Tx V) : State V :=
  { shared := sh', tx := Function.update s.tx t x' }

/-- The state after a tick of the clock from another region. -/
def State.ticked (s : State V) : State V := { s with shared := s.shared.tick }

namespace State

variable {s : State V}

/-- The shared state after a move. -/
@[simp] theorem moved_shared : (s.moved t sh' x').shared = sh' := rfl

/-- The transaction that has moved. -/
@[simp] theorem moved_tx_self : (s.moved t sh' x').tx t = x' := by simp [moved]

/-- The other transactions stay as they are. -/
@[simp] theorem moved_tx_of_ne (h : u ≠ t) : (s.moved t sh' x').tx u = s.tx u := by
  simp [moved, h]

/-- The shared state after a tick. -/
@[simp] theorem ticked_shared : s.ticked.shared = s.shared.tick := rfl

/-- A tick keeps the transactions. -/
@[simp] theorem ticked_tx : s.ticked.tx = s.tx := rfl

/-- A property of every transaction after a move. -/
theorem forall_moved {P : Tid → Tx V → Prop} (hself : P t x')
    (hother : ∀ u, u ≠ t → P u (s.tx u)) (u : Tid) : P u ((s.moved t sh' x').tx u) := by
  by_cases hut : u = t
  · subst hut
    rwa [moved_tx_self]
  · rw [moved_tx_of_ne hut]
    exact hother u hut

end State

/-- A step of the machine is a move of one transaction or a tick from another region. -/
theorem step_cases [Zero V] {s s' : State V} {lab : Label V}
    (h : (machine S).step s lab = some s') :
    (∃ t c sh' x', lab = .tx t c ∧ Move S t s.shared (s.tx t) sh' x' ∧ s' = s.moved t sh' x') ∨
    (lab = .otherRegion ∧ s' = s.ticked) := by
  cases lab with
  | tx t c =>
    simp only [machine, Option.map_eq_some_iff] at h
    obtain ⟨⟨sh', x'⟩, hact, rfl⟩ := h
    exact .inl ⟨t, c, sh', x', rfl, move_of_act hact, rfl⟩
  | otherRegion =>
    simp only [machine, Option.some.injEq] at h
    exact .inr ⟨rfl, h.symm⟩

end TransactionalMemory
