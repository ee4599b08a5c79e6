import TransactionalMemory.Atomic.Aborts

/-!
# Aborts are justified, and a transaction alone commits

`AbortsJustified` collects what the users of a region may rely on when a transaction is refused:
some other transaction was committing under a lock it needed, no lock stays behind, a
transaction that runs alone is never refused and ends, and transactions on disjoint sets of locks
do not abort each other. It holds of all runs that keep the clock below `2 ^ 63`
(`abortsJustified`).

That the calls of a transaction alone come to an end is shown with the measure `stepsLeft`, which
every atomic access decreases.
-/

namespace TransactionalMemory

open VersionedWriteLock UnorderedMap Tx

variable {V : Type} {S : Setup V} {t u : Tid} {sh sh' : Shared V} {x x' : Tx V} {s s' : State V}

namespace Tx

/-- The transaction is executing `tm_read`. -/
def InRead (x : Tx V) : Prop :=
  match x.pc with
  | .read _ | .readPreLocked .. | .readCopy .. | .readPostVersion .. | .readPostLocked .. => True
  | _ => False

/-- The transaction is executing `tm_end` and has not incremented the clock. -/
def BeforeClock (x : Tx V) : Prop :=
  match x.pc with
  | .lockLoad _ | .lockCas .. => True
  | _ => False

/-- The atomic accesses of `tm_end` after the write set is locked: at most one validation and
then either the write-back or the rollback. -/
def writeOrRollBack (x : Tx V) : ℕ :=
  2 * x.txn.writeSet.entries.length + 2 * x.locksHeld.elems.length + 2

/-- A bound on the atomic accesses left in the call in progress. -/
def stepsLeft (x : Tx V) : ℕ :=
  match x.pc with
  | .unborn | .idle | .aborted | .committed => 0
  | .read todo => 5 * todo.length + 1
  | .readPreLocked _ todo _ => 5 * todo.length + 5
  | .readCopy _ todo _ => 5 * todo.length + 4
  | .readPostVersion _ todo _ _ => 5 * todo.length + 3
  | .readPostLocked _ todo _ _ _ => 5 * todo.length + 2
  -- every lock taken here adds one to those the rollback clears
  | .lockLoad todo =>
    4 * todo.length + 2 * x.txn.readSet.elems.length + x.writeOrRollBack + 1
  | .lockCas _ todo _ =>
    4 * todo.length + 2 * x.txn.readSet.elems.length + x.writeOrRollBack + 4
  | .validateLocked todo => 2 * todo.length + x.writeOrRollBack
  | .validateVersion _ todo => 2 * todo.length + x.writeOrRollBack + 1
  | .unlockLoad todo => 2 * todo.length + 1
  | .unlockStore _ todo _ => 2 * todo.length + 2
  | .writeBack todo => 2 * todo.length + 1
  | .publish _ todo => 2 * todo.length + 2

/-- Giving up brings the end closer. -/
theorem stepsLeft_giveUp : (x.giveUp S t).stepsLeft < x.writeOrRollBack := by
  show 2 * (x.locksHeld.toList (S.heldOrder t)).length + 1 < x.writeOrRollBack
  rw [UnorderedSet.length_toList, writeOrRollBack]
  omega

/-- Starting the write-back brings the end closer. -/
theorem stepsLeft_startWriteBack : (x.startWriteBack S t).stepsLeft < x.writeOrRollBack := by
  show 2 * (x.txn.writeSet.toList (S.writeOrder t)).length + 1 < x.writeOrRollBack
  rw [UnorderedMap.length_toList, writeOrRollBack]
  omega

/-- A call in progress has a next atomic access. -/
theorem exists_step (hcall : x.InRead ∨ x.InEnd) : ∃ r, x.step S t sh = some r := by
  rw [← Option.isSome_iff_exists]
  unfold step
  split
  case h_1 hpc | h_2 hpc | h_3 hpc | h_4 hpc => simp [InRead, InEnd, hpc] at hcall
  -- the tests of `tm_read`
  case h_7 | h_10 => split <;> rfl
  -- the compare-exchange, and if it fails the test whether the lock is held
  case h_12 =>
    dsimp only
    split
    · rfl
    · split <;> rfl
  -- the tests of the validation
  case h_18 =>
    split
    · rfl
    · split <;> rfl
  all_goals rfl

end Tx

/-- Every atomic access of a call decreases the measure. -/
theorem stepsLeft_move (hcall : x.InRead ∨ x.InEnd) (hmove : Move S t sh x sh' x') :
    x'.stepsLeft < x.stepsLeft := by
  have hgive := stepsLeft_giveUp (S := S) (t := t) (x := x)
  have hwrite := stepsLeft_startWriteBack (S := S) (t := t) (x := x)
  cases hmove with
  | begin _ hpc | callRead _ hpc | write _ _ hpc | endRo hpc | callEnd hpc =>
    simp [InRead, InEnd, hpc] at hcall
  | readDone hpc | readPreFail _ _ _ hpc | readPrePass _ _ _ hpc | readCopy _ _ _ hpc
  | readPostVersion _ _ _ _ hpc | readPostFail _ _ _ _ _ hpc | readAccept _ _ _ _ _ hpc
  | unlockDone hpc | unlockLoad _ _ hpc | unlockStore _ _ _ hpc | writeDone hpc | store _ _ hpc
  | publish _ _ hpc =>
    simp [stepsLeft, acceptWord, hpc] <;> omega
  | readStart a todo hpc =>
    simp only [stepsLeft, hpc, List.length_cons]
    omega
  | lockLoad e todo hpc =>
    simp only [stepsLeft, hpc, List.length_cons, writeOrRollBack]
    omega
  | lockTake e todo expected hpc heq | lockAgain e todo expected hpc hne hheld =>
    -- the held set grows by at most one lock, which costs a load and a store of the rollback
    have hlength := UnorderedSet.length_insert_le (s := x.locksHeld) (a := S.lockOf e.1)
    simp only [stepsLeft, hpc, writeOrRollBack]
    omega
  | lockFail e todo expected hpc hne hheld =>
    have hx : x.stepsLeft = 4 * todo.length + 2 * x.txn.readSet.elems.length +
      x.writeOrRollBack + 4 := by simp only [stepsLeft, hpc]
    omega
  | clockValidate hpc hne =>
    simp only [stepsLeft, hpc, writeOrRollBack, UnorderedSet.length_toList, List.length_nil]
    omega
  | clockSkip hpc heq =>
    have hx : x.stepsLeft = 2 * x.txn.readSet.elems.length + x.writeOrRollBack + 1 := by
      simp [stepsLeft, hpc]
    -- the measure does not depend on the write version
    have hsame : ({ x with wv := sh.gvc + 1 }.startWriteBack S t).stepsLeft =
      (x.startWriteBack S t).stepsLeft := rfl
    omega
  | validateDone hpc =>
    have hx : x.stepsLeft = x.writeOrRollBack := by simp [stepsLeft, hpc]
    omega
  | validateFree a todo hpc hheld hfree =>
    simp only [stepsLeft, hpc, writeOrRollBack, List.length_cons]
    omega
  | validateLockedFail a todo hpc hheld hlocked =>
    have hx : x.stepsLeft = 2 * (todo.length + 1) + x.writeOrRollBack := by
      simp only [stepsLeft, hpc, List.length_cons]
    omega
  | validateVersionPass a todo hpc hle =>
    rcases hpc with hpc | ⟨hpc, -⟩ <;>
      simp only [stepsLeft, hpc, writeOrRollBack, List.length_cons] <;> omega
  | validateVersionFail a todo hpc hlt =>
    have hx : x.writeOrRollBack < x.stepsLeft := by
      rcases hpc with hpc | ⟨hpc, -⟩ <;> simp only [stepsLeft, hpc, List.length_cons] <;> omega
    omega

/-- An atomic access of a call leads to another one of the same call, or ends the call. -/
theorem call_move (hmove : Move S t sh x sh' x') :
    (x.InRead → x'.InRead ∨ x'.pc = .idle ∨ x'.pc = .aborted) ∧
    (x.InEnd → x'.InEnd ∨ x'.pc = .committed ∨ x'.pc = .aborted) := by
  cases hmove with
  | validateVersionPass _ _ hpc | validateVersionFail _ _ hpc =>
    rcases hpc with hpc | ⟨hpc, -⟩ <;> simp [InRead, InEnd, giveUp, hpc]
  | begin _ hpc | callRead _ hpc | write _ _ hpc | endRo hpc | callEnd hpc | readDone hpc
  | readStart _ _ hpc | readPreFail _ _ _ hpc | readPrePass _ _ _ hpc | readCopy _ _ _ hpc
  | readPostVersion _ _ _ _ hpc | readPostFail _ _ _ _ _ hpc | readAccept _ _ _ _ _ hpc
  | lockLoad _ _ hpc | lockTake _ _ _ hpc | lockAgain _ _ _ hpc | lockFail _ _ _ hpc
  | unlockDone hpc | unlockLoad _ _ hpc | unlockStore _ _ _ hpc | clockValidate hpc
  | clockSkip hpc | validateDone hpc | validateFree _ _ hpc | validateLockedFail _ _ hpc
  | writeDone hpc | store _ _ hpc | publish _ _ hpc =>
    simp [InRead, InEnd, acceptWord, giveUp, startWriteBack, hpc]

/-- A call increments the clock at most once. -/
theorem beforeClock_move (hcall : x.InRead ∨ x.InEnd) (hmove : Move S t sh x sh' x') :
    (sh'.gvc = sh.gvc ∧ (x'.BeforeClock → x.BeforeClock)) ∨
    (sh'.gvc = sh.gvc + 1 ∧ x.BeforeClock ∧ ¬ x'.BeforeClock) := by
  cases hmove with
  | clockValidate hpc | clockSkip hpc =>
    exact .inr ⟨rfl, by simp [BeforeClock, hpc], fun h => h.elim⟩
  | begin _ hpc | callRead _ hpc | write _ _ hpc | endRo hpc | callEnd hpc =>
    simp [InRead, InEnd, hpc] at hcall
  | lockLoad _ _ hpc | lockTake _ _ _ hpc | lockAgain _ _ _ hpc =>
    exact .inl ⟨rfl, fun _ => by simp [BeforeClock, hpc]⟩
  | _ => exact .inl ⟨rfl, fun h => h.elim⟩

/-! ## Running alone -/

/-- Only `t` and other regions take steps, and the clock stays below `2 ^ 63`. -/
def alone (t : Tid) : State V → Label V → State V → Prop :=
  fun s lab s' => clockBelow (2 ^ 63) s lab s' ∧ ∀ u c, lab = .tx u c → u = t

/-- A transaction that runs alone leaves the others as they are. -/
theorem tx_of_alone [Zero V] {as : List (Label V)} (hrun : (machine S).Run (alone t) s as s')
    (hut : u ≠ t) : s'.tx u = s.tx u := by
  induction hrun with
  | nil => rfl
  | snoc hrun hstep hok ih =>
    rcases step_cases hstep with ⟨v, c, sh', x', rfl, -, rfl⟩ | ⟨-, rfl⟩
    · have hvt := hok.2 v c rfl
      rw [State.moved_tx_of_ne (hvt ▸ hut), ih]
    · exact ih

/-- A transaction that has begun stays so, and keeps what it has accessed. -/
theorem begun_of_run [Zero V] {ok : State V → Label V → State V → Prop} {as : List (Label V)}
    (hrun : (machine S).Run ok s as s') (h : (s.tx t).pc ≠ .unborn) : (s'.tx t).pc ≠ .unborn := by
  refine hrun.invariant (I := fun s => (s.tx t).pc ≠ .unborn) (fun s lab s' ih hstep _ => ?_) h
  rcases step_cases hstep with ⟨v, c, sh', x', -, hmove, rfl⟩ | ⟨-, rfl⟩
  · by_cases htv : t = v
    · subst htv
      rw [State.moved_tx_self]
      cases hmove with
      | write a val hpc => simp [hpc]
      | _ => simp [acceptWord, giveUp, startWriteBack]
    · rwa [State.moved_tx_of_ne htv]
  · exact ih

/-- What a transaction has written or accessed stays on record. -/
theorem accessed_of_run [Zero V] {as : List (Label V)}
    (h : (machine S).Reachable (clockBelow (2 ^ 63)) s)
    (hrun : (machine S).Run (clockBelow (2 ^ 63)) s as s') {a : Addr}
    (ha : a ∈ (s.tx t).txn.writeSet) : a ∈ (s'.tx t).accessed := by
  obtain ⟨bs, hbs⟩ := h
  have hinv := hrun.invariant (I := fun s => (∀ t, (s.tx t).Accounted) ∧ a ∈ (s.tx t).accessed)
    (fun s lab s' ih hstep _ => ?_) ⟨(justified_of_run hbs).accounted,
      ((justified_of_run hbs).accounted t).2.1 a ha⟩
  · exact hinv.2
  rcases step_cases hstep with ⟨v, c, sh', x', -, hmove, rfl⟩ | ⟨-, rfl⟩
  · have hacc := accounted_move (ih.1 v) hmove
    refine ⟨State.forall_moved (P := fun _ y => y.Accounted) hacc.1 fun u _ => ih.1 u, ?_⟩
    by_cases htv : t = v
    · subst htv
      rw [State.moved_tx_self]
      exact hacc.2 a ih.2
    · rw [State.moved_tx_of_ne htv]
      exact ih.2
  · exact ih

/-- A transaction that begins when nobody is inside `tm_end`, and runs alone, has met nobody. -/
theorem not_met_of_alone [Zero V] {as bs : List (Label V)} {l : LockId}
    (hrun : (machine S).Run (clockBelow (2 ^ 63)) (machine S).init as s) (hq : Quiescent s)
    (hnew : (s.tx t).pc = .unborn) (halone : (machine S).Run (alone t) s bs s') :
    ¬ Met S (as ++ bs) t l := by
  rintro ⟨cs, r, u, hpre, hcs, hopen, hut, hend, -⟩
  have hbegun : (r.tx t).pc ≠ .unborn := by
    intro hpc
    simp [Open, hpc] at hopen
  rcases List.prefix_or_prefix_of_prefix hpre (List.prefix_append as bs) with hle | hge
  · -- the meeting would be before `t` begins
    obtain ⟨ds, rfl⟩ := hle
    obtain ⟨r', hcs', hrest⟩ := hrun.split
    obtain rfl := hcs.eq_of_run hcs'
    exact begun_of_run hrest hbegun hnew
  · -- the meeting would be while `t` runs alone
    obtain ⟨ds, rfl⟩ := hge
    obtain ⟨es, hes⟩ := (List.prefix_append_right_inj as).1 hpre
    rw [← hes] at halone
    obtain ⟨r', hds, -⟩ := halone.split
    -- the run is deterministic, so the meeting is in the state that `bs` leads to here
    have hwhole := hrun.append (hds.mono fun _ _ _ h => h.1)
    obtain rfl := hcs.eq_of_run hwhole
    rw [tx_of_alone hds hut] at hend
    exact hq u hend

/-- A call that runs alone comes to an end. -/
theorem call_ends [Zero V] (hcall : (s.tx t).InRead ∨ (s.tx t).InEnd)
    (hclock : s.shared.gvc.toNat < 2 ^ 63)
    (hbefore : (s.tx t).BeforeClock → s.shared.gvc.toNat + 1 < 2 ^ 63) :
    ∃ n s', (machine S).Run (alone t) s (List.replicate n (.tx t .step)) s' ∧
      ((s.tx t).InRead → (s'.tx t).pc = .idle ∨ (s'.tx t).pc = .aborted) ∧
      ((s.tx t).InEnd → (s'.tx t).pc = .committed ∨ (s'.tx t).pc = .aborted) := by
  induction hm : (s.tx t).stepsLeft using Nat.strongRecOn generalizing s with
  | ind m ih =>
    subst hm
    -- the induction is on the number of accesses left, and the next one is the first of the run
    have henabled : ∃ r, (s.tx t).step S t s.shared = some r := exists_step hcall
    obtain ⟨⟨sh', x'⟩, hx⟩ := henabled
    have hmove : Move S t s.shared (s.tx t) sh' x' := move_of_act (c := .step) hx
    have hstep : (machine S).step s (.tx t .step) = some (s.moved t sh' x') := by
      simp [machine, act, hx, State.moved]
    have hgvc := beforeClock_move hcall hmove
    have hclock' : sh'.gvc.toNat < 2 ^ 63 := by
      rcases hgvc with ⟨hsame, -⟩ | ⟨hnext, hb, -⟩
      · rwa [hsame]
      · rw [hnext, gvc_succ hclock]
        exact hbefore hb
    -- only the increment by the call itself can change the clock
    have hok : alone t s (.tx t .step) (s.moved t sh' x') := by
      refine ⟨hclock', fun u c hlab => ?_⟩
      injection hlab with htu _
      exact htu.symm
    have hself : (s.moved t sh' x').tx t = x' := State.moved_tx_self
    -- either the call goes on after this access, or this was its last one
    by_cases hcall' : x'.InRead ∨ x'.InEnd
    · have hlt := stepsLeft_move hcall hmove
      have hbefore' : x'.BeforeClock → sh'.gvc.toNat + 1 < 2 ^ 63 := by
        intro hb
        rcases hgvc with ⟨hsame, hback⟩ | ⟨-, -, hnot⟩
        · rw [hsame]
          exact hbefore (hback hb)
        · exact absurd hb hnot
      obtain ⟨n, s', hrun, hread, hend⟩ := ih _ (by rwa [hself]) (s := s.moved t sh' x')
        (by rwa [hself]) hclock' (by rwa [hself]) rfl
      rw [hself] at hread hend
      refine ⟨n + 1, s', ?_, fun hx => ?_, fun hx => ?_⟩
      · rw [List.replicate_succ]
        exact .cons hstep hok hrun
      · rcases (call_move hmove).1 hx with hx' | hpc | hpc
        · exact hread hx'
        · simp [InRead, InEnd, hpc] at hcall'
        · simp [InRead, InEnd, hpc] at hcall'
      · rcases (call_move hmove).2 hx with hx' | hpc | hpc
        · exact hend hx'
        · simp [InRead, InEnd, hpc] at hcall'
        · simp [InRead, InEnd, hpc] at hcall'
    · rw [not_or] at hcall'
      refine ⟨1, _, .single hstep hok, fun hx => ?_, fun hx => ?_⟩
      · rw [hself]
        exact ((call_move hmove).1 hx).resolve_left hcall'.1
      · rw [hself]
        exact ((call_move hmove).2 hx).resolve_left hcall'.2

/-! ## The guarantees -/

/-- What can be relied on when transactions are refused, in all runs that keep the clock below
`2 ^ 63`. -/
structure AbortsJustified [Zero V] (S : Setup V) : Prop where
  /-- While a refused transaction was open, another one was inside `tm_end` with an address of
  its write set on the lock of an address that the refused one read or wrote. -/
  culprit : ∀ as s t, (machine S).Run (clockBelow (2 ^ 63)) (machine S).init as s →
    (s.tx t).pc = .aborted →
    ∃ bs cs r u, as = bs ++ cs ∧ (machine S).Run (clockBelow (2 ^ 63)) (machine S).init bs r ∧
      (machine S).Run (clockBelow (2 ^ 63)) r cs s ∧ (r.tx t).Open ∧ u ≠ t ∧ (r.tx u).InEnd ∧
      ∃ a ∈ (s.tx t).accessed, ∃ b ∈ (r.tx u).txn.writeSet, S.lockOf b = S.lockOf a
  /-- A set lock bit belongs to a transaction inside `tm_end` that will clear it. -/
  noLeak : ∀ s l, (machine S).Reachable (clockBelow (2 ^ 63)) s →
    isLocked (s.shared.locks l) = true → ∃ t, (s.tx t).InEnd ∧ (s.tx t).WillClear S l
  /-- With nobody inside `tm_end`, a transaction that begins and runs alone is never refused. -/
  notRefused : ∀ s t as s', (machine S).Reachable (clockBelow (2 ^ 63)) s → Quiescent s →
    (s.tx t).pc = .unborn → (machine S).Run (alone t) s as s' → (s'.tx t).pc ≠ .aborted
  /-- Its calls succeed: with its own steps alone, `tm_read` returns and `tm_end` commits. -/
  succeeds : ∀ s t as s', (machine S).Reachable (clockBelow (2 ^ 63)) s → Quiescent s →
    (s.tx t).pc = .unborn → (machine S).Run (alone t) s as s' →
    s'.shared.gvc.toNat + 1 < 2 ^ 63 → (s'.tx t).InRead ∨ (s'.tx t).InEnd →
    ∃ n s'', (machine S).Run (alone t) s' (List.replicate n (.tx t .step)) s'' ∧
      ((s'.tx t).InRead → (s''.tx t).pc = .idle) ∧
      ((s'.tx t).InEnd → (s''.tx t).pc = .committed)
  /-- A transaction that shares no lock with the others is never refused. -/
  disjoint : ∀ s t, (machine S).Reachable (clockBelow (2 ^ 63)) s →
    (∀ u, u ≠ t → ∀ a ∈ (s.tx t).accessed, ∀ b ∈ (s.tx u).accessed, S.lockOf b ≠ S.lockOf a) →
    (s.tx t).pc ≠ .aborted

/-- The meeting with someone to blame, as a state in the middle of the run. -/
theorem Met.split [Zero V] {as : List (Label V)} {l : LockId}
    (hrun : (machine S).Run (clockBelow (2 ^ 63)) (machine S).init as s) (h : Met S as t l) :
    ∃ bs cs r u, as = bs ++ cs ∧ (machine S).Run (clockBelow (2 ^ 63)) (machine S).init bs r ∧
      (machine S).Run (clockBelow (2 ^ 63)) r cs s ∧ (r.tx t).Open ∧ u ≠ t ∧ (r.tx u).InEnd ∧
      (r.tx u).Covers S l := by
  obtain ⟨bs, r, u, ⟨cs, rfl⟩, hbs, hrest⟩ := h
  obtain ⟨r', hbs', hcs⟩ := hrun.split
  obtain rfl := hbs.eq_of_run hbs'
  exact ⟨bs, cs, r, u, rfl, hbs, hcs, hrest⟩

/-- A transaction alone is not refused. -/
theorem not_aborted_of_alone [Zero V] {as : List (Label V)}
    (h : (machine S).Reachable (clockBelow (2 ^ 63)) s) (hq : Quiescent s)
    (hnew : (s.tx t).pc = .unborn) (halone : (machine S).Run (alone t) s as s') :
    (s'.tx t).pc ≠ .aborted := by
  intro hpc
  obtain ⟨bs, hbs⟩ := h
  have hwhole := hbs.append (halone.mono fun _ _ _ hok => hok.1)
  obtain ⟨a, -, hmet⟩ := met_of_aborted hwhole hpc
  exact not_met_of_alone hbs hq hnew halone hmet

/-- Every abort is justified and no lock is leaked. -/
theorem abortsJustified [Zero V] (S : Setup V) : AbortsJustified S where
  culprit as s t hrun hpc := by
    obtain ⟨a, ha, hmet⟩ := met_of_aborted hrun hpc
    obtain ⟨bs, cs, r, u, has, hbs, hcs, hopen, hut, hend, b, hb, hlock⟩ := hmet.split hrun
    exact ⟨bs, cs, r, u, has, hbs, hcs, hopen, hut, hend, a, ha, b, hb, hlock⟩
  noLeak s l h hl := by
    obtain ⟨t, ht⟩ := willClear_of_locked h hl
    exact ⟨t, ht.inEnd, ht⟩
  notRefused s t as s' h hq hnew halone := not_aborted_of_alone h hq hnew halone
  succeeds s t as s' h hq hnew halone hclock hcall := by
    obtain ⟨n, s'', hrun, hread, hend⟩ := call_ends hcall (by omega) fun _ => hclock
    have hnot : (s''.tx t).pc ≠ .aborted := not_aborted_of_alone h hq hnew (halone.append hrun)
    exact ⟨n, s'', hrun, fun hx => (hread hx).resolve_right hnot,
      fun hx => (hend hx).resolve_right hnot⟩
  disjoint s t h hdisjoint hpc := by
    obtain ⟨as, hrun⟩ := h
    obtain ⟨a, ha, hmet⟩ := met_of_aborted hrun hpc
    obtain ⟨bs, cs, r, u, -, hbs, hcs, -, hut, -, b, hb, hlock⟩ := hmet.split hrun
    exact hdisjoint u hut a ha b (accessed_of_run ⟨bs, hbs⟩ hcs hb) hlock

end TransactionalMemory
