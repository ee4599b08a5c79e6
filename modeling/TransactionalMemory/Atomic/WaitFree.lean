import TransactionalMemory.Atomic.Alone

/-!
# Calls are wait-free

`tm_read` and `tm_end` do not wait: their loops go over the words of a range or of a set, and a lock
that is taken makes them give up. So a call comes to its end within a number of steps of its own
that is known when it begins, whatever the other transactions do in the meantime and however their
steps are interleaved with it (`waitFree`). Only the splice of the allocations under `list_lock`,
after the last word is written, is not among these steps.
-/

namespace TransactionalMemory

open Tx

variable {V : Type} {S : Setup V} {t : Tid} {s s' : State V} {as : List (Label V)}

/-- The number of steps of a transaction among the labels of a run. -/
def ownSteps (t : Tid) (as : List (Label V)) : ℕ :=
  as.countP fun lab =>
    match lab with
    | .tx u _ => u = t
    | .otherRegion => false

/-- The call has returned, or refused. -/
def Tx.Returned (x y : Tx V) : Prop :=
  (x.InRead → y.pc = .idle ∨ y.pc = .aborted) ∧ (x.InEnd → y.pc = .committed ∨ y.pc = .aborted)

/-- A call in progress has a step to take. -/
theorem stepsLeft_pos {x : Tx V} (hcall : x.InRead ∨ x.InEnd) : 0 < x.stepsLeft := by
  cases hpc : x.pc <;> simp [InRead, InEnd, hpc] at hcall <;>
    simp only [stepsLeft, hpc, writeOrRollBack] <;> omega

/-- No steps have been taken yet. -/
@[simp] theorem ownSteps_nil : ownSteps t ([] : List (Label V)) = 0 := rfl

/-- A step of the transaction counts. -/
@[simp] theorem ownSteps_self (c : Command V) : ownSteps t (.tx t c :: as) = ownSteps t as + 1 := by
  simp [ownSteps]

/-- A step of another transaction does not count. -/
@[simp] theorem ownSteps_of_ne {u : Tid} (h : u ≠ t) (c : Command V) :
    ownSteps t (.tx u c :: as) = ownSteps t as := by
  simp [ownSteps, h]

/-- A tick does not count. -/
@[simp] theorem ownSteps_otherRegion : ownSteps t (.otherRegion :: as) = ownSteps t as := by
  simp [ownSteps]

/-- An access either leaves the call in progress, for which there is less to do, or ends it. -/
theorem returned_move {sh sh' : Shared V} {x x' : Tx V} (hcall : x.InRead ∨ x.InEnd)
    (hmove : Move S t sh x sh' x') : x'.stepsLeft < x.stepsLeft ∧
      (x.Returned x' ∨ (x'.InRead ∨ x'.InEnd) ∧ ∀ y, x'.Returned y → x.Returned y) := by
  refine ⟨stepsLeft_move hcall hmove, ?_⟩
  obtain ⟨hread, hend⟩ := call_move hmove
  by_cases hcall' : x'.InRead ∨ x'.InEnd
  · have hopen : x'.pc ≠ .idle ∧ x'.pc ≠ .committed ∧ x'.pc ≠ .aborted := by
      refine ⟨?_, ?_, ?_⟩ <;> intro hpc <;> simp [InRead, InEnd, hpc] at hcall'
    exact .inr ⟨hcall', fun y hy =>
      ⟨fun hx => hy.1 ((hread hx).resolve_right (by simp [hopen])),
        fun hx => hy.2 ((hend hx).resolve_right (by simp [hopen]))⟩⟩
  · rw [not_or] at hcall'
    exact .inl ⟨fun hx => (hread hx).resolve_left hcall'.1,
      fun hx => (hend hx).resolve_left hcall'.2⟩

/-- A call in progress has returned once its transaction has taken the steps that were left. -/
theorem returned_of_run [Zero V] (hcall : (s.tx t).InRead ∨ (s.tx t).InEnd)
    (hrun : (machine S).Run LabelledSystem.always s as s')
    (hsteps : (s.tx t).stepsLeft ≤ ownSteps t as) :
    ∃ bs cs r, as = bs ++ cs ∧ (machine S).Run LabelledSystem.always s bs r ∧
      ownSteps t bs ≤ (s.tx t).stepsLeft ∧ (s.tx t).Returned (r.tx t) := by
  induction as generalizing s with
  | nil => exact absurd hsteps (Nat.not_le.mpr (stepsLeft_pos hcall))
  | cons lab as ih =>
    obtain ⟨v, hstep, hok, hrest⟩ := hrun.of_cons
    rcases step_cases hstep with ⟨u, c, sh', x', rfl, hmove, rfl⟩ | ⟨rfl, rfl⟩
    · by_cases hut : u = t
      · subst hut
        obtain ⟨hlt, hreturned | ⟨hcall', htrans⟩⟩ := returned_move hcall hmove
        · refine ⟨[.tx u c], as, _, rfl, .single hstep hok, ?_, by simpa using hreturned⟩
          simpa [Nat.succ_le_iff] using stepsLeft_pos hcall
        · -- the call goes on with the rest of the run
          rw [ownSteps_self] at hsteps
          obtain ⟨bs, cs, r, rfl, hbs, hcount, hr⟩ := ih (by simpa using hcall') hrest
            (by rw [State.moved_tx_self]; omega)
          rw [State.moved_tx_self] at hcount hr
          refine ⟨.tx u c :: bs, cs, r, rfl, .cons hstep hok hbs, ?_, htrans _ hr⟩
          rw [ownSteps_self]
          omega
      · -- a step of another transaction
        have hsame : (s.moved u sh' x').tx t = s.tx t := State.moved_tx_of_ne (Ne.symm hut)
        rw [ownSteps_of_ne hut] at hsteps
        obtain ⟨bs, cs, r, rfl, hbs, hcount, hr⟩ := ih (by rwa [hsame]) hrest (by rwa [hsame])
        rw [hsame] at hcount hr
        exact ⟨.tx u c :: bs, cs, r, rfl, .cons hstep hok hbs, by rwa [ownSteps_of_ne hut], hr⟩
    · have hsame : s.ticked.tx t = s.tx t := rfl
      obtain ⟨bs, cs, r, rfl, hbs, hcount, hr⟩ :=
        ih (by rwa [hsame]) hrest (by simpa using hsteps)
      exact ⟨.otherRegion :: bs, cs, r, rfl, .cons hstep hok hbs, by simpa using hcount, hr⟩

/-- The calls that access shared memory need nothing from the other transactions. -/
structure WaitFree [Zero V] (S : Setup V) : Prop where
  /-- A call in progress can always take its next step. -/
  enabled : ∀ (s : State V) t, (s.tx t).InRead ∨ (s.tx t).InEnd →
    ∃ s', (machine S).step s (.tx t .step) = some s'
  /-- `tm_read` of `k` words returns or refuses within `5 * k + 1` steps of its own. -/
  read : ∀ (s s₀ s' : State V) t addrs as, (machine S).step s (.tx t (.read addrs)) = some s₀ →
    (machine S).Run LabelledSystem.always s₀ as s' → 5 * addrs.length + 1 ≤ ownSteps t as →
    ∃ bs cs r, as = bs ++ cs ∧ (machine S).Run LabelledSystem.always s₀ bs r ∧
      ownSteps t bs ≤ 5 * addrs.length + 1 ∧ ((r.tx t).pc = .idle ∨ (r.tx t).pc = .aborted)
  /-- `tm_end` commits or refuses within six steps of its own for each word in the write set, two
  for each in the read set and three more. -/
  endTx : ∀ (s s₀ s' : State V) t as, (machine S).step s (.tx t .endTx) = some s₀ →
    (machine S).Run LabelledSystem.always s₀ as s' →
    6 * (s.tx t).txn.writeSet.entries.length + 2 * (s.tx t).txn.readSet.elems.length + 3 ≤
      ownSteps t as →
    ∃ bs cs r, as = bs ++ cs ∧ (machine S).Run LabelledSystem.always s₀ bs r ∧
      ownSteps t bs ≤
        6 * (s.tx t).txn.writeSet.entries.length + 2 * (s.tx t).txn.readSet.elems.length + 3 ∧
      ((r.tx t).pc = .committed ∨ (r.tx t).pc = .aborted)

/-- The bound at the call of `tm_read`. -/
theorem read_of_act {sh sh' : Shared V} {x x' : Tx V} {addrs : List Addr}
    (hact : x.act S t sh (.read addrs) = some (sh', x')) :
    x'.InRead ∧ x'.stepsLeft = 5 * addrs.length + 1 := by
  simp only [act] at hact
  split at hact
  next =>
    obtain ⟨-, rfl⟩ := Prod.mk.inj (Option.some.inj hact)
    exact ⟨trivial, rfl⟩
  next => cases hact

/-- A read-only transaction commits at once. -/
theorem endTx_of_act {sh sh' : Shared V} {x x' : Tx V}
    (hact : x.act S t sh .endTx = some (sh', x')) :
    x'.pc = .committed ∨ x'.InEnd ∧ x'.stepsLeft =
      6 * x.txn.writeSet.entries.length + 2 * x.txn.readSet.elems.length + 3 := by
  simp only [act] at hact
  split at hact
  next =>
    split at hact
    next =>
      obtain ⟨-, rfl⟩ := Prod.mk.inj (Option.some.inj hact)
      exact .inl rfl
    next =>
      obtain ⟨-, rfl⟩ := Prod.mk.inj (Option.some.inj hact)
      refine .inr ⟨trivial, ?_⟩
      -- no lock is held yet
      have hheld : (∅ : UnorderedSet LockId).elems.length = 0 := rfl
      simp only [stepsLeft, writeOrRollBack, UnorderedMap.length_toList, hheld]
      omega
  next => cases hact

/-- In any interleaving with other transactions, `tm_read` and `tm_end` are wait-free. -/
theorem waitFree [Zero V] (S : Setup V) : WaitFree S where
  enabled s t hcall := by
    obtain ⟨⟨sh', x'⟩, hx⟩ : ∃ r, (s.tx t).step S t s.shared = some r := exists_step hcall
    exact ⟨s.moved t sh' x', by simp [machine, act, hx, State.moved]⟩
  read s s₀ s' t addrs as hstep hrun hsteps := by
    obtain ⟨⟨sh', x'⟩, hact, rfl⟩ := Option.map_eq_some_iff.mp hstep
    obtain ⟨hread, hleft⟩ := read_of_act hact
    have hself : (s.moved t sh' x').tx t = x' := State.moved_tx_self
    rw [← hself] at hread hleft
    obtain ⟨bs, cs, r, has, hbs, hcount, hr⟩ :=
      returned_of_run (.inl hread) hrun (by rwa [hleft])
    rw [hleft] at hcount
    exact ⟨bs, cs, r, has, hbs, hcount, hr.1 hread⟩
  endTx s s₀ s' t as hstep hrun hsteps := by
    obtain ⟨⟨sh', x'⟩, hact, rfl⟩ := Option.map_eq_some_iff.mp hstep
    have hself : (s.moved t sh' x').tx t = x' := State.moved_tx_self
    obtain hcommitted | ⟨hend, hleft⟩ := endTx_of_act hact
    · rw [← hself] at hcommitted
      exact ⟨[], as, _, rfl, .nil _, Nat.zero_le _, .inl hcommitted⟩
    · rw [← hself] at hend hleft
      obtain ⟨bs, cs, r, has, hbs, hcount, hr⟩ :=
        returned_of_run (.inr hend) hrun (by rwa [hleft])
      rw [hleft] at hcount
      exact ⟨bs, cs, r, has, hbs, hcount, hr.2 hend⟩

end TransactionalMemory
