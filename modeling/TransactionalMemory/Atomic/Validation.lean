import TransactionalMemory.Atomic.Opacity
import TransactionalMemory.Atomic.UpdateOrder

/-!
# Validation at commit time

What the validation loop of `tm_end` has established when it is done: nobody who drew a write
version between the read version and the write version of the transaction writes to an address of
its read set (`Checked`). The loop looks at one lock after the other while the others go on
committing, and it loads each lock word twice, first for the lock bit and then for the version.

The argument is about the transactions `u` with smaller write versions. When the lock bit was seen
clear, or the lock is the transaction's own, each of them had published its word for the address
(`Flushed`), so the version in the lock is at least that of `u` from then on; and the version
loaded next is at most the read version. The transactions with smaller write versions are the same
ever after, because the clock only grows.

The invariant `Validated` needs neither `wholeValidation` nor anything else about `tm_read`.
-/

namespace TransactionalMemory

open VersionedWriteLock UnorderedMap Tx

variable {V : Type} {S : Setup V} {t u : Tid} {sh' : Shared V} {x x' : Tx V} {s : State V}
  {a : Addr}

/-- No stamped transaction with a smaller write version writes to `a` above the read version. -/
def Checked (s : State V) (x : Tx V) (a : Addr) : Prop :=
  ∀ u, (s.tx u).Stamped → a ∈ (s.tx u).txn.writeSet → (s.tx u).wv.toNat < x.wv.toNat →
    (s.tx u).wv.toNat ≤ x.txn.rv.toNat

/-- Every stamped transaction with a smaller write version has published its word for `a`. -/
def Flushed (s : State V) (x : Tx V) (a : Addr) : Prop :=
  ∀ u, (s.tx u).Stamped → a ∈ (s.tx u).txn.writeSet → (s.tx u).wv.toNat < x.wv.toNat →
    (s.tx u).Released a

/-- What the validation loop has established at a control point of `tm_end`. -/
def Validates (s : State V) (x : Tx V) : Prop :=
  match x.pc with
  | .validateLocked todo => ∀ a ∈ x.txn.readSet, a ∉ todo → Checked s x a
  | .validateVersion b todo =>
    (∀ a ∈ x.txn.readSet, a ∉ b :: todo → Checked s x a) ∧ Flushed s x b
  | .writeBack _ | .publish .. => ∀ a ∈ x.txn.readSet, Checked s x a
  | .committed => x.txn.isRo = false → ∀ a ∈ x.txn.readSet, Checked s x a
  | _ => True

/-- The invariant of the validation. -/
structure Validated [Zero V] (S : Setup V) (s : State V) : Prop where
  versions : Versions S s
  validates : ∀ t, Validates s (s.tx t)

/-- A transaction that has passed validation has checked its whole read set. -/
theorem Validates.checked (h : Validates s x) (hpassed : x.Passed) (ha : a ∈ x.txn.readSet) :
    Checked s x a := by
  unfold Validates at h
  unfold Passed at hpassed
  split at hpassed <;> simp_all

/-! ## What the steps of other transactions change -/

section Moved

variable [Zero V] (h : Versions S s) (heff : Effect S s.shared (s.tx t) sh' x')

include h heff

/-- What is checked stays so. -/
theorem Checked.moved (hwv : x.wv.toNat ≤ s.shared.gvc.toNat + 1) (hc : Checked s x a) :
    Checked (s.moved t sh' x') x a := by
  intro u hst hmem hlt
  -- a version drawn now is not below the write version of `x`
  obtain ⟨hst', hsame, hws⟩ :=
    stamped_of_moved h heff le_rfl hst (Nat.le_of_lt_succ (hlt.trans_le hwv))
  rw [hsame] at hlt ⊢
  exact hc u hst' (hws ▸ hmem) hlt

/-- What is flushed stays so. -/
theorem Flushed.moved (hwv : x.wv.toNat ≤ s.shared.gvc.toNat + 1) (hf : Flushed s x a) :
    Flushed (s.moved t sh' x') x a := by
  intro u hst hmem hlt
  obtain ⟨hst', hsame, hws⟩ :=
    stamped_of_moved h heff le_rfl hst (Nat.le_of_lt_succ (hlt.trans_le hwv))
  rw [hsame] at hlt
  have hr := hf u hst' (hws ▸ hmem) hlt
  by_cases hut : u = t
  · subst hut
    rw [State.moved_tx_self]
    exact (heff.released_mono hr).1
  · rwa [State.moved_tx_of_ne hut]

/-- What has been established stays established. -/
theorem Validates.moved (hwv : x.Stamped → x.wv.toNat ≤ s.shared.gvc.toNat + 1)
    (hv : Validates s x) : Validates (s.moved t sh' x') x := by
  unfold Validates at hv ⊢
  split
  case h_1 todo hpc =>
    rw [hpc] at hv
    exact fun b hb hnot => (hv b hb hnot).moved h heff (hwv (by simp [Stamped, hpc]))
  case h_2 c todo hpc =>
    rw [hpc] at hv
    have hle := hwv (by simp [Stamped, hpc])
    exact ⟨fun b hb hnot => (hv.1 b hb hnot).moved h heff hle, hv.2.moved h heff hle⟩
  case h_3 hpc | h_4 hpc =>
    rw [hpc] at hv
    exact fun b hb => (hv b hb).moved h heff (hwv (by simp [Stamped, hpc]))
  case h_5 hpc =>
    rw [hpc] at hv
    exact fun hro b hb => (hv hro b hb).moved h heff (hwv (by simp [Stamped, hpc, hro]))
  case h_6 => trivial

end Moved

/-! ## What the loop establishes -/

section Loop

variable [Zero V] (h : Versions S s)

include h

/-- A clear lock bit means that the others have published their words. -/
theorem Versions.flushed_of_free (hfree : isLocked (s.shared.locks (S.lockOf a)) = false) :
    Flushed s (s.tx t) a :=
  fun _ hst hmem _ => h.released_of_free hfree hst hmem

/-- An own lock means the same, since a lock has one owner. -/
theorem Versions.flushed_of_owned (hown : S.lockOf a ∈ (s.tx t).owned) :
    Flushed s (s.tx t) a := by
  intro u hst hmem hlt
  by_contra hnot
  have hown' := h.owners.owned_of_stamped hst hmem hnot
  obtain rfl := h.owners.exclusive u t _ hown' hown
  exact lt_irrefl _ hlt

/-- The comparison of the version completes the check of one address. -/
theorem Flushed.checked (hf : Flushed s x a)
    (hle : ¬ x.txn.rv < getVersion (s.shared.locks (S.lockOf a))) : Checked s x a := by
  intro u hst hmem hlt
  have hversion : versionOf (s.shared.locks (S.lockOf a)) ≤ x.txn.rv.toNat :=
    Nat.le_of_not_lt hle
  exact (h.released_le u a (hf u hst hmem hlt)).trans hversion

end Loop

/-- The checks depend only on the read version and the write version of the transaction. -/
theorem Checked.congr (hwv : x'.wv = x.wv) (hrv : x'.txn.rv = x.txn.rv) (hc : Checked s x a) :
    Checked s x' a := by
  intro u hst hmem hlt
  rw [hwv] at hlt
  rw [hrv]
  exact hc u hst hmem hlt

/-- With no version between the read version and the write version there is nothing to check. -/
theorem checked_of_succ (hwv : x.wv.toNat = x.txn.rv.toNat + 1) : Checked s x a :=
  fun _ _ _ hlt => by omega

/-- The moves of the transaction itself, as seen from the state before the move. -/
theorem Validated.validates_self [Zero V] (h : Validated S s)
    (hmove : Move S t s.shared (s.tx t) sh' x') : Validates s x' := by
  have hver := h.versions
  have hv := h.validates t
  have hshape := hver.owners.shape t
  cases hmove with
  -- the loop starts with the whole read set ahead
  | clockValidate hpc hne =>
    intro b hb hnot
    exact absurd ((UnorderedSet.mem_toList _).2 hb) hnot
  | clockSkip hpc heq =>
    have hrv : (s.tx t).txn.rv = s.shared.gvc := by simpa using heq
    intro b hb
    refine checked_of_succ ?_
    show (s.shared.gvc + 1).toNat = (s.tx t).txn.rv.toNat + 1
    rw [gvc_succ hver.clocked.clock, hrv]
  | validateDone hpc =>
    rw [Validates, hpc] at hv
    exact fun b hb => hv b hb List.not_mem_nil
  | validateFree b todo hpc hheld hfree =>
    rw [Validates, hpc] at hv
    exact ⟨hv, hver.flushed_of_free (t := t) hfree⟩
  | validateVersionPass b todo hpc hle =>
    -- the others have published, as the lock bit was clear before or the lock is owned
    have hold : (∀ c ∈ (s.tx t).txn.readSet, c ∉ b :: todo → Checked s (s.tx t) c) ∧
        Flushed s (s.tx t) b := by
      rcases hpc with hpc | ⟨hpc, hheld⟩
      · rwa [Validates, hpc] at hv
      · rw [Validates, hpc] at hv
        rw [Shape, hpc] at hshape
        exact ⟨hv, hver.flushed_of_owned ((hshape.owned _).2 hheld)⟩
    intro c hc hnot
    by_cases hcb : c = b
    · subst hcb
      exact hold.2.checked hver hle
    · exact hold.1 c hc (by simp [hcb, hnot])
  | writeDone hpc =>
    rw [Validates, hpc] at hv
    exact fun _ => hv
  | store e todo hpc | publish e todo hpc =>
    rw [Validates, hpc] at hv
    exact hv
  | endRo hpc hro =>
    intro hupdate
    rw [hro] at hupdate
    cases hupdate
  | write b val hpc =>
    unfold Validates
    simp only [hpc]
  | _ => trivial

/-- The invariant is kept by every move of a steady run. -/
theorem Validated.move [Zero V] (h : Validated S s) {c : Command V}
    (hmove : Move S t s.shared (s.tx t) sh' x')
    (hok : steady S s (.tx t c) (s.moved t sh' x')) : Validated S (s.moved t sh' x') := by
  have hver := h.versions
  have heff := effect_of_move (hver.owners.shape t) hmove
  refine ⟨hver.move hmove hok, State.forall_moved ?_ fun u _ => ?_⟩
  · apply (h.validates_self hmove).moved hver heff
    intro hst
    -- the write version is an old one or the next one
    rcases heff.stamped hst with ⟨hst', hwv, -, -⟩ | ⟨hwv, -⟩
    · rw [hwv]
      exact (hver.clocked.stamped_le t hst').trans (Nat.le_succ _)
    · rw [hwv, gvc_succ hver.clocked.clock]
  · exact (h.validates u).moved hver heff
      fun hst => (hver.clocked.stamped_le u hst).trans (Nat.le_succ _)

/-- The invariant holds in every state of a steady run. -/
theorem validated_of_reachable [Zero V] (h : (machine S).Reachable (steady S) s) :
    Validated S s := by
  refine h.invariant ⟨versions_init, fun t => trivial⟩ fun s lab s' _ ih hstep hok => ?_
  rcases step_cases hstep with ⟨t, c, sh', x', rfl, hmove, rfl⟩ | ⟨rfl, rfl⟩
  · exact ih.move hmove hok
  · exact ⟨ih.versions.ticked hok, ih.validates⟩

end TransactionalMemory
