import TransactionalMemory.Foundations.LabelledSystem
import TransactionalMemory.Sequential.CallSpecs

/-!
# Interleaved calls

Any number of transactions are open on one region at the same time, and their calls follow one
another in any order: no call overlaps another. `calls S` is the labelled system of such runs.

A `Session` is a transaction as its caller sees it: the transaction object, whether it is still
open, and a history of its operations with what they returned. The contract of the interface is
built into the system: a handle is not used after a refusal or after `tm_end`, read-only
transactions only read, and a destroyed region is not used.

`Outcome` lists what a call can lead to, and `outcome_of_step` is the inversion lemma.
-/

namespace TransactionalMemory

variable {V : Type} {S : Setup V}

/-- An operation of a transaction, with what it returned. -/
inductive Op (V : Type) where
  | read (addrs : List Addr) (vals : List V)
  | write (entries : List (Addr × V))
  | alloc (seg : SegId) (words : List Addr)

/-- The life of a transaction. -/
inductive Status where
  | unborn
  | open
  | refused
  | committed
  deriving DecidableEq

/-- A transaction as its caller sees it. -/
structure Session (V : Type) where
  /-- The transaction object; after the end of the transaction, its last content. -/
  txn : Transaction V
  /-- Whether the handle can be used. -/
  status : Status
  /-- History: the write version of a committed update transaction, which is the clock after its
  `tm_end`. -/
  wv : Version
  /-- History: the operations so far. -/
  ops : List (Op V)
  /-- History: the number of calls made before `tm_begin`. -/
  began : ℕ
  /-- History: the number of calls made before the one that ended the transaction. -/
  ended : ℕ

/-- A region and its transactions. -/
structure World (V : Type) where
  /-- The region. -/
  region : Region V
  /-- The transactions. -/
  session : Tid → Session V
  /-- The number of calls made so far. -/
  time : ℕ
  /-- `tm_destroy` has been called. -/
  destroyed : Bool

/-- A call on the region, or a commit attempt in another region that advances the clock. -/
inductive Call (V : Type) where
  | begin (t : Tid) (isRo : Bool)
  | read (t : Tid) (addrs : List Addr)
  | write (t : Tid) (entries : List (Addr × V))
  | alloc (t : Tid) (block : Option (List Addr))
  | free (t : Tid) (seg : SegId)
  | endTx (t : Tid)
  | destroy
  | otherRegion

/-- A transaction before `tm_begin`. -/
def Session.unborn : Session V where
  txn := Transaction.create 0 false
  status := .unborn
  wv := 0
  ops := []
  began := 0
  ended := 0

/-- The handle may be used for a call. -/
def World.Usable (w : World V) (t : Tid) : Prop :=
  (w.session t).status = .open ∧ w.destroyed = false

/-- The handle may be used for a call that changes something. -/
def World.Writable (w : World V) (t : Tid) : Prop := w.Usable t ∧ (w.session t).txn.isRo = false

instance (w : World V) (t : Tid) : Decidable (w.Usable t) := inferInstanceAs (Decidable (_ ∧ _))

instance (w : World V) (t : Tid) : Decidable (w.Writable t) := inferInstanceAs (Decidable (_ ∧ _))

/-- The world after a call of the transaction `t`. -/
def World.called (w : World V) (t : Tid) (region : Region V) (session : Session V) : World V :=
  { w with region, session := Function.update w.session t session, time := w.time + 1 }

variable {t u : Tid} {w w' : World V}

/-- The effect of a call. -/
def callStep [Zero V] (S : Setup V) (w : World V) : Call V → Option (World V)
  | .begin t isRo =>
    if (w.session t).status = .unborn ∧ w.destroyed = false then
      some (w.called t w.region { w.session t with
        txn := tmBegin w.region isRo, status := .open, ops := [], began := w.time })
    else none
  | .read t addrs =>
    if w.Usable t then
      match tmRead S w.region (w.session t).txn addrs with
      | (r, none) => some (w.called t r { w.session t with status := .refused, ended := w.time })
      | (r, some (txn, vals)) =>
        some (w.called t r { w.session t with
          txn, ops := (w.session t).ops ++ [.read addrs vals] })
    else none
  | .write t entries =>
    if w.Writable t then
      some (w.called t w.region { w.session t with
        txn := tmWrite (w.session t).txn entries
        ops := (w.session t).ops ++ [.write entries] })
    else none
  | .alloc t block =>
    if w.Writable t then
      match tmAlloc w.region (w.session t).txn block with
      | (r, txn, seg) =>
        some (w.called t r { w.session t with
          txn
          ops := (w.session t).ops ++ (seg.map fun g => .alloc g (block.getD [])).toList })
    else none
  | .free t seg =>
    if w.Writable t then
      match tmFree w.region seg with
      | (r, _) => some (w.called t r (w.session t))
    else none
  | .endTx t =>
    if w.Usable t then
      match tmEnd S t w.region (w.session t).txn with
      | (true, r) => some (w.called t r { w.session t with
          status := .committed
          wv := if (w.session t).txn.isRo then (w.session t).wv else r.shared.gvc
          ended := w.time })
      | (false, r) => some (w.called t r { w.session t with
          status := .refused, ended := w.time })
    else none
  | .destroy =>
    if w.destroyed = false then
      some { w with region := tmDestroy w.region, time := w.time + 1, destroyed := true }
    else none
  | .otherRegion => some { w with
      region := { w.region with
        shared := { w.region.shared with gvc := w.region.shared.gvc + 1 } } }

/-- The runs on a fresh region whose words are all zero. -/
def calls [Zero V] (S : Setup V) : LabelledSystem (World V) (Call V) where
  init := {
    region := tmCreate 0 (fun _ => 0) []
    session := fun _ => .unborn
    time := 0
    destroyed := false }
  step := callStep S

/-- What a call can lead to. -/
inductive Outcome [Zero V] (S : Setup V) (w : World V) : Call V → World V → Prop where
  | begin (t : Tid) (isRo : Bool) (hnew : (w.session t).status = .unborn) :
      Outcome S w (.begin t isRo) (w.called t w.region { w.session t with
        txn := tmBegin w.region isRo, status := .open, ops := [], began := w.time })
  | read (t : Tid) (addrs : List Addr) (huse : w.Usable t)
      (hreads : ∀ a ∈ addrs, Readable S w.region.shared.locks (w.session t).txn.rv a) :
      Outcome S w (.read t addrs) (w.called t w.region { w.session t with
        txn := (w.session t).txn.recordReads addrs
        ops := (w.session t).ops ++
          [.read addrs (addrs.map ((w.session t).txn.wordAt w.region.shared.mem))] })
  | readRefused (t : Tid) (addrs : List Addr) (huse : w.Usable t)
      (hnot : ¬ ∀ a ∈ addrs, Readable S w.region.shared.locks (w.session t).txn.rv a) :
      Outcome S w (.read t addrs) (w.called t (w.region.deleteTxn (w.session t).txn)
        { w.session t with status := .refused, ended := w.time })
  | write (t : Tid) (entries : List (Addr × V)) (huse : w.Writable t) :
      Outcome S w (.write t entries) (w.called t w.region { w.session t with
        txn := tmWrite (w.session t).txn entries
        ops := (w.session t).ops ++ [.write entries] })
  | noMemory (t : Tid) (huse : w.Writable t) :
      Outcome S w (.alloc t none) (w.called t w.region (w.session t))
  | alloc (t : Tid) (words : List Addr) (huse : w.Writable t) :
      Outcome S w (.alloc t (some words))
        (w.called t
          { w.region with
            shared := { w.region.shared with mem := clearWords words w.region.shared.mem }
            heap := { w.region.heap with count := w.region.heap.count + 1 } }
          { w.session t with
            txn := { (w.session t).txn with
              segList := (w.session t).txn.segList ++ [w.region.heap.count] }
            ops := (w.session t).ops ++ [.alloc w.region.heap.count words] })
  | free (t : Tid) (seg : SegId) (huse : w.Writable t) :
      Outcome S w (.free t seg) (w.called t w.region (w.session t))
  | commitReadOnly (t : Tid) (huse : w.Usable t) (hro : (w.session t).txn.isRo = true) :
      Outcome S w (.endTx t) (w.called t (w.region.deleteTxn (w.session t).txn)
        { w.session t with status := .committed, ended := w.time })
  | commit (t : Tid) (huse : w.Usable t) (hupdate : (w.session t).txn.isRo = false)
      (hfree : WriteSetFree S w.region.shared.locks (w.session t).txn)
      (hvalid : (w.session t).txn.rv = w.region.shared.gvc ∨
        ReadSetValid S w.region.shared.locks (w.session t).txn) :
      Outcome S w (.endTx t)
        (w.called t
          { shared := {
              gvc := w.region.shared.gvc + 1
              locks := published S (w.region.shared.gvc + 1) w.region.shared.locks
                (w.session t).txn
              mem := overlay (w.session t).txn.writeSet w.region.shared.mem }
            segList := w.region.segList ++ (w.session t).txn.segList
            heap := w.region.heap }
          { w.session t with
            status := .committed, wv := w.region.shared.gvc + 1, ended := w.time })
  | refuseLocked (t : Tid) (huse : w.Usable t) (hupdate : (w.session t).txn.isRo = false)
      (hlocked : ¬ WriteSetFree S w.region.shared.locks (w.session t).txn) :
      Outcome S w (.endTx t)
        (w.called t ({ w.region with shared := { w.region.shared with
            locks := rolledBack w.region.shared.locks
              ((w.session t).txn.acquires S t w.region.shared.locks) } }.deleteTxn
            (w.session t).txn)
          { w.session t with status := .refused, ended := w.time })
  | refuseInvalid (t : Tid) (huse : w.Usable t) (hupdate : (w.session t).txn.isRo = false)
      (hfree : WriteSetFree S w.region.shared.locks (w.session t).txn) :
      Outcome S w (.endTx t)
        (w.called t ({ w.region with shared := { w.region.shared with
            gvc := w.region.shared.gvc + 1
            locks := rolledBack w.region.shared.locks ((w.session t).txn.lockSet S) } }.deleteTxn
            (w.session t).txn)
          { w.session t with status := .refused, ended := w.time })
  | destroy (halive : w.destroyed = false) :
      Outcome S w .destroy
        { w with region := tmDestroy w.region, time := w.time + 1, destroyed := true }
  | tick : Outcome S w .otherRegion { w with
      region := { w.region with
        shared := { w.region.shared with gvc := w.region.shared.gvc + 1 } } }

/-- Every call has one of the outcomes. -/
theorem outcome_of_step [Zero V] {c : Call V} (h : (calls S).step w c = some w') :
    Outcome S w c w' := by
  change callStep S w c = some w' at h
  cases c with
  | begin t isRo =>
    simp only [callStep, Option.ite_none_right_eq_some, Option.some.injEq] at h
    obtain ⟨⟨hnew, -⟩, rfl⟩ := h
    exact .begin t isRo hnew
  | read t addrs =>
    simp only [callStep, Option.ite_none_right_eq_some] at h
    obtain ⟨huse, h⟩ := h
    unfold tmRead at h
    cases hread : readWords S w.region.shared addrs (w.session t).txn with
    | none =>
      simp only [hread, Option.some.injEq] at h
      subst h
      refine .readRefused t addrs huse fun hall => ?_
      have hsome := readWords_eq_some_iff.2 ⟨hall, rfl⟩
      rw [hread] at hsome
      cases hsome
    | some res =>
      obtain ⟨hall, rfl⟩ := readWords_eq_some_iff.1 hread
      simp only [hread, Option.some.injEq] at h
      subst h
      exact .read t addrs huse hall
  | write t entries =>
    simp only [callStep, Option.ite_none_right_eq_some, Option.some.injEq] at h
    obtain ⟨huse, rfl⟩ := h
    exact .write t entries huse
  | alloc t block =>
    simp only [callStep, Option.ite_none_right_eq_some, Option.some.injEq] at h
    obtain ⟨huse, rfl⟩ := h
    cases block with
    | none =>
      -- a failed allocation is not an operation of the session
      have hsame : { w.session t with ops := (w.session t).ops ++ [] } = w.session t := by
        rw [List.append_nil]
      have hcall := Outcome.noMemory (S := S) t huse
      rw [← hsame] at hcall
      exact hcall
    | some words => exact .alloc t words huse
  | free t seg =>
    simp only [callStep, Option.ite_none_right_eq_some, Option.some.injEq] at h
    obtain ⟨huse, rfl⟩ := h
    exact .free t seg huse
  | endTx t =>
    simp only [callStep, Option.ite_none_right_eq_some] at h
    obtain ⟨huse, h⟩ := h
    cases hro : (w.session t).txn.isRo with
    | true =>
      rw [tmEnd_readOnly hro] at h
      simp only [hro, if_true, Option.some.injEq] at h
      subst h
      exact .commitReadOnly t huse hro
    | false =>
      -- the ways `tm_end` can go: a lock is taken, the validation fails, or the commit
      by_cases hfree : WriteSetFree S w.region.shared.locks (w.session t).txn
      · by_cases hvalid : (w.session t).txn.rv = w.region.shared.gvc ∨
          ReadSetValid S w.region.shared.locks (w.session t).txn
        · rw [tmEnd_of_valid hro hfree hvalid] at h
          simp only [hro, Bool.false_eq_true, if_false, Option.some.injEq] at h
          subst h
          exact .commit t huse hro hfree hvalid
        · rw [tmEnd_of_invalid hro hfree (not_or.1 hvalid).1 (not_or.1 hvalid).2] at h
          simp only [Option.some.injEq] at h
          subst h
          exact .refuseInvalid t huse hro hfree
      · rw [tmEnd_of_locked hro hfree] at h
        simp only [Option.some.injEq] at h
        subst h
        exact .refuseLocked t huse hro hfree
  | destroy =>
    simp only [callStep, Option.ite_none_right_eq_some, Option.some.injEq] at h
    obtain ⟨halive, rfl⟩ := h
    exact .destroy halive
  | otherRegion =>
    simp only [callStep, Option.some.injEq] at h
    subst h
    exact .tick

namespace World

variable {region : Region V} {x : Session V}

/-- The region after a call. -/
@[simp] theorem called_region : (w.called t region x).region = region := rfl

/-- A call takes a unit of time. -/
@[simp] theorem called_time : (w.called t region x).time = w.time + 1 := rfl

/-- A call of a transaction does not destroy the region. -/
@[simp] theorem called_destroyed : (w.called t region x).destroyed = w.destroyed := rfl

/-- The session that has called. -/
@[simp] theorem called_session_self : (w.called t region x).session t = x := by simp [called]

/-- The other sessions stay as they are. -/
@[simp] theorem called_session_of_ne (h : u ≠ t) :
    (w.called t region x).session u = w.session u := by
  simp [called, h]

/-- A property of every session after a call. -/
theorem forall_called {P : Tid → Session V → Prop} (hself : P t x)
    (hother : ∀ u, u ≠ t → P u (w.session u)) (u : Tid) :
    P u ((w.called t region x).session u) := by
  by_cases hut : u = t
  · subst hut
    rwa [called_session_self]
  · rw [called_session_of_ne hut]
    exact hother u hut

end World

end TransactionalMemory
