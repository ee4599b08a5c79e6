import Mathlib.Data.List.Pairwise
import Mathlib.Data.Nat.Digits.Defs
import TransactionalMemory.Foundations.Bytes

/-!
# Blocks of memory

The heap of a process with 64-bit addresses: its bytes and the blocks that the allocator has handed
out and that have not been freed. The blocks are nonempty, pairwise disjoint and inside of the
address space (`BlockHeap`).

`BlockHeap.posixMemalign` and `BlockHeap.free` are the two functions of the allocator. Which block
it hands out is a parameter, as is what it does to the bytes outside of the blocks; it never touches
a byte of a block. `free` is undefined (`none`) for an address that is not the start of a block.

A pointer is stored as eight bytes, the lowest one first (`loadPointer`, `storePointer`).
-/

/-- A range of addresses. -/
structure Block where
  /-- The first address. -/
  start : ℕ
  /-- The number of addresses. -/
  size : ℕ
  deriving DecidableEq

namespace Block

/-- The addresses of a block. -/
instance : Membership ℕ Block := ⟨fun g b => g.start ≤ b ∧ b < g.start + g.size⟩

variable {g h : Block} {b : ℕ}

/-- The bytes of a block. -/
theorem mem_def : b ∈ g ↔ g.start ≤ b ∧ b < g.start + g.size := Iff.rfl

instance (g : Block) (b : ℕ) : Decidable (b ∈ g) := inferInstanceAs (Decidable (_ ∧ _))

/-- Two blocks have no address in common. -/
def Disjoint (g h : Block) : Prop := g.start + g.size ≤ h.start ∨ h.start + h.size ≤ g.start

instance (g h : Block) : Decidable (g.Disjoint h) := inferInstanceAs (Decidable (_ ∨ _))

/-- All addresses of `h` belong to `g`. -/
def Contains (g h : Block) : Prop := g.start ≤ h.start ∧ h.start + h.size ≤ g.start + g.size

instance (g h : Block) : Decidable (g.Contains h) := inferInstanceAs (Decidable (_ ∧ _))

/-- Disjointness is symmetric. -/
theorem Disjoint.symm (hd : g.Disjoint h) : h.Disjoint g := Or.symm hd

/-- Disjoint blocks have no byte in common. -/
theorem Disjoint.not_mem (hd : g.Disjoint h) (hb : b ∈ g) : b ∉ h := by
  rw [mem_def] at hb ⊢
  unfold Disjoint at hd
  omega

/-- The bytes of a block are those of the block that contains it. -/
theorem Contains.mem (hc : g.Contains h) (hb : b ∈ h) : b ∈ g := by
  rw [mem_def] at hb ⊢
  unfold Contains at hc
  omega

/-- A block of the address space that does not start at the null address. -/
structure Valid (g : Block) : Prop where
  not_null : 0 < g.start
  nonempty : 0 < g.size
  bounded : g.start + g.size ≤ 2 ^ 64

instance (g : Block) : Decidable g.Valid :=
  decidable_of_iff (0 < g.start ∧ 0 < g.size ∧ g.start + g.size ≤ 2 ^ 64)
    ⟨fun h => ⟨h.1, h.2.1, h.2.2⟩, fun h => ⟨h.not_null, h.nonempty, h.bounded⟩⟩

end Block

/-- The bytes of a process and the blocks handed out and not yet freed. -/
structure BlockHeap where
  /-- The bytes. -/
  mem : ℕ → BitVec 8
  /-- The blocks. -/
  blocks : List Block
  /-- History: the calls to `free`, in their order. -/
  freed : List ℕ
  valid : ∀ g ∈ blocks, g.Valid
  disjoint : blocks.Pairwise Block.Disjoint

namespace BlockHeap

variable {h h' : BlockHeap} {junk : ℕ → BitVec 8} {g k : Block} {align size p : ℕ}

/-- The bytes after the allocator has worked: those outside of the blocks may have changed. -/
def worked (h : BlockHeap) (junk : ℕ → BitVec 8) : ℕ → BitVec 8 :=
  fun b => if ∃ g ∈ h.blocks, b ∈ g then h.mem b else junk b

/-- What is not free is kept when the allocator works. -/
theorem worked_of_mem (hg : g ∈ h.blocks) {b : ℕ} (hb : b ∈ g) : h.worked junk b = h.mem b :=
  if_pos ⟨g, hg, hb⟩

/-- The block that starts at `p` is given back. -/
def free (junk : ℕ → BitVec 8) (p : ℕ) (h : BlockHeap) : Option BlockHeap :=
  if ∃ g ∈ h.blocks, g.start = p then
    let rest : BlockHeap := {
      mem := h.mem
      blocks := h.blocks.eraseP fun g => g.start = p
      freed := h.freed ++ [p]
      valid := fun g hg => h.valid g (List.mem_of_mem_eraseP hg)
      disjoint := h.disjoint.sublist List.eraseP_sublist }
    some { rest with mem := rest.worked junk }
  else none

/-- What the allocator promises of a new block. -/
def Fits (h : BlockHeap) (align : ℕ) (g : Block) : Prop :=
  align ∣ g.start ∧ g.Valid ∧ ∀ k ∈ h.blocks, g.Disjoint k

instance (h : BlockHeap) (align : ℕ) (g : Block) : Decidable (h.Fits align g) :=
  inferInstanceAs (Decidable (_ ∧ _))

/-- A block is handed out, if the answer of the allocator is not that there is no memory. The
result is `none` for an answer that the allocator does not give. -/
def posixMemalign (junk : ℕ → BitVec 8) (align size : ℕ) (answer : Option ℕ) (h : BlockHeap) :
    Option (BlockHeap × Option ℕ) :=
  match answer with
  | none => some ({ h with mem := h.worked junk }, none)
  | some p =>
    if hfits : h.Fits align ⟨p, size⟩ then
      some ({
        mem := h.worked junk
        blocks := ⟨p, size⟩ :: h.blocks
        freed := h.freed
        valid := List.forall_mem_cons.2 ⟨hfits.2.1, h.valid⟩
        disjoint := List.pairwise_cons.2 ⟨hfits.2.2, h.disjoint⟩ }, some p)
    else none

/-- `malloc` is `posix_memalign` with the alignment that suits every object. -/
def malloc (junk : ℕ → BitVec 8) (size : ℕ) (answer : Option ℕ) (h : BlockHeap) :
    Option (BlockHeap × Option ℕ) :=
  h.posixMemalign junk 16 size answer

/-- Two blocks are the same or have no address in common. -/
theorem disjoint_of_ne (h : BlockHeap) (hg : g ∈ h.blocks) (hk : k ∈ h.blocks) (hne : g ≠ k) :
    g.Disjoint k := by
  -- the blocks are pairwise disjoint in their order; disjointness does not depend on it
  have hsymm : Std.Symm Block.Disjoint := ⟨fun _ _ => Block.Disjoint.symm⟩
  exact h.disjoint.forall hg hk hne

/-- A block is determined by its start. -/
theorem eq_of_start (h : BlockHeap) (hg : g ∈ h.blocks) (hk : k ∈ h.blocks)
    (hstart : g.start = k.start) : g = k := by
  by_contra hne
  have hdisjoint := h.disjoint_of_ne hg hk hne
  have hg' := (h.valid g hg).nonempty
  have hk' := (h.valid k hk).nonempty
  unfold Block.Disjoint at hdisjoint
  omega

/-- A block is given back, and the bytes of the others stay. -/
theorem exists_free (junk : ℕ → BitVec 8) (hg : g ∈ h.blocks) :
    ∃ h', h.free junk g.start = some h' ∧ h.blocks.Perm (g :: h'.blocks) ∧
      h'.freed = h.freed ++ [g.start] ∧ ∀ k ∈ h'.blocks, ∀ b ∈ k, h'.mem b = h.mem b := by
  refine ⟨_, if_pos ⟨g, hg, rfl⟩, ?_, rfl, fun k hk b hb => if_pos ⟨k, hk, hb⟩⟩
  obtain ⟨k, front, back, -, hstart, hblocks, herase⟩ :=
    List.exists_of_eraseP hg (p := fun k => k.start = g.start) (by simp)
  -- the block found is `g`, the only one with this start
  have hk : k ∈ h.blocks := by
    rw [hblocks]
    exact List.mem_append_right _ List.mem_cons_self
  obtain rfl : k = g := h.eq_of_start hk hg (of_decide_eq_true hstart)
  show h.blocks.Perm (k :: h.blocks.eraseP fun g => g.start = k.start)
  rw [herase, hblocks]
  exact List.perm_middle

/-- The answers of the allocator: it leaves the bytes of the blocks alone, and hands out a new block
or none. -/
theorem posixMemalign_cases {answer r : Option ℕ}
    (hcall : h.posixMemalign junk align size answer = some (h', r)) :
    h'.freed = h.freed ∧ (∀ k ∈ h.blocks, ∀ b ∈ k, h'.mem b = h.mem b) ∧
      (answer = none ∧ r = none ∧ h'.blocks = h.blocks ∨
        ∃ p, answer = some p ∧ r = some p ∧ h.Fits align ⟨p, size⟩ ∧
          h'.blocks = ⟨p, size⟩ :: h.blocks) := by
  cases answer with
  -- no memory
  | none =>
    obtain ⟨rfl, rfl⟩ : _ = h' ∧ _ = r := by simpa [posixMemalign] using hcall
    exact ⟨rfl, fun k hk b hb => worked_of_mem hk hb, .inl ⟨rfl, rfl, rfl⟩⟩
  | some p =>
    -- the answer is only accepted if it keeps the promise
    simp only [posixMemalign, Option.dite_none_right_eq_some, Option.some.injEq] at hcall
    obtain ⟨hfits, heq⟩ := hcall
    obtain ⟨rfl, rfl⟩ := Prod.mk.inj heq
    exact ⟨rfl, fun k hk b hb => worked_of_mem hk hb, .inr ⟨p, rfl, rfl, hfits, rfl⟩⟩

end BlockHeap

/-! ## Pointers -/

section Pointers

variable {mem mem' : ℕ → BitVec 8} {a a' b p : ℕ}

/-- The bytes of a pointer. -/
def pointerBytes (p : ℕ) : List (BitVec 8) :=
  (List.range 8).map fun i => BitVec.ofNat 8 (p / 256 ^ i)

/-- The pointer at an address. -/
def loadPointer (mem : ℕ → BitVec 8) (a : ℕ) : ℕ :=
  Nat.ofDigits 256 ((ByteMemory.slice mem a 8).map BitVec.toNat)

/-- Store a pointer at an address. -/
def storePointer (mem : ℕ → BitVec 8) (a p : ℕ) : ℕ → BitVec 8 :=
  ByteMemory.store mem a (pointerBytes p)

/-- The bytes of a pointer are its digits. -/
theorem ofDigits_pointerBytes (hp : p < 2 ^ 64) :
    Nat.ofDigits 256 ((pointerBytes p).map BitVec.toNat) = p := by
  simp only [pointerBytes, List.range_succ, List.range_zero, List.nil_append, List.cons_append,
    List.map_cons, List.map_nil, BitVec.toNat_ofNat, Nat.ofDigits_cons, Nat.ofDigits_nil]
  -- eight bytes are enough for a number below `2 ^ 64`
  omega

/-- A pointer that has been stored is loaded again. -/
theorem loadPointer_storePointer (mem : ℕ → BitVec 8) (a : ℕ) (hp : p < 2 ^ 64) :
    loadPointer (storePointer mem a p) a = p := by
  have hbytes : ByteMemory.slice (storePointer mem a p) a 8 = pointerBytes p :=
    ByteMemory.slice_store mem a (pointerBytes p)
  rw [loadPointer, hbytes, ofDigits_pointerBytes hp]

/-- Storing a pointer changes eight bytes. -/
theorem storePointer_of_not_mem (hb : ¬ (a ≤ b ∧ b < a + 8)) : storePointer mem a p b = mem b :=
  ByteMemory.store_of_not_mem hb

/-- A pointer depends on eight bytes. -/
theorem loadPointer_congr (h : ∀ b, a ≤ b → b < a + 8 → mem' b = mem b) :
    loadPointer mem' a = loadPointer mem a := by
  rw [loadPointer, ByteMemory.slice_congr h, loadPointer]

/-- A pointer stored elsewhere. -/
theorem loadPointer_storePointer_of_disjoint (h : a + 8 ≤ a' ∨ a' + 8 ≤ a) :
    loadPointer (storePointer mem a p) a' = loadPointer mem a' :=
  loadPointer_congr fun b _ _ => storePointer_of_not_mem (by omega)

end Pointers
