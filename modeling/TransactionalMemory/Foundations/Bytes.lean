import Mathlib.Algebra.Order.Ring.Nat
import Mathlib.Data.List.GetD
import Mathlib.Data.List.Nodup
import Mathlib.Data.List.OfFn
import Mathlib.Data.Nat.Basic
import Mathlib.Tactic.Ring

/-!
# Bytes and words

A byte memory is a function from addresses to bytes. It can be read, written and filled in ranges
of any length (`slice`, `store`, `fill`), and it can be seen as a memory of words of `align` bytes
each, at the addresses that are multiples of `align` (`word`). The two views are connected:

* `slice_eq_flatMap`: the bytes of a range of words, one word after the other;
* `word_store_of_mem`: what a word is after a range of words has been written;
* `mem_wordAddrs`: the addresses of the words of a range.

The type of the bytes is arbitrary.
-/

namespace ByteMemory

variable {β : Type*} {align a b n : ℕ} {m : ℕ → β}

/-- The bytes of a range. -/
def slice (m : ℕ → β) (a n : ℕ) : List β := (List.range n).map fun k => m (a + k)

/-- Write bytes one after the other, from an address on. -/
def store (m : ℕ → β) (a : ℕ) (data : List β) : ℕ → β :=
  fun b => if a ≤ b then data[b - a]?.getD (m b) else m b

/-- Write the same byte to a whole range. -/
def fill (m : ℕ → β) (a n : ℕ) (v : β) : ℕ → β := fun b => if a ≤ b ∧ b < a + n then v else m b

/-- The word at an address. -/
def word (align : ℕ) (m : ℕ → β) (a : ℕ) : Fin align → β := fun j => m (a + j)

/-- The addresses of the words of a range. -/
def wordAddrs (align a n : ℕ) : List ℕ := (List.range (n / align)).map fun i => a + i * align

/-- The words of some bytes, with their addresses from `a` on. -/
def wordEntries [Zero β] (align a : ℕ) (data : List β) : List (ℕ × (Fin align → β)) :=
  (List.range (data.length / align)).map fun i =>
    (a + i * align, fun j => data.getD (i * align + j) 0)

/-- A slice is put together from two. -/
theorem slice_append (m : ℕ → β) (a n k : ℕ) :
    slice m a (n + k) = slice m a n ++ slice m (a + n) k := by
  unfold slice
  rw [List.range_add, List.map_append, List.map_map]
  simp only [Function.comp_def, Nat.add_assoc]

/-- A slice has the length that was asked for. -/
theorem length_slice (m : ℕ → β) (a n : ℕ) : (slice m a n).length = n := by simp [slice]

/-- A slice depends on the bytes in it. -/
theorem slice_congr {m' : ℕ → β} (h : ∀ b, a ≤ b → b < a + n → m' b = m b) :
    slice m' a n = slice m a n := by
  apply List.map_congr_left
  intro k hk
  rw [List.mem_range] at hk
  exact h (a + k) (Nat.le_add_right a k) (Nat.add_lt_add_left hk a)

/-- A store leaves the other bytes alone. -/
theorem store_of_not_mem {data : List β} (hnot : ¬ (a ≤ b ∧ b < a + data.length)) :
    store m a data b = m b := by
  unfold store
  split
  next hle => rw [List.getElem?_eq_none (by omega), Option.getD_none]
  next => rfl

/-- What was written is read. -/
theorem slice_store (m : ℕ → β) (a : ℕ) (data : List β) :
    slice (store m a data) a data.length = data := by
  apply List.ext_getElem (length_slice _ _ _)
  intro k _ hk
  have hbyte : store m a data (a + k) = data[k] := by
    rw [store, if_pos (Nat.le_add_right a k), Nat.add_sub_cancel_left,
      List.getElem?_eq_getElem hk, Option.getD_some]
  simpa [slice] using hbyte

/-- Bytes that are written after one another. -/
theorem store_append (m : ℕ → β) (a : ℕ) (data data' : List β) :
    store (store m a data) (a + data.length) data' = store m a (data ++ data') := by
  funext b
  unfold store
  by_cases hle : a + data.length ≤ b
  · have hsub : b - a - data.length = b - (a + data.length) := by omega
    rw [if_pos hle, if_pos (by omega), if_pos (by omega), List.getElem?_append_right (by omega),
      hsub, List.getElem?_eq_none (l := data) (by omega), Option.getD_none]
  · rw [if_neg hle]
    split
    · rw [List.getElem?_append_left (by omega)]
    · rfl

/-- Nothing is stored. -/
theorem store_nil (m : ℕ → β) (a : ℕ) : store m a [] = m := by
  funext b
  simp [store]

/-- A fill leaves the other bytes alone. -/
theorem fill_of_not_mem {v : β} (hnot : ¬ (a ≤ b ∧ b < a + n)) : fill m a n v b = m b :=
  if_neg hnot

/-- A word is a range of `align` bytes. -/
theorem ofFn_word (align : ℕ) (m : ℕ → β) (a : ℕ) :
    List.ofFn (word align m a) = slice m a align := by
  apply List.ext_getElem (by simp [slice])
  intro i _ _
  simp [slice, word]

/-- Reading a range byte by byte and word by word. -/
theorem slice_eq_flatMap (halign : 0 < align) (hn : align ∣ n) :
    slice m a n = (wordAddrs align a n).flatMap fun x => List.ofFn (word align m x) := by
  obtain ⟨k, rfl⟩ := hn
  rw [wordAddrs, Nat.mul_div_cancel_left k halign]
  induction k with
  | zero => simp [slice]
  | succ k ih =>
    rw [Nat.mul_succ, slice_append, ih, List.range_succ, List.map_append, List.flatMap_append]
    simp [ofFn_word, Nat.mul_comm]

/-- The addresses of the words of an aligned range are its aligned addresses. -/
theorem mem_wordAddrs (halign : 0 < align) (ha : align ∣ a) (hn : align ∣ n) :
    b ∈ wordAddrs align a n ↔ align ∣ b ∧ a ≤ b ∧ b < a + n := by
  obtain ⟨p, rfl⟩ := ha
  obtain ⟨k, rfl⟩ := hn
  rw [wordAddrs, Nat.mul_div_cancel_left k halign, List.mem_map]
  constructor
  · rintro ⟨i, hi, rfl⟩
    rw [List.mem_range] at hi
    have hlt : i * align < k * align := Nat.mul_lt_mul_of_pos_right hi halign
    refine ⟨⟨p + i, by ring⟩, Nat.le_add_right _ _, ?_⟩
    rw [Nat.mul_comm align k]
    exact Nat.add_lt_add_left hlt _
  · rintro ⟨⟨q, rfl⟩, hle, hlt⟩
    have hpq : p ≤ q := Nat.le_of_mul_le_mul_left hle halign
    have hqk : q < p + k := by
      rw [← Nat.mul_add] at hlt
      exact Nat.lt_of_mul_lt_mul_left hlt
    refine ⟨q - p, List.mem_range.2 (by omega), ?_⟩
    obtain ⟨i, rfl⟩ := Nat.exists_eq_add_of_le hpq
    rw [Nat.add_sub_cancel_left]
    ring

/-- An aligned range holds all bytes of a word or none. -/
theorem mem_range_iff (ha : align ∣ a) (hb : align ∣ b) (hn : align ∣ n) {j : ℕ}
    (hj : j < align) : (a ≤ b + j ∧ b + j < a + n) ↔ (a ≤ b ∧ b < a + n) := by
  obtain ⟨p, rfl⟩ := ha
  obtain ⟨q, rfl⟩ := hb
  obtain ⟨k, rfl⟩ := hn
  rw [← Nat.mul_add]
  have hbyte : ∀ c, align * q + j < align * c ↔ align * q < align * c := by
    intro c
    constructor
    · exact fun h => by omega
    · intro h
      have hqc : q + 1 ≤ c := Nat.lt_of_mul_lt_mul_left h
      have := Nat.mul_le_mul_left align hqc
      rw [Nat.mul_add, Nat.mul_one] at this
      omega
  rw [hbyte, ← not_lt, hbyte, not_lt]

/-- The words of a range are those at its word addresses. -/
theorem keys_wordEntries [Zero β] (align a : ℕ) (data : List β) :
    (wordEntries align a data).map Prod.fst = wordAddrs align a data.length := by
  simp [wordEntries, wordAddrs, Function.comp_def]

/-- The word addresses of a range are distinct. -/
theorem nodup_wordAddrs (halign : 0 < align) : (wordAddrs align a n).Nodup := by
  refine List.Nodup.map (fun i j hij => ?_) List.nodup_range
  exact Nat.eq_of_mul_eq_mul_right halign (Nat.add_left_cancel hij)

/-- The word at an address that has been written. -/
theorem word_store_of_mem [Zero β] (halign : 0 < align) {data : List β}
    (hn : align ∣ data.length) {w : Fin align → β} (hw : (b, w) ∈ wordEntries align a data) :
    word align (store m a data) b = w := by
  obtain ⟨k, hk⟩ := hn
  obtain ⟨i, hi, heq⟩ := List.mem_map.1 hw
  obtain ⟨rfl, rfl⟩ := Prod.mk.inj heq
  rw [hk, Nat.mul_div_cancel_left k halign, List.mem_range] at hi
  ext j
  have hlt : i * align + j < data.length := by
    have hle : (i + 1) * align ≤ k * align := Nat.mul_le_mul_right align hi
    rw [hk, Nat.mul_comm align k]
    rw [Nat.add_mul, Nat.one_mul] at hle
    omega
  have hindex : a + i * align + j - a = i * align + j := by omega
  show store m a data (a + i * align + j) = _
  rw [store, if_pos (by omega), hindex, List.getElem?_eq_getElem hlt, Option.getD_some,
    List.getD_eq_getElem _ _ hlt]

/-- The word at an address that has not been written. -/
theorem word_store_of_not_mem (ha : align ∣ a) (hb : align ∣ b) {data : List β}
    (hn : align ∣ data.length) (hnot : ¬ (a ≤ b ∧ b < a + data.length)) :
    word align (store m a data) b = word align m b := by
  ext j
  have hout := mt (mem_range_iff ha hb hn j.2).1 hnot
  exact store_of_not_mem hout

/-- The word at an address of a filled range. -/
theorem word_fill_of_mem {v : β} (ha : align ∣ a) (hb : align ∣ b) (hn : align ∣ n)
    (hmem : a ≤ b ∧ b < a + n) : word align (fill m a n v) b = fun _ => v := by
  ext j
  exact if_pos ((mem_range_iff ha hb hn j.2).2 hmem)

/-- The word at an address outside of a filled range. -/
theorem word_fill_of_not_mem {v : β} (ha : align ∣ a) (hb : align ∣ b) (hn : align ∣ n)
    (hnot : ¬ (a ≤ b ∧ b < a + n)) : word align (fill m a n v) b = word align m b := by
  ext j
  exact if_neg (mt (mem_range_iff ha hb hn j.2).1 hnot)

end ByteMemory
