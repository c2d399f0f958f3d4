import Mathlib.Algebra.Order.Ring.Nat
import Mathlib.Data.List.GetD
import Mathlib.Tactic.SplitIfs

/-! Byte stores: a total map from addresses to bytes, read through windows and
written by copying `n` bytes to an address. Words are 32-bit, least significant
byte first. Copies outside a window leave it alone, and a word written byte by
byte is read back. -/

namespace Linuxpedia.Lib

/-- What is asked of the members of a list is decided along the list, not over the type
of the members, which may be all words. -/
instance (priority := high) decidableForallMem {α : Type*} (p : α → Prop) [DecidablePred p]
    (l : List α) : Decidable (∀ a ∈ l, p a) :=
  List.decidableBAll p l

/-- A byte-addressed store. -/
abbrev Store := ℕ → UInt8

namespace Store

/-- The bytes from address `o` on. -/
def window (f : Store) (o : ℕ) : Store := fun i => f (o + i)

/-- Copy the first `n` bytes of `g` to address `o`. -/
def blit (f : Store) (o n : ℕ) (g : Store) : Store :=
  fun i => if o ≤ i ∧ i < o + n then g (i - o) else f i

/-- The first `n` bytes. -/
def bytes (f : Store) (n : ℕ) : List UInt8 := (List.range n).map f

variable (f g : Store) {o n i : ℕ}

@[simp] theorem window_apply (o i : ℕ) : f.window o i = f (o + i) := rfl

theorem blit_inside (h : i < n) : f.blit o n g (o + i) = g i := by
  simp [blit, h]

theorem blit_outside (h : i < o ∨ o + n ≤ i) : f.blit o n g i = f i := by
  have hn : ¬ (o ≤ i ∧ i < o + n) := by omega
  simp [blit, hn]

/-- Reading back the bytes just copied. -/
theorem window_blit_self (h : i < n) : (f.blit o n g).window o i = g i :=
  blit_inside f g h

/-- A window that the copy does not meet is unchanged. -/
theorem window_blit_disjoint {p m : ℕ} (h : p + m ≤ o ∨ o + n ≤ p) (hi : i < m) :
    (f.blit o n g).window p i = f.window p i :=
  blit_outside f g (by omega)

@[simp] theorem blit_zero : f.blit o 0 g = f := by
  funext i
  exact blit_outside f g (by omega)

/-- Copying the same bytes again changes nothing. -/
@[simp] theorem blit_blit : (f.blit o n g).blit o n g = f.blit o n g := by
  funext i
  unfold blit
  split_ifs <;> rfl

theorem bytes_congr {f g : Store} (h : ∀ i < n, f i = g i) : f.bytes n = g.bytes n :=
  List.map_congr_left fun i hi => h i (List.mem_range.mp hi)

@[simp] theorem length_bytes : (f.bytes n).length = n := by simp [bytes]

theorem blit_congr {g g' : Store} (h : ∀ i < n, g i = g' i) : f.blit o n g = f.blit o n g' := by
  funext i
  unfold blit
  by_cases hi : o ≤ i ∧ i < o + n
  · rw [if_pos hi, if_pos hi, h (i - o) (by omega)]
  · rw [if_neg hi, if_neg hi]

theorem bytes_add (n m : ℕ) : f.bytes (n + m) = f.bytes n ++ (f.window n).bytes m := by
  simp [bytes, List.range_add, Function.comp_def]

/-- The byte at a position of the bytes read. -/
theorem apply_of_bytes {l : List UInt8} (h : f.bytes n = l) (hi : i < n) : f i = l.getD i 0 := by
  subst h
  simp [bytes, List.getElem?_range hi]

/-- A list stored somewhere is read back. -/
theorem bytes_of_list {l : List UInt8} (h : ∀ i < n, f i = l.getD i 0) (hn : n ≤ l.length) :
    f.bytes n = l.take n := by
  apply List.ext_getElem
  · rw [length_bytes, List.length_take, Nat.min_eq_left hn]
  · intro i hi hi'
    rw [length_bytes] at hi
    simp only [bytes, List.getElem_map, List.getElem_range, List.getElem_take]
    rw [h i hi, List.getD_eq_getElem _ _ (by omega)]

/-! ### Words -/

/-- The 32-bit word at address `o`. -/
def word (f : Store) (o : ℕ) : UInt32 :=
  UInt32.ofNat ((f o).toNat + 256 * (f (o + 1)).toNat + 65536 * (f (o + 2)).toNat +
    16777216 * (f (o + 3)).toNat)

/-- Byte `k` of a word in memory. -/
def wordByte (w : UInt32) (k : ℕ) : UInt8 := UInt8.ofNat (w.toNat / 256 ^ k)

theorem word_congr {f g : Store} {p : ℕ} (h : ∀ k < 4, f (o + k) = g (p + k)) :
    f.word o = g.word p := by
  have h0 := h 0 (by omega)
  have h1 := h 1 (by omega)
  have h2 := h 2 (by omega)
  have h3 := h 3 (by omega)
  simp only [add_zero] at h0
  simp only [word, h0, h1, h2, h3]

/-- Four bytes written least significant first are read back as the word. -/
theorem word_of_bytes (w : UInt32) (h : ∀ k < 4, f (o + k) = wordByte w k) : f.word o = w := by
  have h0 := h 0 (by omega)
  have h1 := h 1 (by omega)
  have h2 := h 2 (by omega)
  have h3 := h 3 (by omega)
  have hw := w.toNat_lt
  simp only [add_zero] at h0
  apply UInt32.toNat_inj.mp
  simp only [word, h0, h1, h2, h3, wordByte, UInt32.toNat_ofNat', UInt8.toNat_ofNat']
  omega

/-- A zero word is stored as zero bytes. -/
@[simp] theorem wordByte_zero (k : ℕ) : wordByte 0 k = 0 := by simp [wordByte]

end Store

end Linuxpedia.Lib
