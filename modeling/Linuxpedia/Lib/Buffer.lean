import Linuxpedia.Lib.Bytes
import Mathlib.Data.List.Range
import Mathlib.Data.List.Nodup

/-! A heap buffer of bytes indexed by C integers, used as an allocation table: a
zero cell is free. An access outside the buffer changes nothing and leaves a
permanent mark, so "no access is out of range" is a property of the final state.
The first-fit scan returns the head of the ascending list of free cells. -/

namespace Linuxpedia.Lib

/-- A 32-bit word as a signed `int`. -/
def asInt (w : UInt32) : ℤ := if w.toNat < 2 ^ 31 then w.toNat else (w.toNat : ℤ) - 2 ^ 32

theorem asInt_of_lt {w : UInt32} (h : w.toNat < 2 ^ 31) : asInt w = w.toNat := by
  rw [asInt, if_pos h]

theorem asInt_ofNat {i : ℕ} (h : i < 2 ^ 31) : asInt (UInt32.ofNat i) = i := by
  have hi : (UInt32.ofNat i).toNat = i := by
    rw [UInt32.toNat_ofNat', Nat.mod_eq_of_lt (by omega)]
  rw [asInt_of_lt (by omega), hi]

/-- From `2 ^ 31` on a counter is a negative `int`. -/
theorem asInt_neg {i : ℕ} (h : 2 ^ 31 ≤ i) (h' : i < 2 ^ 32) : asInt (UInt32.ofNat i) < 0 := by
  have hi : (UInt32.ofNat i).toNat = i := by
    rw [UInt32.toNat_ofNat', Nat.mod_eq_of_lt h']
  rw [asInt, hi, if_neg (by omega)]
  omega

/-- Storing a nonnegative `int` in an unsigned word keeps its value. -/
theorem toNat_ofInt_natCast {i : ℕ} (h : i < 2 ^ 32) : (UInt32.ofInt (i : ℤ)).toNat = i := by
  have hi : UInt32.ofInt (i : ℤ) = UInt32.ofNat i := by
    simp [UInt32.ofInt, UInt32.ofNat_eq_iff_mod_eq_toNat, UInt32.toNat_ofNat']
    omega
  rw [hi, UInt32.toNat_ofNat', Nat.mod_eq_of_lt (by omega)]

@[ext]
structure Buffer where
  size : ℕ
  cell : ℕ → UInt8
  fault : Bool

namespace Buffer

/-- A read at index `i`; only its range matters to the state. -/
def check (t : Buffer) (i : ℤ) : Buffer :=
  if 0 ≤ i ∧ i < t.size then t else { t with fault := true }

/-- `t[i] = v`. -/
def set (t : Buffer) (i : ℤ) (v : UInt8) : Buffer :=
  if 0 ≤ i ∧ i < t.size then { t with cell := Function.update t.cell i.toNat v }
  else { t with fault := true }

/-- `for (; i < n; i++) t[i] = v` with an `int` counter, at `n` indices. -/
def fill (v : UInt8) : ℕ → ℕ → Buffer → Buffer
  | 0, _, t => t
  | n + 1, i, t => fill v n (i + 1) (t.set (asInt (UInt32.ofNat i)) v)

/-- Free the listed cells one after the other. -/
def clear (t : Buffer) (bs : List UInt32) : Buffer := bs.foldl (fun t b => t.set (asInt b) 0) t

/-- Mark the listed cells one after the other; the index is unsigned. -/
def mark (t : Buffer) (bs : List UInt32) : Buffer := bs.foldl (fun t b => t.set b.toNat 1) t

variable (t : Buffer)

theorem check_ok {i : ℕ} (h : i < t.size) : t.check i = t := by
  simp [check, h]

theorem set_ok {i : ℕ} (v : UInt8) (h : i < t.size) :
    t.set i v = { t with cell := Function.update t.cell i v } := by
  simp [set, h]

@[simp] theorem size_set (i : ℤ) (v : UInt8) : (t.set i v).size = t.size := by
  unfold set; split_ifs <;> rfl

@[simp] theorem size_fill (v : UInt8) (n i : ℕ) : (fill v n i t).size = t.size := by
  induction n generalizing i t with
  | zero => rfl
  | succ n ih => rw [fill, ih, size_set]

theorem fill_ok (v : UInt8) (n i : ℕ) (h : i + n ≤ t.size) (hs : t.size ≤ 2 ^ 31) :
    fill v n i t = { t with cell := fun j => if i ≤ j ∧ j < i + n then v else t.cell j } := by
  induction n generalizing i t with
  | zero =>
    have hj : ∀ j, ¬ (i ≤ j ∧ j < i) := by intro j; omega
    simp [fill, hj]
  | succ n ih =>
    rw [fill, asInt_ofNat (by omega), ih _ _ (by rw [size_set]; omega) (by rw [size_set]; exact hs),
      set_ok t v (by omega)]
    congr 1
    funext j
    by_cases hj : j = i
    · subst hj; simp
    · simp only [Function.update_of_ne hj]
      congr 1
      simp only [eq_iff_iff]
      omega

@[simp] theorem clear_nil : t.clear [] = t := rfl

@[simp] theorem clear_cons (b : UInt32) (bs : List UInt32) :
    t.clear (b :: bs) = (t.set (asInt b) 0).clear bs := rfl

@[simp] theorem size_clear (bs : List UInt32) : (t.clear bs).size = t.size := by
  induction bs generalizing t with
  | nil => rfl
  | cons b bs ih => rw [clear_cons, ih, size_set]

@[simp] theorem size_mark (bs : List UInt32) : (t.mark bs).size = t.size := by
  induction bs generalizing t with
  | nil => rfl
  | cons b bs ih => exact (ih (t.set b.toNat 1)).trans (size_set _ _ _)

/-! Faults. -/

theorem fault_set (i : ℤ) (v : UInt8) :
    (t.set i v).fault = false ↔ t.fault = false ∧ 0 ≤ i ∧ i < t.size := by
  unfold set
  split_ifs with h
  · exact (and_iff_left h).symm
  · simp [h]

theorem fault_fill (v : UInt8) (n i : ℕ) : (fill v n i t).fault = false ↔ t.fault = false ∧
    ∀ j, i ≤ j → j < i + n → 0 ≤ asInt (UInt32.ofNat j) ∧ asInt (UInt32.ofNat j) < t.size := by
  induction n generalizing i t with
  | zero =>
    refine (and_iff_left ?_).symm
    intro j h1 h2
    omega
  | succ n ih =>
    rw [fill, ih, fault_set, size_set, and_assoc]
    refine and_congr_right fun _ => ?_
    constructor
    · rintro ⟨hhead, htail⟩ j h1 h2
      rcases Nat.eq_or_lt_of_le h1 with rfl | hlt
      · exact hhead
      · exact htail j hlt (by omega)
    · intro h
      exact ⟨h i (Nat.le_refl i) (by omega), fun j h1 h2 => h j (by omega) (by omega)⟩

theorem fault_clear (bs : List UInt32) : (t.clear bs).fault = false ↔
    t.fault = false ∧ ∀ b ∈ bs, 0 ≤ asInt b ∧ asInt b < t.size := by
  induction bs generalizing t with
  | nil => simp
  | cons b bs ih =>
    rw [clear_cons, ih, fault_set, size_set, List.forall_mem_cons, and_assoc]

theorem fault_mark (bs : List UInt32) : (t.mark bs).fault = false ↔
    t.fault = false ∧ ∀ b ∈ bs, b.toNat < t.size := by
  induction bs generalizing t with
  | nil => simp [mark]
  | cons b bs ih =>
    have hcons : t.mark (b :: bs) = (t.set b.toNat 1).mark bs := rfl
    rw [hcons, ih, fault_set, size_set, List.forall_mem_cons, and_assoc]
    simp

/-- Freeing cells in range clears exactly these. -/
theorem clear_ok (bs : List UInt32) (hs : t.size ≤ 2 ^ 31) (h : ∀ b ∈ bs, b.toNat < t.size) :
    t.clear bs = { t with cell := fun j => if j ∈ bs.map UInt32.toNat then 0 else t.cell j } := by
  induction bs generalizing t with
  | nil => simp
  | cons b bs ih =>
    have hb := h b (by simp)
    have hi := ih { t with cell := Function.update t.cell b.toNat 0 } hs
      (fun c hc => h c (by simp [hc]))
    rw [clear_cons, asInt_of_lt (by omega), set_ok t 0 hb, hi]
    congr 1
    funext j
    by_cases hj : j = b.toNat
    · subst hj; simp
    · simp [hj]

/-- Marking cells in range sets exactly these. -/
theorem mark_ok (bs : List UInt32) (h : ∀ b ∈ bs, b.toNat < t.size) :
    t.mark bs = { t with cell := fun j => if j ∈ bs.map UInt32.toNat then 1 else t.cell j } := by
  induction bs generalizing t with
  | nil => simp [mark]
  | cons b bs ih =>
    have hb := h b (by simp)
    have hc : t.mark (b :: bs) = (t.set b.toNat 1).mark bs := rfl
    have hi := ih { t with cell := Function.update t.cell b.toNat 1 }
      (fun c hc => h c (by simp [hc]))
    rw [hc, set_ok t 1 hb, hi]
    congr 1
    funext j
    by_cases hj : j = b.toNat
    · subst hj; simp
    · simp [hj]

/-! ### First fit -/

/-- The free cells from `lo` on, ascending. -/
def free (lo : ℕ) : List ℕ := (List.range' lo (t.size - lo)).filter (fun b => t.cell b = 0)

theorem mem_free {lo b : ℕ} : b ∈ t.free lo ↔ lo ≤ b ∧ b < t.size ∧ t.cell b = 0 := by
  simp only [free, List.mem_filter, List.mem_range'_1, decide_eq_true_eq]
  constructor
  · rintro ⟨⟨h1, h2⟩, h3⟩
    exact ⟨h1, by omega, h3⟩
  · rintro ⟨h1, h2, h3⟩
    exact ⟨⟨h1, by omega⟩, h3⟩

theorem free_nodup (lo : ℕ) : (t.free lo).Nodup := (List.nodup_range' 1).filter _

/-- `for (; i < n; i++) if (t[i] == 0) { t[i] = 1; return i; } return -1`, with an
`int` counter. -/
def firstFit : ℕ → ℕ → Buffer → Buffer × ℤ
  | 0, _, t => (t, -1)
  | n + 1, i, t =>
    let k := asInt (UInt32.ofNat i)
    let t := t.check k
    if t.cell k.toNat = 0 then (t.set k 1, k) else firstFit n (i + 1) t

/-- The buffer with cell `b` taken. -/
def take (b : ℕ) : Buffer := { t with cell := Function.update t.cell b 1 }

@[simp] theorem size_take (b : ℕ) : (t.take b).size = t.size := rfl

@[simp] theorem fault_take (b : ℕ) : (t.take b).fault = t.fault := rfl

theorem cell_take (b j : ℕ) : (t.take b).cell j = if j = b then 1 else t.cell j := by
  simp [take, Function.update_apply]

theorem firstFit_ok (n i : ℕ) (h : i + n = t.size) (hs : t.size ≤ 2 ^ 31) :
    firstFit n i t = match t.free i with
      | [] => (t, -1)
      | b :: _ => (t.take b, b) := by
  induction n generalizing i with
  | zero =>
    have hf : t.free i = [] := by simp [free, show t.size - i = 0 by omega]
    simp [firstFit, hf]
  | succ n ih =>
    have hk : asInt (UInt32.ofNat i) = i := asInt_ofNat (by omega)
    have hr : t.free i = if t.cell i = 0 then i :: t.free (i + 1) else t.free (i + 1) := by
      rw [free, show t.size - i = (t.size - (i + 1)) + 1 by omega, List.range'_succ,
        List.filter_cons]
      simp [free]
    simp only [firstFit, hk, check_ok t (show i < t.size by omega), Int.toNat_natCast]
    by_cases h0 : t.cell i = 0
    · simp [hr, h0, set_ok t 1 (show i < t.size by omega), take]
    · rw [if_neg h0, ih (i + 1) (by omega), hr, if_neg h0]

/-- Taking the first free cell leaves the others free, in order. -/
theorem free_take {lo b : ℕ} {bs : List ℕ} (h : t.free lo = b :: bs) :
    (t.take b).free lo = bs := by
  have hnd : (b :: bs).Nodup := h ▸ t.free_nodup lo
  have hsub : (t.take b).free lo = (t.free lo).filter (fun j => j ≠ b) := by
    simp only [free, size_take, List.filter_filter]
    apply List.filter_congr
    intro j _
    by_cases hj : j = b <;> simp [cell_take, hj]
  rw [hsub, h, List.filter_cons]
  simp only [ne_eq, not_true_eq_false, decide_false, Bool.false_eq_true, ↓reduceIte]
  apply List.filter_eq_self.mpr
  intro j hj
  have hne : j ≠ b := fun he => (List.nodup_cons.mp hnd).1 (he ▸ hj)
  simpa using hne

/-- The buffer with the listed cells taken. -/
def takes (bs : List ℕ) : Buffer := bs.foldl take t

@[simp] theorem takes_nil : t.takes [] = t := rfl

@[simp] theorem takes_cons (b : ℕ) (bs : List ℕ) : t.takes (b :: bs) = (t.take b).takes bs := rfl

@[simp] theorem size_takes (bs : List ℕ) : (t.takes bs).size = t.size := by
  induction bs generalizing t with
  | nil => rfl
  | cons b bs ih => exact ih (t.take b)

@[simp] theorem fault_takes (bs : List ℕ) : (t.takes bs).fault = t.fault := by
  induction bs generalizing t with
  | nil => rfl
  | cons b bs ih => exact ih (t.take b)

theorem cell_takes (bs : List ℕ) (j : ℕ) :
    (t.takes bs).cell j = if j ∈ bs then 1 else t.cell j := by
  induction bs generalizing t with
  | nil => rfl
  | cons b bs ih =>
    rw [takes_cons, ih, cell_take]
    by_cases hj : j = b <;> simp [hj]

end Buffer

end Linuxpedia.Lib
