import Linuxpedia.Lib.Bytes
import Linuxpedia.Lib.Run
import Mathlib.Algebra.BigOperators.Group.List.Basic

/-! Byte arrays and bounded byte files. Lists of bytes are put at an address and taken
from one; a list put piece by piece is put whole, and pieces taken one behind the other
are one slice. A file of bounded size transfers what fits in front of its end, and a
transfer may be split anywhere. After a list of writes each byte is the one written
last. -/

namespace Linuxpedia.Lib

namespace Store

variable (f : Store) {o a n : ℕ}

/-- Put the bytes of a list at address `o`. -/
def put (o : ℕ) (l : List UInt8) : Store := f.blit o l.length fun i => l.getD i 0

/-- The `n` bytes at address `o`. -/
def slice (o n : ℕ) : List UInt8 := (f.window o).bytes n

@[simp] theorem put_nil : f.put o [] = f := f.blit_zero _

@[simp] theorem length_slice : (f.slice o n).length = n := length_bytes _

@[simp] theorem slice_zero : f.slice o 0 = [] := rfl

/-- The byte at an address is the one put there, if any. -/
theorem put_apply (l : List UInt8) :
    f.put o l a = (if o ≤ a then l[a - o]? else none).getD (f a) := by
  unfold put blit
  by_cases h : o ≤ a
  · by_cases hl : a < o + l.length
    · have hlt : a - o < l.length := by omega
      simp [h, hl, List.getElem?_eq_getElem hlt, List.getD_eq_getElem?_getD]
    · have hle : l.length ≤ a - o := by omega
      simp [h, hl, List.getElem?_eq_none hle]
  · simp [h]

theorem put_outside {l : List UInt8} (h : a < o ∨ o + l.length ≤ a) : f.put o l a = f a :=
  f.blit_outside _ h

@[simp] theorem put_singleton (b : UInt8) : f.put o [b] = Function.update f o b := by
  funext a
  rw [put_apply, Function.update_apply]
  rcases Nat.lt_trichotomy a o with h | rfl | h
  · simp [h.ne, Nat.not_le.mpr h]
  · simp
  · simp [h.ne', h.le, Nat.sub_ne_zero_of_lt h]

/-- A list is put piece by piece. -/
theorem put_append (o : ℕ) (l r : List UInt8) :
    f.put o (l ++ r) = (f.put o l).put (o + l.length) r := by
  funext a
  rw [put_apply, put_apply, put_apply]
  by_cases h : o + l.length ≤ a
  · have hle : l.length ≤ a - o := by omega
    have ho : o ≤ a := by omega
    simp [h, ho, List.getElem?_append_right hle, List.getElem?_eq_none hle, Nat.sub_sub]
  · by_cases ho : o ≤ a
    · have hlt : a - o < l.length := by omega
      simp [h, ho, List.getElem?_append_left hlt]
    · simp [h, ho]

theorem window_slice (b : ℕ) : (f.window b).slice o n = f.slice (b + o) n := by
  unfold slice
  congr 1
  funext i
  simp only [window_apply, Nat.add_assoc]

theorem slice_congr {f g : Store} (h : ∀ i < n, f (o + i) = g (o + i)) :
    f.slice o n = g.slice o n :=
  bytes_congr h

/-- A list put behind the start of a window is put into the window. -/
theorem window_put (b : ℕ) (l : List UInt8) :
    (f.put (b + o) l).window b = (f.window b).put o l := by
  funext a
  rw [window_apply, put_apply, put_apply, window_apply, Nat.add_sub_add_left]
  simp only [Nat.add_le_add_iff_left]

theorem slice_add (o n m : ℕ) : f.slice o (n + m) = f.slice o n ++ f.slice (o + n) m := by
  have hw : ((f.window o).window n).bytes m = f.slice (o + n) m := f.window_slice o
  unfold slice
  rw [bytes_add, hw]
  rfl

/-- What was put is taken back. -/
theorem slice_put_self (o : ℕ) (l : List UInt8) : (f.put o l).slice o l.length = l := by
  unfold slice
  rw [bytes_of_list (l := l) _ (fun i hi => f.window_blit_self _ hi) le_rfl, List.take_length]

/-- The first bytes after a list was put in front. -/
theorem bytes_put {l : List UInt8} {n : ℕ} (h : l.length ≤ n) :
    (f.put 0 l).bytes n = l ++ (f.bytes n).drop l.length := by
  refine List.ext_getElem (by simp; omega) fun i h1 h2 => ?_
  have hi : (f.put 0 l) i = l[i]?.getD (f i) := by
    rw [put_apply, if_pos (Nat.zero_le i), Nat.sub_zero]
  by_cases hl : i < l.length
  · rw [List.getElem_append_left hl]
    simpa [bytes, List.getElem?_eq_getElem hl] using hi
  · rw [List.getElem_append_right (by omega)]
    have hge : l.length + (i - l.length) = i := by omega
    simpa [bytes, List.getElem?_eq_none (by omega : l.length ≤ i), hge] using hi

theorem take_slice {m : ℕ} (h : m ≤ n) : (f.slice o n).take m = f.slice o m := by
  simp [slice, bytes, ← List.map_take, List.take_range, Nat.min_eq_left h]

/-! ### Pieces -/

/-- Put the pieces one behind the other. -/
def scatter (f : Store) (o : ℕ) : List (List UInt8) → Store
  | [] => f
  | l :: ls => scatter (f.put o l) (o + l.length) ls

/-- Take pieces of the given lengths one behind the other. -/
def gather (f : Store) (o : ℕ) : List ℕ → List (List UInt8)
  | [] => []
  | n :: ns => f.slice o n :: gather f (o + n) ns

theorem scatter_eq (o : ℕ) (ls : List (List UInt8)) : f.scatter o ls = f.put o ls.flatten := by
  induction ls generalizing f o with
  | nil => exact f.put_nil.symm
  | cons l ls ih => rw [scatter, ih, List.flatten_cons, put_append]

theorem flatten_gather (o : ℕ) (ns : List ℕ) : (f.gather o ns).flatten = f.slice o ns.sum := by
  induction ns generalizing o with
  | nil => rfl
  | cons n ns ih => rw [gather, List.flatten_cons, ih, List.sum_cons, slice_add]

/-! ### Histories -/

/-- Apply writes, each of them bytes and the address they go to. -/
def puts (ws : List (ℕ × List UInt8)) : Store := ws.foldl (fun f w => f.put w.1 w.2) f

@[simp] theorem puts_nil : f.puts [] = f := rfl

@[simp] theorem puts_cons (w : ℕ × List UInt8) (ws : List (ℕ × List UInt8)) :
    f.puts (w :: ws) = (f.put w.1 w.2).puts ws := rfl

/-- The byte that the last of the writes to address `a` put there. -/
def lastByte (ws : List (ℕ × List UInt8)) (a : ℕ) : Option UInt8 :=
  ws.foldl (fun b w => (if w.1 ≤ a then w.2[a - w.1]? else none) <|> b) none

/-- After the writes a byte is the one written last, or the old one. -/
theorem puts_apply (ws : List (ℕ × List UInt8)) (a : ℕ) :
    f.puts ws a = (lastByte ws a).getD (f a) := by
  have hgen : ∀ (b : Option UInt8) (c : UInt8), f a = b.getD c → f.puts ws a =
      (ws.foldl (fun b w => (if w.1 ≤ a then w.2[a - w.1]? else none) <|> b) b).getD c := by
    induction ws generalizing f with
    | nil => exact fun b c h => h
    | cons w ws ih =>
      intro b c h
      refine ih (f.put w.1 w.2) _ c ?_
      rw [put_apply]
      cases hd : (if w.1 ≤ a then w.2[a - w.1]? else none : Option UInt8) with
      | none => simpa [hd] using h
      | some d => simp [hd]
  exact hgen none (f a) rfl

/-- Where every action of a run writes at most once, the run writes them all. -/
theorem puts_exec {S A : Type*} {step : S → A → S} {mem : S → Store}
    {written : A → Option (ℕ × List UInt8)} {as : List A}
    (h : ∀ a ∈ as, ∀ s, mem (step s a) = (mem s).puts (written a).toList) (s : S) :
    mem (Run.exec step s as) = (mem s).puts (as.filterMap written) := by
  induction as generalizing s with
  | nil => rfl
  | cons a as ih =>
    obtain ⟨ha, has⟩ := List.forall_mem_cons.mp h
    rw [Run.exec_cons, ih has, ha]
    cases hw : written a with
    | none => simp [List.filterMap_cons_none hw]
    | some w => simp [List.filterMap_cons_some hw]

end Store

/-! ### Files of bounded size -/

/-- How much of a transfer of `len` bytes at `off` fits. -/
def fits (size off len : ℕ) : ℕ := min len (size - off)

namespace Store

variable (f : Store) (size : ℕ)

/-- Read at most `len` bytes. -/
def readAt (off len : ℕ) : List UInt8 := f.slice off (fits size off len)

/-- Write what fits of a list. -/
def writeAt (off : ℕ) (l : List UInt8) : Store := f.put off (l.take (fits size off l.length))

end Store

section Fits

variable {size off n m : ℕ}

theorem fits_add : fits size off (n + m) =
    fits size off n + fits size (off + fits size off n) m := by
  unfold fits
  omega

end Fits

namespace Store

variable (f : Store) (size : ℕ)

/-- A read may be split anywhere. -/
theorem readAt_add (off n m : ℕ) : f.readAt size off (n + m) =
    f.readAt size off n ++ f.readAt size (off + fits size off n) m := by
  unfold readAt
  rw [fits_add, slice_add]

/-- A write may be split anywhere. -/
theorem writeAt_append (off : ℕ) (l r : List UInt8) : f.writeAt size off (l ++ r) =
    (f.writeAt size off l).writeAt size (off + fits size off l.length) r := by
  have hlen : (l.take (fits size off l.length)).length = fits size off l.length := by
    rw [List.length_take]
    exact Nat.min_eq_left (Nat.min_le_left _ _)
  have htake : (l ++ r).take (fits size off (l ++ r).length) =
      l.take (fits size off l.length) ++
        r.take (fits size (off + fits size off l.length) r.length) := by
    rw [List.length_append, fits_add, List.take_append]
    rcases Nat.lt_or_ge (fits size off l.length) l.length with h | h
    · -- the first list does not fit, so nothing of the second one does
      have hr : fits size (off + fits size off l.length) r.length = 0 := by
        unfold fits at h ⊢
        omega
      rw [hr, Nat.add_zero, Nat.sub_eq_zero_of_le h.le]
    · have hl : fits size off l.length = l.length := le_antisymm (Nat.min_le_left _ _) h
      rw [hl, List.take_of_length_le (Nat.le_add_right _ _), List.take_length,
        Nat.add_sub_cancel_left]
  unfold writeAt
  rw [htake, put_append, hlen]

end Store

end Linuxpedia.Lib
