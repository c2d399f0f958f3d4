import Mathlib.Data.List.TakeWhile
import Mathlib.Data.List.Infix
import Mathlib.Data.UInt

/-! C strings as lists that end with their NUL. A function that looks at a byte behind the
NUL has no result, so a result shows that none was looked at. -/

namespace Linuxpedia.Lib

/-- The string in memory. -/
def terminated (s : List UInt8) : List UInt8 := s ++ [0]

/-- `strcmp(s, t) == 0`. -/
def strcmpEq : List UInt8 → List UInt8 → Option Bool
  | c :: s, d :: t => if c ≠ d then some false else if c = 0 then some true else strcmpEq s t
  | _, _ => none

/-- `strncmp(s, t, n) == 0`. -/
def strncmpEq : ℕ → List UInt8 → List UInt8 → Option Bool
  | 0, _, _ => some true
  | n + 1, c :: s, d :: t =>
    if c ≠ d then some false else if c = 0 then some true else strncmpEq n s t
  | _ + 1, _, _ => none

/-- `while (*s == b) s++`. -/
def skip (b : UInt8) : List UInt8 → Option (List UInt8)
  | [] => none
  | c :: s => if c = b then skip b s else some (c :: s)

variable {s t : List UInt8}

theorem strcmpEq_terminated (hs : (0 : UInt8) ∉ s) (ht : (0 : UInt8) ∉ t) :
    strcmpEq (terminated s) (terminated t) = some (decide (s = t)) := by
  induction s generalizing t with
  | nil =>
    cases t with
    | nil => rfl
    | cons d t =>
      have hd : (0 : UInt8) ≠ d := fun h => ht (h ▸ List.mem_cons_self)
      simp [terminated, strcmpEq, hd]
  | cons c s ih =>
    have hc : c ≠ 0 := fun h => hs (h ▸ List.mem_cons_self)
    cases t with
    | nil => simp [terminated, strcmpEq, hc]
    | cons d t =>
      have hi := ih (fun h => hs (List.mem_cons_of_mem c h)) (t := t)
        fun h => ht (List.mem_cons_of_mem d h)
      unfold terminated at hi ⊢
      by_cases hcd : c = d
      · subst hcd
        simp [strcmpEq, hc, hi]
      · simp [strcmpEq, hcd]

/-- A comparison of as many bytes as the second string has looks whether it is a prefix. -/
theorem strncmpEq_terminated (hs : (0 : UInt8) ∉ s) (ht : (0 : UInt8) ∉ t) :
    strncmpEq t.length (terminated s) (terminated t) = some (decide (t <+: s)) := by
  induction t generalizing s with
  | nil => simp [strncmpEq]
  | cons d t ih =>
    have hd : d ≠ 0 := fun h => ht (h ▸ List.mem_cons_self)
    cases s with
    | nil => simp [terminated, strncmpEq, hd.symm]
    | cons c s =>
      have hi := ih (fun h => hs (List.mem_cons_of_mem c h)) fun h => ht (List.mem_cons_of_mem d h)
      unfold terminated at hi ⊢
      by_cases hcd : c = d
      · subst hcd
        simp [strncmpEq, hd, hi, List.cons_prefix_cons]
      · simp [strncmpEq, hcd, List.cons_prefix_cons, Ne.symm hcd]

theorem skip_terminated {b : UInt8} (hb : b ≠ 0) (s : List UInt8) :
    skip b (terminated s) = some (terminated (s.dropWhile fun c => c = b)) := by
  induction s with
  | nil => simp [terminated, skip, hb.symm]
  | cons c s ih =>
    unfold terminated at ih ⊢
    by_cases hc : c = b <;> simp [skip, hc, ih]

/-- The string up to its terminator. -/
theorem takeWhile_terminated (hs : (0 : UInt8) ∉ s) :
    (terminated s).takeWhile (fun c => c ≠ 0) = s := by
  have hall : ∀ c ∈ s, decide (c ≠ 0) = true := by
    intro c hc
    simpa using fun h : c = 0 => hs (h ▸ hc)
  rw [terminated, List.takeWhile_append_of_pos hall]
  simp

/-- What is behind a run of one byte. -/
theorem dropWhile_eq_iff {b : UInt8} : (s.dropWhile fun c => c = b) = t ↔
    (∃ k, s = List.replicate k b ++ t) ∧ t.head? ≠ some b := by
  constructor
  · rintro rfl
    have hall : ∀ c ∈ s.takeWhile fun c => c = b, c = b := by
      intro c hc
      simpa using List.mem_takeWhile_imp hc
    refine ⟨⟨(s.takeWhile fun c => c = b).length, ?_⟩, ?_⟩
    · rw [← List.eq_replicate_of_mem hall, List.takeWhile_append_dropWhile]
    · intro h
      have hne := List.head?_dropWhile_not (fun c => decide (c = b)) s
      rw [h] at hne
      simp at hne
  · rintro ⟨⟨k, rfl⟩, hhead⟩
    have hrep : ∀ c ∈ List.replicate k b, decide (c = b) = true := by simp
    rw [List.dropWhile_append_of_pos hrep]
    cases t with
    | nil => rfl
    | cons c t =>
      have hc : c ≠ b := by simpa using hhead
      simp [hc]

end Linuxpedia.Lib
