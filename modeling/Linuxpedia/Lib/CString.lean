import Linuxpedia.Lib.Bytes
import Mathlib.Data.List.GetD
import Mathlib.Data.List.TakeWhile

/-! C strings in a byte store: the bytes before the first NUL. Two such strings
compare equal under `strcmp` exactly when these lists are equal. -/

namespace Linuxpedia.Lib.Store

/-- The C string at the start of an object of `n` bytes. -/
def cstr (f : Store) (n : ℕ) : List UInt8 := (f.bytes n).takeWhile (· != 0)

variable {f : Store} {n : ℕ}

theorem cstr_congr {g : Store} (h : ∀ i < n, f i = g i) : f.cstr n = g.cstr n := by
  rw [cstr, bytes_congr h, cstr]

theorem takeWhile_range' (f : Store) (i m n : ℕ) (hm : m < n) (hne : ∀ j < m, f (i + j) ≠ 0)
    (h0 : f (i + m) = 0) :
    ((List.range' i n).map f).takeWhile (· != 0) = (List.range' i m).map f := by
  induction m generalizing i n with
  | zero =>
    obtain ⟨n, rfl⟩ := Nat.exists_eq_succ_of_ne_zero (by omega : n ≠ 0)
    simp only [add_zero] at h0
    simp [List.range'_succ, h0]
  | succ m ih =>
    obtain ⟨n, rfl⟩ := Nat.exists_eq_succ_of_ne_zero (by omega : n ≠ 0)
    have hi : f i ≠ 0 := by simpa using hne 0 (by omega)
    have ht := ih (i + 1) n (by omega)
      (fun j hj => by have := hne (j + 1) (by omega); rwa [show i + 1 + j = i + (j + 1) by omega])
      (by rwa [show i + 1 + m = i + (m + 1) by omega])
    simp [List.range'_succ, hi, ht]

/-- The string ends at the first NUL. -/
theorem cstr_eq {m : ℕ} (hm : m < n) (hne : ∀ j < m, f j ≠ 0) (h0 : f m = 0) :
    f.cstr n = f.bytes m := by
  have h := takeWhile_range' f 0 m n hm (by simpa using hne) (by simpa using h0)
  simpa [cstr, bytes, List.range_eq_range'] using h

/-- Bytes after a NUL do not matter. -/
theorem cstr_take {m : ℕ} (hm : m < n) (h0 : f m = 0) : f.cstr n = f.cstr (m + 1) := by
  obtain ⟨l, rfl⟩ := Nat.exists_eq_add_of_le (Nat.succ_le_of_lt hm)
  unfold cstr bytes
  rw [List.range_add, List.map_append, List.takeWhile_append, if_neg]
  intro hlen
  have hall := (List.takeWhile_prefix (l := (List.range m.succ).map f) (· != 0)).eq_of_length hlen
  have hmem : f m ∈ (List.range m.succ).map f := List.mem_map_of_mem (by simp)
  rw [← hall] at hmem
  have hne := List.mem_takeWhile_imp hmem
  simp [h0] at hne

/-- A list without NUL stored with a NUL after it is read back. -/
theorem cstr_of_list {s : List UInt8} (hs : (0 : UInt8) ∉ s) (hn : s.length < n)
    (hf : ∀ j ≤ s.length, f j = s.getD j 0) : f.cstr n = s := by
  rw [cstr_eq hn ?_ (by rw [hf _ le_rfl]; simp)]
  · apply List.ext_getElem (by simp)
    intro i h1 h2
    simp only [bytes, List.getElem_map, List.getElem_range]
    rw [hf i h2.le, List.getD_eq_getElem _ _ h2]
  · intro j hj
    rw [hf j hj.le, List.getD_eq_getElem _ _ hj]
    exact fun h => hs (h ▸ List.getElem_mem hj)

/-- Without a NUL the string fills the object. -/
theorem cstr_eq_bytes (hne : ∀ j < n, f j ≠ 0) : f.cstr n = f.bytes n := by
  refine List.takeWhile_eq_self_iff.mpr fun b hb => ?_
  obtain ⟨j, hj, rfl⟩ := List.mem_map.mp hb
  simpa using hne j (List.mem_range.mp hj)

theorem bytes_succ (f : Store) (n : ℕ) : f.bytes (n + 1) = f 0 :: (f.window 1).bytes n := by
  rw [Nat.add_comm n 1, bytes_add]
  rfl

theorem cstr_succ (f : Store) (n : ℕ) :
    f.cstr (n + 1) = if f 0 = 0 then [] else f 0 :: (f.window 1).cstr n := by
  unfold cstr
  rw [bytes_succ, List.takeWhile_cons]
  by_cases h : f 0 = 0 <;> simp [h]

/-- Where a list without NUL is stored it is the string exactly when a NUL follows. -/
theorem cstr_eq_iff {l : List UInt8} (hl : (0 : UInt8) ∉ l) (hn : l.length < n)
    (hf : f.bytes l.length = l) : f.cstr n = l ↔ f l.length = 0 := by
  induction l generalizing f n with
  | nil =>
    obtain ⟨n, rfl⟩ := Nat.exists_eq_succ_of_ne_zero hn.ne'
    rw [Nat.succ_eq_add_one, cstr_succ]
    by_cases h : f 0 = 0 <;> simp [h]
  | cons b l ih =>
    obtain ⟨n, rfl⟩ := Nat.exists_eq_succ_of_ne_zero (Nat.ne_of_gt (Nat.zero_lt_of_lt hn))
    rw [List.length_cons, bytes_succ] at hf
    obtain ⟨rfl, ht⟩ := List.cons.inj hf
    obtain ⟨h0, hl⟩ := not_or.mp (List.mem_cons.not.mp hl)
    have hi := ih hl (Nat.lt_of_succ_lt_succ hn) ht
    rw [window_apply, Nat.add_comm] at hi
    rw [Nat.succ_eq_add_one, cstr_succ, if_neg (Ne.symm h0), List.cons.injEq, hi]
    simp

/-- The string is empty exactly when its first byte is NUL. -/
theorem cstr_eq_nil (hn : 0 < n) : f.cstr n = [] ↔ f 0 = 0 := by
  obtain ⟨n, rfl⟩ := Nat.exists_eq_succ_of_ne_zero hn.ne'
  simp [cstr, bytes, List.range_succ_eq_map, List.takeWhile_cons]

theorem window_zero (f : Store) : f.window 0 = f :=
  funext fun i => by rw [window_apply, Nat.zero_add]

theorem window_window (f : Store) (a b : ℕ) : (f.window a).window b = f.window (a + b) :=
  funext fun i => by rw [window_apply, window_apply, window_apply, Nat.add_assoc]

/-- Cut in front of its end, a string is the first bytes of it. -/
theorem cstr_eq_take {j m : ℕ} (h0 : f j = 0) (hj : j < m) (n : ℕ) :
    f.cstr n = (f.cstr m).take n := by
  induction n generalizing f j m with
  | zero => rfl
  | succ n ih =>
    obtain ⟨m, rfl⟩ := Nat.exists_eq_succ_of_ne_zero (Nat.ne_of_gt (Nat.zero_lt_of_lt hj))
    rw [Nat.succ_eq_add_one, cstr_succ, cstr_succ]
    split_ifs with h
    · rfl
    · obtain ⟨j, rfl⟩ := Nat.exists_eq_succ_of_ne_zero fun hz => h (hz ▸ h0)
      have hnext : f.window 1 j = 0 := by rw [window_apply, Nat.add_comm]; exact h0
      rw [List.take_succ_cons, ih hnext (Nat.lt_of_succ_lt_succ hj)]

/-- Behind the first `n` bytes of a string lies the rest of it. -/
theorem cstr_window {j m : ℕ} (h0 : f j = 0) (hj : j < m) (n : ℕ) :
    (f.cstr n).length ≤ j ∧
    (f.window (f.cstr n).length).cstr (m - (f.cstr n).length) = (f.cstr m).drop n := by
  induction n generalizing f j m with
  | zero => exact ⟨Nat.zero_le j, congrArg (fun g : Store => g.cstr m) f.window_zero⟩
  | succ n ih =>
    obtain ⟨m, rfl⟩ := Nat.exists_eq_succ_of_ne_zero (Nat.ne_of_gt (Nat.zero_lt_of_lt hj))
    rw [Nat.succ_eq_add_one, cstr_succ, cstr_succ]
    by_cases h : f 0 = 0
    · rw [if_pos h, if_pos h, List.length_nil, window_zero, Nat.sub_zero, cstr_succ, if_pos h]
      exact ⟨Nat.zero_le j, rfl⟩
    · obtain ⟨j, rfl⟩ := Nat.exists_eq_succ_of_ne_zero fun hz => h (hz ▸ h0)
      have hnext : f.window 1 j = 0 := by rw [window_apply, Nat.add_comm]; exact h0
      obtain ⟨hle, hrest⟩ := ih hnext (Nat.lt_of_succ_lt_succ hj)
      rw [window_window, Nat.add_comm 1] at hrest
      rw [if_neg h, if_neg h, List.length_cons, List.drop_succ_cons, Nat.add_sub_add_right]
      exact ⟨Nat.succ_le_succ hle, hrest⟩

/-- A string lies where it is read and ends with a NUL. -/
theorem cstr_spec {j : ℕ} (h0 : f j = 0) (hj : j < n) :
    (0 : UInt8) ∉ f.cstr n ∧ (f.cstr n).length ≤ j ∧ f.bytes (f.cstr n).length = f.cstr n ∧
      f (f.cstr n).length = 0 := by
  induction n generalizing f j with
  | zero => exact absurd hj (Nat.not_lt_zero j)
  | succ n ih =>
    rw [cstr_succ]
    by_cases h : f 0 = 0
    · rw [if_pos h]
      exact ⟨List.not_mem_nil, Nat.zero_le j, rfl, h⟩
    · obtain ⟨j, rfl⟩ := Nat.exists_eq_succ_of_ne_zero fun hz => h (hz ▸ h0)
      have hnext : f.window 1 j = 0 := by rw [window_apply, Nat.add_comm]; exact h0
      obtain ⟨hnul, hle, hbytes, hend⟩ := ih hnext (Nat.lt_of_succ_lt_succ hj)
      rw [window_apply, Nat.add_comm] at hend
      rw [if_neg h, List.length_cons, bytes_succ, hbytes]
      exact ⟨List.not_mem_cons_of_ne_of_not_mem (Ne.symm h) hnul, Nat.succ_le_succ hle, rfl, hend⟩

end Linuxpedia.Lib.Store
