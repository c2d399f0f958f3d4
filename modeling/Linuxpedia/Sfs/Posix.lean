import Linuxpedia.Sfs.Format
import Linuxpedia.Lib.Buffer

/-! The system calls of the browsing shells. Offsets are computed as unsigned
words, so what `lseek` makes of one depends on the width of `off_t`; a seek to a
negative offset is refused and leaves the file offset where it is. Standard input
arrives in pieces. -/

namespace Linuxpedia.Sfs

open Lib

/-- The width of `off_t`. -/
inductive OffT where
  | bits32
  | bits64
  deriving DecidableEq

/-- An unsigned word passed as an `off_t`. -/
def OffT.ofUnsigned : OffT → UInt32 → ℤ
  | .bits32, w => asInt w
  | .bits64, w => w.toNat

theorem OffT.ofUnsigned_of_lt (o : OffT) {w : UInt32} (h : w.toNat < 2 ^ 31) :
    o.ofUnsigned w = w.toNat := by
  cases o with
  | bits32 => exact asInt_of_lt h
  | bits64 => rfl

namespace Handle

variable (o : OffT) (h : Handle)

/-- `lseek(handle, off, SEEK_SET)`. -/
def seekSet (off : UInt32) : Handle :=
  if 0 ≤ o.ofUnsigned off then { h with pos := (o.ofUnsigned off).toNat } else h

/-- `lseek(handle, off, SEEK_CUR)`. -/
def seekCur (off : UInt32) : Handle :=
  if 0 ≤ (h.pos : ℤ) + o.ofUnsigned off then
    { h with pos := ((h.pos : ℤ) + o.ofUnsigned off).toNat } else h

/-- `read(handle, buf, n)` inside the device. -/
def read (n : ℕ) : Handle × Store := ({ h with pos := h.pos + n }, h.dev.window h.pos)

/-- `read(handle, &fe, sizeof(sfs_file_entry_t))`. -/
def readEntry : Handle × SfsFileEntry := ((h.read 64).1, .ofBytes (h.read 64).2)

/-- `write(handle, &fe, sizeof(sfs_file_entry_t))`. -/
def writeEntry (fe : SfsFileEntry) : Handle := h.write fe.toBytes 64

variable {h}

@[simp] theorem seekSet_dev (off : UInt32) : (h.seekSet o off).dev = h.dev := by
  unfold seekSet
  split_ifs <;> rfl

@[simp] theorem seekCur_dev (off : UInt32) : (h.seekCur o off).dev = h.dev := by
  unfold seekCur
  split_ifs <;> rfl

/-- A seek below `2 ^ 31` arrives, whatever the width of `off_t`. -/
theorem seekSet_of_lt {off : UInt32} (hoff : off.toNat < 2 ^ 31) :
    h.seekSet o off = ⟨h.dev, off.toNat⟩ := by
  unfold seekSet
  rw [o.ofUnsigned_of_lt hoff, if_pos (by omega), Int.toNat_natCast]

/-- `lseek(handle, -sb.entry_size, SEEK_CUR)` goes back one entry where `off_t` has
32 bits. -/
theorem seekCur_back (dev : Store) (p : ℕ) :
    Handle.seekCur .bits32 ⟨dev, p + 64⟩ (-64) = ⟨dev, p⟩ := by
  have hw : OffT.ofUnsigned .bits32 (-64) = -64 := rfl
  have hp : ((p + 64 : ℕ) : ℤ) + -64 = p := by omega
  unfold seekCur
  rw [hw, hp, if_pos (by omega), Int.toNat_natCast]

end Handle

/-- Standard input as the pieces that arrive; a call of `read` takes bytes of the
first one only. An empty piece, or none, is the end of the file. -/
abbrev Stdin := List (List UInt8)

/-- `read(0, block + off, n)`: the block, the number of bytes read and what is left. -/
def readStdin (block : Store) (off n : ℕ) : Stdin → Store × ℕ × Stdin
  | [] => (block, 0, [])
  | c :: cs => (block.blit off (min n c.length) fun i => c.getD i 0, min n c.length,
      if c.length ≤ n then cs else c.drop n :: cs)

/-- The bytes before the end of the file. -/
def Stdin.input (stdin : Stdin) : List UInt8 := (stdin.takeWhile (· ≠ [])).flatten

section Stdin

variable (block : Store) (off : ℕ) {n : ℕ} {stdin : Stdin}

/-- At the end of the file nothing is read. -/
theorem readStdin_eof (n : ℕ) (h : stdin.input = []) : ∃ block' rest,
    readStdin block off n stdin = (block', 0, rest) ∧ block'.bytes off = block.bytes off := by
  cases stdin with
  | nil => exact ⟨block, [], rfl, rfl⟩
  | cons c cs =>
    have hc : c = [] := by
      by_contra hne
      simp [Stdin.input, hne] at h
    subst hc
    refine ⟨block.blit off 0 fun i => [].getD i 0, cs, ?_, ?_⟩
    · simp [readStdin]
    · rw [Store.blit_zero]

/-- Before it at least one byte and at most `n` are read. -/
theorem readStdin_some (hn : 0 < n) (h : stdin.input ≠ []) : ∃ block' got rest,
    readStdin block off n stdin = (block', got, rest) ∧ 0 < got ∧ got ≤ n ∧
      block'.bytes (off + got) = block.bytes off ++ stdin.input.take got ∧
      rest.input = stdin.input.drop got ∧ rest.flatten.length < stdin.flatten.length := by
  cases stdin with
  | nil => exact absurd rfl h
  | cons c cs =>
    have hc : c ≠ [] := by
      rintro rfl
      exact h rfl
    have hlen := List.length_pos_iff.mpr hc
    have hinput : Stdin.input (c :: cs) = c ++ Stdin.input cs := by simp [Stdin.input, hc]
    refine ⟨_, min n c.length, _, rfl, by omega, by omega, ?_, ?_, ?_⟩
    · rw [Store.bytes_add]
      congr 1
      · exact Store.bytes_congr fun i hi => Store.blit_outside _ _ (Or.inl hi)
      · rw [hinput, List.take_append_of_le_length (Nat.min_le_right _ _)]
        exact Store.bytes_of_list _ (fun i hi => Store.window_blit_self _ _ hi)
          (Nat.min_le_right _ _)
    · rw [hinput]
      split_ifs with hle
      · rw [Nat.min_eq_right hle, List.drop_left]
      · have hne : c.drop n ≠ [] := by
          intro hnil
          have hdrop := congrArg List.length hnil
          simp only [List.length_drop, List.length_nil] at hdrop
          omega
        rw [Nat.min_eq_left (by omega), List.drop_append_of_le_length (by omega)]
        simp [Stdin.input, hne]
    · split_ifs with hle
      · simp only [List.flatten_cons, List.length_append]
        omega
      · simp only [List.flatten_cons, List.length_append, List.length_drop]
        omega

end Stdin

end Linuxpedia.Sfs
