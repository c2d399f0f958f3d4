import Linuxpedia.Lib.ByteFile
import Linuxpedia.Lib.Buffer
import Linuxpedia.Lib.Run

/-! The video RAM driver, `vdrv.c`. Reads and writes move single bytes between the user
and `VRAM_SIZE` bytes of device memory, from the file offset on. The clamp adds a signed
offset to an unsigned length in 64 bits. The state also lists the indices of the device
accesses, so that staying in range is a property of it. -/

namespace Linuxpedia.Vdrv

open Lib

def efault : ℤ := 14

/-- `VRAM_SIZE`. -/
def vramSize : ℕ := 0x20000

/-- The mapped memory and the indices accessed so far. -/
structure Vram where
  mem : Store
  accesses : List ℤ

def Vram.ioread8 (v : Vram) (k : ℤ) : Vram × UInt8 :=
  ({ v with accesses := v.accesses ++ [k] }, v.mem k.toNat)

def Vram.iowrite8 (v : Vram) (byte : UInt8) (k : ℤ) : Vram :=
  { mem := Function.update v.mem k.toNat byte, accesses := v.accesses ++ [k] }

/-- What a call leaves: the device, the bytes moved to or from the user, `*off` and the
value returned. -/
structure Result where
  vram : Vram
  bytes : List UInt8
  off : ℤ
  ret : ℤ

/-- `if (*off + len > VRAM_SIZE) len = VRAM_SIZE - *off`. -/
def clamp (off : ℤ) (len : UInt64) : UInt64 :=
  if UInt64.ofInt off + len > UInt64.ofNat vramSize then UInt64.ofInt (vramSize - off) else len

/-- The loop of `my_read` from `i` on, for `n` bytes; `copies i` is whether
`copy_to_user` of byte `i` succeeds. -/
def readLoop (copies : ℕ → Bool) (off : ℤ) : ℕ → ℕ → Vram → Vram × List UInt8 × Bool
  | 0, _, v => (v, [], true)
  | n + 1, i, v =>
    match v.ioread8 (off + asInt (UInt32.ofNat i)) with
    | (v, byte) =>
      if copies i then
        let r := readLoop copies off n (i + 1) v
        (r.1, byte :: r.2.1, r.2.2)
      else (v, [], false)

def myRead (copies : ℕ → Bool) (v : Vram) (off : ℤ) (len : UInt64) : Result :=
  if off ≥ vramSize then ⟨v, [], off, 0⟩
  else
    let len := clamp off len
    match readLoop copies off len.toNat 0 v with
    | (v, bytes, true) => ⟨v, bytes, off + len.toNat, len.toNat⟩
    | (v, bytes, false) => ⟨v, bytes, off, -efault⟩

/-- The loop of `my_write`. -/
def writeLoop (copies : ℕ → Bool) (off : ℤ) (buf : Store) : ℕ → ℕ → Vram → Vram × List UInt8 × Bool
  | 0, _, v => (v, [], true)
  | n + 1, i, v =>
    if copies i then
      let byte := buf i
      let v := v.iowrite8 byte (off + asInt (UInt32.ofNat i))
      let r := writeLoop copies off buf n (i + 1) v
      (r.1, byte :: r.2.1, r.2.2)
    else (v, [], false)

def myWrite (copies : ℕ → Bool) (v : Vram) (off : ℤ) (buf : Store) (len : UInt64) : Result :=
  if off ≥ vramSize then ⟨v, [], off, 0⟩
  else
    let len := clamp off len
    match writeLoop copies off buf len.toNat 0 v with
    | (v, bytes, true) => ⟨v, bytes, off + len.toNat, len.toNat⟩
    | (v, bytes, false) => ⟨v, bytes, off, -efault⟩

/-- A call with the offset that it starts at. -/
inductive Call where
  | read (off : ℤ) (len : UInt64)
  | write (off : ℤ) (buf : Store) (len : UInt64)

def Call.run (copies : ℕ → Bool) (v : Vram) : Call → Result
  | .read off len => myRead copies v off len
  | .write off buf len => myWrite copies v off buf len

def Call.off : Call → ℤ
  | .read off _ => off
  | .write off _ _ => off

def Call.len : Call → UInt64
  | .read _ len => len
  | .write _ _ len => len

/-- The file offset is not negative and the length is at most what the VFS lets through. -/
structure Call.Legal (c : Call) : Prop where
  pos : 0 ≤ c.off
  off_lt : c.off < 2 ^ 63
  len_le : c.len.toNat ≤ 2 ^ 31 - 4096

/-- No user copy fails. -/
def copied : ℕ → Bool := fun _ => true

def step (v : Vram) (c : Call) : Vram := (c.run copied v).vram

/-! ### The clamp -/

theorem toNat_ofInt64 {n : ℕ} (h : n < 2 ^ 64) : (UInt64.ofInt (n : ℤ)).toNat = n := by
  have hn : UInt64.ofInt (n : ℤ) = UInt64.ofNat n := by
    simp [UInt64.ofInt, UInt64.ofNat_eq_iff_mod_eq_toNat, UInt64.toNat_ofNat']
    omega
  rw [hn, UInt64.toNat_ofNat', Nat.mod_eq_of_lt h]

/-- The length is cut to what fits in front of the end; no sum wraps. -/
theorem clamp_toNat {off : ℕ} {len : UInt64} (hlt : off < vramSize)
    (hlen : len.toNat ≤ 2 ^ 31 - 4096) :
    (clamp off len).toNat = fits vramSize off len.toNat := by
  have hv : vramSize = 131072 := rfl
  have hoff : (UInt64.ofInt (off : ℤ)).toNat = off := toNat_ofInt64 (by omega)
  have hsum : (UInt64.ofInt (off : ℤ) + len).toNat = off + len.toNat := by
    rw [UInt64.toNat_add, hoff, Nat.mod_eq_of_lt (by omega)]
  have hsize : (UInt64.ofNat vramSize).toNat = vramSize := rfl
  have hrest : (UInt64.ofInt ((vramSize : ℤ) - off)).toNat = vramSize - off := by
    rw [show (vramSize : ℤ) - off = ((vramSize - off : ℕ) : ℤ) by omega, toNat_ofInt64 (by omega)]
  unfold clamp fits
  by_cases h : UInt64.ofInt (off : ℤ) + len > UInt64.ofNat vramSize
  · rw [if_pos h, hrest]
    rw [gt_iff_lt, UInt64.lt_iff_toNat_lt, hsum, hsize] at h
    omega
  · rw [if_neg h]
    rw [gt_iff_lt, UInt64.lt_iff_toNat_lt, hsum, hsize] at h
    omega

/-! ### The loops -/

/-- The indices of `n` accesses from `off + i` on. -/
def indices (off i n : ℕ) : List ℤ := (List.range n).map fun j => ((off + i + j : ℕ) : ℤ)

theorem indices_succ (off i n : ℕ) :
    indices off i (n + 1) = ((off + i : ℕ) : ℤ) :: indices off (i + 1) n := by
  unfold indices
  rw [List.range_succ_eq_map, List.map_cons, List.map_map]
  congr 1
  apply List.map_congr_left
  intro j _
  simp only [Function.comp_apply]
  congr 1
  omega

section Loops

variable {off i n : ℕ} (hi : i + n ≤ 2 ^ 31)

include hi

theorem readLoop_copied (v : Vram) : readLoop copied off n i v =
    (⟨v.mem, v.accesses ++ indices off i n⟩, v.mem.slice (off + i) n, true) := by
  induction n generalizing i v with
  | zero => simp [readLoop, indices]
  | succ n ih =>
    have hk : (off : ℤ) + asInt (UInt32.ofNat i) = ((off + i : ℕ) : ℤ) := by
      rw [asInt_ofNat (by omega)]
      omega
    have hslice : v.mem.slice (off + i) (n + 1) =
        v.mem (off + i) :: v.mem.slice (off + (i + 1)) n := by
      rw [Nat.add_comm n 1, Store.slice_add]
      rfl
    rw [readLoop, hk]
    simp only [Vram.ioread8, copied, ↓reduceIte, Int.toNat_natCast]
    rw [ih (by omega), indices_succ, hslice]
    simp

theorem writeLoop_copied (buf : Store) (v : Vram) : writeLoop copied off buf n i v =
    (⟨v.mem.put (off + i) (buf.slice i n), v.accesses ++ indices off i n⟩, buf.slice i n, true) := by
  induction n generalizing i v with
  | zero => simp [writeLoop, indices]
  | succ n ih =>
    have hk : (off : ℤ) + asInt (UInt32.ofNat i) = ((off + i : ℕ) : ℤ) := by
      rw [asInt_ofNat (by omega)]
      omega
    have hslice : buf.slice i (n + 1) = [buf i] ++ buf.slice (i + 1) n := by
      rw [Nat.add_comm n 1, Store.slice_add]
      rfl
    rw [writeLoop]
    simp only [copied, ↓reduceIte, Vram.iowrite8, hk, Int.toNat_natCast]
    rw [ih (by omega), indices_succ, hslice, Store.put_append, Store.put_singleton]
    simp [Nat.add_assoc]

end Loops

/-! ### One call -/

theorem indices_add (off n m : ℕ) :
    indices off 0 (n + m) = indices off 0 n ++ indices (off + n) 0 m := by
  unfold indices
  rw [List.range_add, List.map_append, List.map_map]
  congr 1
  apply List.map_congr_left
  intro j _
  simp only [Function.comp_apply]
  congr 1
  omega

theorem indices_lt {off len : ℕ} {k : ℤ} (hk : k ∈ indices off 0 (fits vramSize off len)) :
    0 ≤ k ∧ k < vramSize := by
  obtain ⟨j, hj, rfl⟩ := List.mem_map.mp hk
  rw [List.mem_range] at hj
  unfold fits at hj
  omega

theorem fits_of_le {off len : ℕ} (h : vramSize ≤ off) : fits vramSize off len = 0 := by
  unfold fits
  omega

section Call

variable {off : ℕ} {len : UInt64} (hlen : len.toNat ≤ 2 ^ 31 - 4096)

include hlen

/-- A read takes what fits of the bytes at the offset. -/
theorem myRead_eq (v : Vram) : myRead copied v off len =
    ⟨⟨v.mem, v.accesses ++ indices off 0 (fits vramSize off len.toNat)⟩,
      v.mem.readAt vramSize off len.toNat, off + fits vramSize off len.toNat,
      fits vramSize off len.toNat⟩ := by
  unfold myRead Store.readAt
  by_cases h : (off : ℤ) ≥ vramSize
  · rw [if_pos h, fits_of_le (Int.ofNat_le.mp h)]
    simp [indices]
  · rw [if_neg h]
    have hc : (clamp off len).toNat = fits vramSize off len.toNat := clamp_toNat (by omega) hlen
    have hi : 0 + fits vramSize off len.toNat ≤ 2 ^ 31 := by
      unfold fits
      omega
    simp only [hc, readLoop_copied hi]
    rfl

/-- A write puts what fits of the bytes at the offset. -/
theorem myWrite_eq (v : Vram) (buf : Store) : myWrite copied v off buf len =
    ⟨⟨v.mem.writeAt vramSize off (buf.slice 0 len.toNat),
        v.accesses ++ indices off 0 (fits vramSize off len.toNat)⟩,
      buf.slice 0 (fits vramSize off len.toNat), off + fits vramSize off len.toNat,
      fits vramSize off len.toNat⟩ := by
  have htake : (buf.slice 0 len.toNat).take (fits vramSize off len.toNat) =
      buf.slice 0 (fits vramSize off len.toNat) := Store.take_slice _ (Nat.min_le_left _ _)
  unfold myWrite Store.writeAt
  rw [Store.length_slice, htake]
  by_cases h : (off : ℤ) ≥ vramSize
  · rw [if_pos h, fits_of_le (Int.ofNat_le.mp h)]
    simp [indices]
  · rw [if_neg h]
    have hc : (clamp off len).toNat = fits vramSize off len.toNat := clamp_toNat (by omega) hlen
    have hi : 0 + fits vramSize off len.toNat ≤ 2 ^ 31 := by
      unfold fits
      omega
    simp only [hc, writeLoop_copied hi]
    rfl

end Call

/-! ### Call sequences -/

/-- What a write puts on the device and where. -/
def Call.written : Call → Option (ℕ × List UInt8)
  | .read _ _ => none
  | .write off buf len => some (off.toNat, buf.slice 0 (fits vramSize off.toNat len.toNat))

/-- The number of bytes that a call transfers. -/
def Call.count (c : Call) : ℕ := fits vramSize c.off.toNat c.len.toNat

/-- What a legal call does to the device. -/
theorem step_eq {c : Call} (hc : c.Legal) (v : Vram) : step v c =
    ⟨v.mem.puts c.written.toList, v.accesses ++ indices c.off.toNat 0 c.count⟩ := by
  cases c with
  | read off len =>
    obtain ⟨n, rfl⟩ := Int.eq_ofNat_of_zero_le hc.pos
    exact congrArg Result.vram (myRead_eq hc.len_le v)
  | write off buf len =>
    obtain ⟨n, rfl⟩ := Int.eq_ofNat_of_zero_le hc.pos
    have htake : (buf.slice 0 len.toNat).take (fits vramSize n len.toNat) =
        buf.slice 0 (fits vramSize n len.toNat) := Store.take_slice _ (Nat.min_le_left _ _)
    refine (congrArg Result.vram (myWrite_eq hc.len_le v buf)).trans ?_
    simp [Call.written, Call.count, Call.off, Call.len, Store.writeAt, htake]

/-- What a legal call transfers, returns and leaves in `*off`. -/
theorem run_count {c : Call} (hc : c.Legal) (v : Vram) : (c.run copied v).bytes.length = c.count ∧
    (c.run copied v).ret = c.count ∧ (c.run copied v).off = c.off + c.count := by
  cases c with
  | read off len =>
    obtain ⟨n, rfl⟩ := Int.eq_ofNat_of_zero_le hc.pos
    have hr : (Call.read n len).run copied v = _ := myRead_eq hc.len_le v
    rw [hr]
    exact ⟨Store.length_slice _, rfl, rfl⟩
  | write off buf len =>
    obtain ⟨n, rfl⟩ := Int.eq_ofNat_of_zero_le hc.pos
    have hw : (Call.write n buf len).run copied v = _ := myWrite_eq hc.len_le v buf
    rw [hw]
    exact ⟨Store.length_slice _, rfl, rfl⟩

/-- The memory after a run of legal calls is that of the writes in it. -/
theorem mem_exec {v : Vram} {cs : List Call} (h : ∀ c ∈ cs, c.Legal) :
    (Run.exec step v cs).mem = v.mem.puts (cs.filterMap Call.written) :=
  Store.puts_exec (fun c hc v => congrArg Vram.mem (step_eq (h c hc) v)) v

/-- Every access so far is inside the device memory. -/
def Vram.InRange (v : Vram) : Prop := ∀ k ∈ v.accesses, 0 ≤ k ∧ k < vramSize

theorem inRange_step {v : Vram} {c : Call} (hv : v.InRange) (hc : c.Legal) :
    (step v c).InRange := by
  intro k hk
  rw [step_eq hc] at hk
  rcases List.mem_append.mp hk with hk | hk
  · exact hv k hk
  · exact indices_lt hk

/-! ### Sequential transfers in pieces -/

/-- Reads of the given lengths, each of them from the offset that the one before left. -/
def readPieces (v : Vram) (off : ℤ) : List UInt64 → Vram × List UInt8 × ℤ
  | [] => (v, [], off)
  | len :: lens =>
    let r := myRead copied v off len
    let rest := readPieces r.vram r.off lens
    (rest.1, r.bytes ++ rest.2.1, rest.2.2)

/-- Writes of the given lengths from a buffer, one behind the other. -/
def writePieces (v : Vram) (off : ℤ) (buf : Store) : List UInt64 → Vram × List UInt8 × ℤ
  | [] => (v, [], off)
  | len :: lens =>
    let r := myWrite copied v off buf len
    let rest := writePieces r.vram r.off (buf.window len.toNat) lens
    (rest.1, r.bytes ++ rest.2.1, rest.2.2)

/-- The length of the pieces together. -/
def total (lens : List UInt64) : ℕ := (lens.map UInt64.toNat).sum

theorem total_cons (len : UInt64) (lens : List UInt64) :
    total (len :: lens) = len.toNat + total lens := rfl

theorem toNat_total {lens : List UInt64} (h : total lens ≤ 2 ^ 31 - 4096) :
    (UInt64.ofNat (total lens)).toNat = total lens := by
  rw [UInt64.toNat_ofNat', Nat.mod_eq_of_lt (by omega)]

/-- Reads in pieces are one read. -/
theorem readPieces_eq (v : Vram) (off : ℕ) {lens : List UInt64}
    (h : total lens ≤ 2 ^ 31 - 4096) : readPieces v off lens =
      let r := myRead copied v off (UInt64.ofNat (total lens))
      (r.vram, r.bytes, r.off) := by
  rw [myRead_eq (by rw [toNat_total h]; exact h), toNat_total h]
  induction lens generalizing v off with
  | nil => simp [readPieces, total, fits, indices, Store.readAt]
  | cons len lens ih =>
    rw [total_cons] at h ⊢
    have hoff : (off : ℤ) + fits vramSize off len.toNat =
      ((off + fits vramSize off len.toNat : ℕ) : ℤ) := by push_cast; rfl
    simp only [readPieces]
    rw [myRead_eq (by omega)]
    simp only [hoff]
    rw [ih _ _ (by omega), Store.readAt_add, fits_add, indices_add]
    simp [Int.add_assoc]

/-- What two pieces transfer from a buffer lies in one piece: behind a first piece that does
not fit nothing fits. -/
theorem slice_fits (buf : Store) (off n m : ℕ) :
    buf.slice 0 (fits vramSize off n) ++
        buf.slice n (fits vramSize (off + fits vramSize off n) m) =
      buf.slice 0 (fits vramSize off n + fits vramSize (off + fits vramSize off n) m) := by
  rcases Nat.lt_or_ge (fits vramSize off n) n with h | h
  · have hm : fits vramSize (off + fits vramSize off n) m = 0 := by
      unfold fits at h ⊢
      omega
    rw [hm]
    simp
  · have hn : fits vramSize off n = n := le_antisymm (Nat.min_le_left _ _) h
    rw [hn, Store.slice_add, Nat.zero_add]

/-- Writes in pieces are one write. -/
theorem writePieces_eq (v : Vram) (off : ℕ) (buf : Store) {lens : List UInt64}
    (h : total lens ≤ 2 ^ 31 - 4096) : writePieces v off buf lens =
      let r := myWrite copied v off buf (UInt64.ofNat (total lens))
      (r.vram, r.bytes, r.off) := by
  rw [myWrite_eq (by rw [toNat_total h]; exact h), toNat_total h]
  induction lens generalizing v off buf with
  | nil => simp [writePieces, total, fits, indices, Store.writeAt]
  | cons len lens ih =>
    rw [total_cons] at h ⊢
    have hoff : (off : ℤ) + fits vramSize off len.toNat =
      ((off + fits vramSize off len.toNat : ℕ) : ℤ) := by push_cast; rfl
    simp only [writePieces]
    rw [myWrite_eq (by omega)]
    simp only [hoff]
    rw [ih _ _ _ (by omega), Store.slice_add, Store.writeAt_append, fits_add, indices_add]
    simp [Int.add_assoc, Store.window_slice, slice_fits]

/-! ### The byte file -/

/-- What a read takes is, byte by byte, what the writes before it put there last. -/
theorem read_lastByte {mem : Store} {cs : List Call} (h : ∀ c ∈ cs, c.Legal) {off : ℤ}
    {len : UInt64} (hc : (Call.read off len).Legal) :
    (myRead copied (Run.exec step ⟨mem, []⟩ cs) off len).bytes =
      (List.range (Call.read off len).count).map fun i =>
        (Store.lastByte (cs.filterMap Call.written) (off.toNat + i)).getD (mem (off.toNat + i)) := by
  obtain ⟨n, rfl⟩ := Int.eq_ofNat_of_zero_le hc.pos
  have hlen : len.toNat ≤ 2 ^ 31 - 4096 := hc.len_le
  rw [myRead_eq hlen, mem_exec h]
  apply List.map_congr_left
  intro i _
  exact Store.puts_apply mem _ (n + i)

/-- The video RAM is a byte file of `vramSize` bytes. In a sequence of legal calls every
access is in range, every call transfers what fits, returns its number and advances the
offset by it, every read returns the bytes written last, and from the state that the
sequence leaves, a sequential transfer in pieces is one transfer. -/
theorem vram_byteFile (mem : Store) {cs : List Call} (h : ∀ c ∈ cs, c.Legal) :
    (Run.exec step ⟨mem, []⟩ cs).InRange ∧
    Run.Along step (fun v c => (c.run copied v).bytes.length = c.count ∧
      (c.run copied v).ret = c.count ∧ (c.run copied v).off = c.off + c.count) ⟨mem, []⟩ cs ∧
    (∀ pre post off len, cs = pre ++ .read off len :: post →
      (myRead copied (Run.exec step ⟨mem, []⟩ pre) off len).bytes =
        (List.range (Call.read off len).count).map fun i =>
          (Store.lastByte (pre.filterMap Call.written) (off.toNat + i)).getD
            (mem (off.toNat + i))) ∧
    ∀ (off : ℕ) (lens : List UInt64), total lens ≤ 2 ^ 31 - 4096 →
      (readPieces (Run.exec step ⟨mem, []⟩ cs) off lens =
        let r := myRead copied (Run.exec step ⟨mem, []⟩ cs) off (UInt64.ofNat (total lens))
        (r.vram, r.bytes, r.off)) ∧
      ∀ buf, writePieces (Run.exec step ⟨mem, []⟩ cs) off buf lens =
        let r := myWrite copied (Run.exec step ⟨mem, []⟩ cs) off buf (UInt64.ofNat (total lens))
        (r.vram, r.bytes, r.off) := by
  have hinit : Vram.InRange ⟨mem, []⟩ := by simp [Vram.InRange]
  have hstep : ∀ v c, v.InRange → c.Legal → (step v c).InRange := fun v c => inRange_step
  refine ⟨?_, ?_, ?_, fun off lens hlens => ?_⟩
  · exact Run.exec_inv hstep hinit (Run.along_of_mem _ h)
  · exact Run.along_of_inv hstep (fun v c _ hc => run_count hc v) hinit (Run.along_of_mem _ h)
  · rintro pre post off len rfl
    have hpre : ∀ c ∈ pre, c.Legal := fun c hc => h c (List.mem_append_left _ hc)
    exact read_lastByte hpre (h _ (by simp))
  · exact ⟨readPieces_eq _ off hlens, fun buf => writePieces_eq _ off buf hlens⟩

/-- A write over the end of the memory and a read over it. -/
def sampleCalls : List Call := [.write 0x1fffe (fun _ => 7) 4, .read 0x1fffc 8]

theorem vram_byteFile_sample :
    (myRead copied (Run.exec step ⟨fun _ => 0, []⟩ [.write 0x1fffe (fun _ => 7) 4]) 0x1fffc 8).bytes =
      [0, 0, 7, 7] := by
  have hlegal : ∀ c ∈ sampleCalls, c.Legal := by
    simp only [sampleCalls, List.forall_mem_cons]
    exact ⟨⟨by decide, by decide, by decide⟩, ⟨by decide, by decide, by decide⟩, by simp⟩
  obtain ⟨_, _, hread, _⟩ := vram_byteFile (fun _ => 0) hlegal
  exact (hread [.write 0x1fffe (fun _ => 7) 4] [] 0x1fffc 8 rfl).trans (by decide +kernel)

end Linuxpedia.Vdrv
