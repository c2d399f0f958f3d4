import Linuxpedia.RealFs.Blind

/-! Where the data of a file go on a 64-bit system. `b * sb.block_size` is an unsigned
word, so it is the address of block `b` below `2 ^ 23` blocks and wraps from there on:
block `2 ^ 23` is written over the super block. A partition of at most `2 ^ 23` blocks has
no such block, and on one of them `sfs_write` stays inside the data area. -/

namespace Linuxpedia.RealFs

open Lib Sfs

/-- The offset that `sfs_write` and `sfs_read` pass to `lseek` for block `b`. -/
def blockOffset (sb : SfsSuperBlock) (b : ℤ) : ℤ :=
  OffT.ofUnsigned .bits64 (UInt32.ofInt b * sb.blockSize)

/-- The state of a shell on a formatted partition, with any allocation table. -/
structure Shell.Formatted (s : Shell) (bytes : ℕ) : Prop where
  sb : s.sb = formatSb bytes
  size : s.usedBlocks.size = (formatSb bytes).partitionSize.toNat

/-- The block that `get_data_block` returns is addressed exactly. -/
def Shell.AddressesExactly (s : Shell) : Prop :=
  (getDataBlock s).2 ≠ -1 → blockOffset s.sb (getDataBlock s).2 = 512 * (getDataBlock s).2

/-- `sfs_write` of what is typed, from the loop on up to the entry. -/
def Shell.writeData (s : Shell) (fe : SfsFileEntry) (stdin : Stdin) : Shell :=
  let r := sfsWriteLoop .bits64 (stdin.flatten.length + 1) s
    ⟨stdin, fe, 0, 0, s.sb.blockSize.toNat, 0, 0⟩
  (writePartial .bits64 r.1 r.2).1

/-- The data written lie in the data area. -/
def Shell.WritesInside (s : Shell) : Prop := ∀ fe stdin a,
  a < 512 * s.sb.dataBlockStart.toNat ∨ 512 * s.sb.partitionSize.toNat ≤ a →
    (s.writeData fe stdin).dev a = s.dev a

/-- Two blocks returned by `get_data_block` have no byte of the device in common. -/
def Shell.Apart (s t : Shell) : Prop :=
  (getDataBlock s).2 ≠ -1 → (getDataBlock t).2 ≠ -1 → (getDataBlock s).2 ≠ (getDataBlock t).2 →
    blockOffset s.sb (getDataBlock s).2 + 512 ≤ blockOffset t.sb (getDataBlock t).2 ∨
      blockOffset t.sb (getDataBlock t).2 + 512 ≤ blockOffset s.sb (getDataBlock s).2

/-- Some free data block lies below `2 ^ 23`, or there is none at all. -/
def Shell.LowFree (s : Shell) : Prop :=
  (∃ b ∈ s.free, b < 2 ^ 23) ∨ s.free = []

variable {s : Shell} {bytes : ℕ}

/-! ### The scan -/

namespace Shell.Formatted

variable (h : s.Formatted bytes)

include h

/-- What `get_data_block` does, also on a partition without a block. -/
theorem getDataBlock_free (hP : (formatSb bytes).partitionSize.toNat < 2 ^ 31) : getDataBlock s = match s.free with
    | [] => (s, -1)
    | b :: _ => (s.withUsed (s.usedBlocks.take b), b) := by
  have hd := formatSb_dataBlockStart bytes
  have hsize := h.size
  by_cases h0 : (formatSb bytes).partitionSize.toNat = 0
  · have hn : s.sb.partitionSize.toNat - s.sb.dataBlockStart.toNat = 0 := by
      rw [h.sb]
      omega
    have hf : s.free = [] := by
      rw [Shell.free, Buffer.free, show s.usedBlocks.size - s.sb.dataBlockStart.toNat = 0 by omega]
      rfl
    rw [getDataBlock, hn, hf]
    rfl
  · have hg : Geometry (formatSb bytes) :=
      formatSb_geometry (fun hz => h0 (by rw [hz]; rfl)) hP
    exact getDataBlock_eq ⟨h.sb ▸ hg, by rw [hsize, h.sb]⟩

/-- A free block is a data block of the partition. -/
theorem mem_free {b : ℕ} (hb : b ∈ s.free) : s.sb.dataBlockStart.toNat ≤ b ∧
    b < s.sb.partitionSize.toNat := by
  obtain ⟨h1, h2, _⟩ := (Buffer.mem_free _).mp hb
  rw [h.size] at h2
  exact ⟨h1, by rw [h.sb]; exact h2⟩

end Shell.Formatted

/-- The free blocks come in ascending order. -/
theorem free_head_le {b c : ℕ} {bs : List ℕ} (h : s.free = b :: bs) (hc : c ∈ s.free) : b ≤ c := by
  have hsorted : s.free.Pairwise (· < ·) := by
    unfold Shell.free Buffer.free
    exact List.Pairwise.filter _ (List.pairwise_lt_range' _)
  rw [h] at hsorted hc
  rcases List.mem_cons.mp hc with rfl | hmem
  · exact le_rfl
  · exact ((List.pairwise_cons.mp hsorted).1 c hmem).le

/-- The product is exact below `2 ^ 23` and wraps from there on. -/
theorem blockOffset_natCast (hb : s.sb = formatSb bytes) {b : ℕ} (hlt : b < 2 ^ 31) :
    blockOffset s.sb b = (512 * b % 2 ^ 32 : ℕ) := by
  have hs : s.sb.blockSize = 512 := by
    rw [hb]
    rfl
  change ((UInt32.ofInt b * s.sb.blockSize).toNat : ℤ) = _
  rw [hs, UInt32.toNat_mul, toNat_ofInt_natCast (by omega)]
  change ((b * 512 % 2 ^ 32 : ℕ) : ℤ) = _
  rw [Nat.mul_comm]

theorem blockOffset_exact_iff (hb : s.sb = formatSb bytes) {b : ℕ} (hlt : b < 2 ^ 31) :
    blockOffset s.sb b = 512 * b ↔ b < 2 ^ 23 := by
  rw [blockOffset_natCast hb hlt]
  omega

/-! ### `sfs_write` -/

theorem seekSet_wide (h : Handle) (off : UInt32) : h.seekSet .bits64 off = ⟨h.dev, off.toNat⟩ := by
  have hpos : 0 ≤ OffT.ofUnsigned .bits64 off := Int.natCast_nonneg _
  unfold Handle.seekSet
  rw [if_pos hpos]
  rfl

/-- Outside the data area. -/
def Outside (bytes a : ℕ) : Prop := a < 512 * (formatSb bytes).dataBlockStart.toNat ∨
  512 * (formatSb bytes).partitionSize.toNat ≤ a

section Small

variable (hP : (formatSb bytes).partitionSize.toNat ≤ 2 ^ 23)

include hP

/-- A write of at most a block to a data block stays in the data area. -/
theorem writeBlock_outside (hs : s.sb = formatSb bytes) {b n a : ℕ}
    (hlo : (formatSb bytes).dataBlockStart.toNat ≤ b)
    (hhi : b < (formatSb bytes).partitionSize.toNat) (hn : n ≤ 512) (ha : Outside bytes a) :
    ((s.seekSet .bits64 (UInt32.ofInt b * s.sb.blockSize)).writeBlock n).dev a = s.dev a := by
  have hoff : (UInt32.ofInt b * s.sb.blockSize).toNat = 512 * b := by
    have hex := (blockOffset_exact_iff hs (by omega)).mpr (show b < 2 ^ 23 by omega)
    have hnat : ((UInt32.ofInt b * s.sb.blockSize).toNat : ℤ) = 512 * b := hex
    omega
  unfold Shell.seekSet Shell.writeBlock
  rw [seekSet_wide, hoff]
  change s.dev.blit (512 * b) n s.block a = s.dev a
  apply Store.blit_outside
  rcases ha with ha | ha
  · exact Or.inl (by omega)
  · exact Or.inr (by omega)

/-- What the loop of `sfs_write` leaves: the super block and the size of the table, the
device outside the data area, and less than a block that is not yet written. -/
structure Kept (bytes : ℕ) (s : Shell) (r : Shell × WriteVars) : Prop where
  formatted : r.1.Formatted bytes
  outside : ∀ a, Outside bytes a → r.1.dev a = s.dev a
  part : r.2.curReadI ≤ 512

omit hP in
/-- A first step that touches nothing outside the data area. -/
theorem Kept.after {t : Shell} {r : Shell × WriteVars} (h : Kept bytes t r)
    (hout : ∀ a, Outside bytes a → t.dev a = s.dev a) : Kept bytes s r :=
  ⟨h.formatted, fun a ha => (h.outside a ha).trans (hout a ha), h.part⟩

theorem sfsWriteLoop_kept (n : ℕ) (h : s.Formatted bytes) {w : WriteVars}
    (hw : w.curReadI + w.toRead ≤ 512) :
    Kept bytes s (sfsWriteLoop .bits64 n s w) := by
  have hblock : ∀ t : Shell, t.sb = formatSb bytes → t.sb.blockSize.toNat = 512 := by
    intro t ht
    rw [ht]
    rfl
  induction n generalizing s w with
  | zero => exact ⟨h, fun _ _ => rfl, by change w.curReadI ≤ 512; omega⟩
  | succ n ih =>
    obtain ⟨block, got, rest, hread⟩ : ∃ block got rest,
        readStdin s.block w.curReadI w.toRead w.stdin = (block, got, rest) := ⟨_, _, _, rfl⟩
    have hgot := readStdin_le hread
    have hf : (s.withBlock block).Formatted bytes := ⟨h.sb, h.size⟩
    by_cases h0 : got = 0
    · subst h0
      rw [sfsWriteLoop_eof n hread]
      exact ⟨hf, fun _ _ => rfl, by change w.curReadI ≤ 512; omega⟩
    · by_cases hfull : got = w.toRead
      · subst hfull
        by_cases hk : w.blockI < 9
        · have hget := hf.getDataBlock_free (by omega)
          cases hfree : (s.withBlock block).free with
          | nil =>
            rw [hfree] at hget
            rw [sfsWriteLoop_full n hread h0 hk hget]
            exact ⟨hf, fun _ _ => rfl, by change w.curReadI ≤ 512; omega⟩
          | cons b bs =>
            rw [hfree] at hget
            have hmem : b ∈ (s.withBlock block).free := by
              rw [hfree]
              exact List.mem_cons_self
            obtain ⟨hlo, hhi⟩ := hf.mem_free hmem
            rw [hf.sb] at hlo hhi
            rw [sfsWriteLoop_block n hread h0 hk hget (by omega)]
            set t := (s.withBlock block).withUsed ((s.withBlock block).usedBlocks.take b) with ht
            have htsb : t.sb = formatSb bytes := h.sb
            have hbs := hblock t htsb
            have hnext : ((t.seekSet .bits64 (UInt32.ofInt b * t.sb.blockSize)).writeBlock
                t.sb.blockSize.toNat).Formatted bytes := ⟨htsb, h.size⟩
            refine (ih hnext ?_).after fun a ha => writeBlock_outside hP htsb hlo hhi (by omega) ha
            change 0 + t.sb.blockSize.toNat ≤ 512
            omega
        · rw [sfsWriteLoop_limit n hread h0 hk]
          exact ⟨hf, fun _ _ => rfl, by change w.curReadI ≤ 512; omega⟩
      · rw [sfsWriteLoop_part n hread h0 hfull]
        refine (ih hf ?_).after fun _ _ => rfl
        change w.curReadI + got + (w.toRead - got) ≤ 512
        omega

/-- On a partition of at most `2 ^ 23` blocks `sfs_write` stays in the data area. -/
theorem Shell.Formatted.writesInside (h : s.Formatted bytes) : s.WritesInside := by
  intro fe stdin a ha
  have hout : Outside bytes a := by
    rw [h.sb] at ha
    exact ha
  have hbs : s.sb.blockSize.toNat = 512 := by
    rw [h.sb]
    rfl
  have hkept := sfsWriteLoop_kept hP (stdin.flatten.length + 1) h
    (w := ⟨stdin, fe, 0, 0, s.sb.blockSize.toNat, 0, 0⟩)
    (by change 0 + s.sb.blockSize.toNat ≤ 512; omega)
  unfold Shell.writeData
  set r := sfsWriteLoop .bits64 (stdin.flatten.length + 1) s
    ⟨stdin, fe, 0, 0, s.sb.blockSize.toNat, 0, 0⟩
  rw [← hkept.outside a hout]
  have hf := hkept.formatted
  have hget := hf.getDataBlock_free (by omega)
  by_cases hpart : r.2.curRead = 0 ∧ r.2.curReadI ≠ 0
  · by_cases hk : r.2.blockI < 9
    · cases hfree : r.1.free with
      | nil =>
        rw [hfree] at hget
        simp only [writePartial, if_pos hpart, dif_pos hk, hget, ↓reduceIte]
      | cons b bs =>
        rw [hfree] at hget
        have hmem : b ∈ r.1.free := by
          rw [hfree]
          exact List.mem_cons_self
        obtain ⟨hlo, hhi⟩ := hf.mem_free hmem
        rw [hf.sb] at hlo hhi
        have hne : UInt32.ofInt (b : ℤ) ≠ UInt32.ofInt (-1) := by
          rw [ofInt_natCast]
          exact ofNat_ne_neg_one (by omega)
        simp only [writePartial, if_pos hpart, dif_pos hk, hget, if_neg hne]
        exact writeBlock_outside (s := r.1.withUsed _) hP hf.sb hlo hhi hkept.part hout
    · simp only [writePartial, if_pos hpart, dif_neg hk]
  · simp only [writePartial, if_neg hpart]

end Small

/-! ### Exactly the blocks below `2 ^ 23` -/

namespace Shell.Formatted

variable (hP : (formatSb bytes).partitionSize.toNat < 2 ^ 31) (h : s.Formatted bytes)

include hP h

theorem addressesExactly_iff : s.AddressesExactly ↔ s.LowFree := by
  have hget := h.getDataBlock_free hP
  unfold Shell.AddressesExactly
  cases hfree : s.free with
  | nil =>
    rw [hfree] at hget
    simp [hget, Shell.LowFree, hfree]
  | cons b bs =>
    rw [hfree] at hget
    have hmem : b ∈ s.free := by
      rw [hfree]
      exact List.mem_cons_self
    have hlt : b < 2 ^ 31 := by
      have hb := (h.mem_free hmem).2
      rw [h.sb] at hb
      omega
    have hcode : (getDataBlock s).2 = b := congrArg Prod.snd hget
    rw [hcode, blockOffset_exact_iff h.sb hlt]
    constructor
    · exact fun hb => Or.inl ⟨b, hmem, hb (by omega)⟩
    · rintro (⟨c, hc, hlow⟩ | hnone) _
      · exact (free_head_le hfree hc).trans_lt hlow
      · rw [hnone] at hmem
        exact absurd hmem List.not_mem_nil

/-- The block returned, where there is one. -/
theorem getDataBlock_mem (hne : (getDataBlock s).2 ≠ -1) :
    ∃ b ∈ s.free, (getDataBlock s).2 = b := by
  have hget := h.getDataBlock_free hP
  cases hfree : s.free with
  | nil =>
    rw [hfree] at hget
    exact absurd (congrArg Prod.snd hget) hne
  | cons b bs =>
    rw [hfree] at hget
    exact ⟨b, List.mem_cons_self, congrArg Prod.snd hget⟩

end Shell.Formatted

/-- The shell with a table in which only the last block is free. -/
def lastBlockFree (bytes : ℕ) : Shell where
  dev := fun _ => 0
  pos := 0
  sb := formatSb bytes
  usedBlocks := ⟨(formatSb bytes).partitionSize.toNat,
    fun b => if b + 1 = (formatSb bytes).partitionSize.toNat then 0 else 1, false⟩
  block := fun _ => 0

theorem mem_free_lastBlockFree (bytes : ℕ) {b : ℕ} (h : b ∈ (lastBlockFree bytes).free) :
    b + 1 = (formatSb bytes).partitionSize.toNat := by
  obtain ⟨_, _, hcell⟩ := (Buffer.mem_free _).mp h
  by_contra hne
  have hone : (lastBlockFree bytes).usedBlocks.cell b = 1 := if_neg hne
  rw [hone] at hcell
  exact absurd hcell (by decide)

/-- With two blocks or more the last one is a data block. -/
theorem free_lastBlockFree (bytes : ℕ) (h2 : 2 ≤ (formatSb bytes).partitionSize.toNat) :
    (formatSb bytes).partitionSize.toNat - 1 ∈ (lastBlockFree bytes).free := by
  have hd := formatSb_dataBlockStart bytes
  refine (Buffer.mem_free _).mpr ⟨?_, ?_, ?_⟩
  · change (formatSb bytes).dataBlockStart.toNat ≤ _
    omega
  · change _ < (formatSb bytes).partitionSize.toNat
    omega
  · exact if_pos (by omega)

/-- The last block is the one returned. -/
theorem getDataBlock_lastBlockFree {bytes : ℕ} (hP : (formatSb bytes).partitionSize.toNat < 2 ^ 31)
    (h2 : 2 ≤ (formatSb bytes).partitionSize.toNat) :
    (getDataBlock (lastBlockFree bytes)).2 + 1 = (formatSb bytes).partitionSize.toNat := by
  have hf : (lastBlockFree bytes).Formatted bytes := ⟨rfl, rfl⟩
  have hget := hf.getDataBlock_free hP
  have hmem := free_lastBlockFree bytes h2
  cases hfree : (lastBlockFree bytes).free with
  | nil =>
    rw [hfree] at hmem
    exact absurd hmem List.not_mem_nil
  | cons b bs =>
    have hb : b ∈ (lastBlockFree bytes).free := by
      rw [hfree]
      exact List.mem_cons_self
    have hlast := mem_free_lastBlockFree bytes hb
    rw [hfree] at hget
    rw [hget]
    change (b : ℤ) + 1 = _
    omega

/-- On a formatted partition the block returned is addressed exactly when a data block
below `2 ^ 23` is free or none is. All blocks returned are, all data go to the data area
and different blocks stay apart, whatever the tables, exactly when the partition has at
most `2 ^ 23` blocks. -/
theorem block_addresses_iff (bytes : ℕ) (hP : (formatSb bytes).partitionSize.toNat < 2 ^ 31) :
    (∀ s : Shell, s.Formatted bytes → (s.AddressesExactly ↔ s.LowFree)) ∧
    ((∀ s t : Shell, s.Formatted bytes → t.Formatted bytes →
        s.AddressesExactly ∧ s.WritesInside ∧ s.Apart t) ↔
      (formatSb bytes).partitionSize.toNat ≤ 2 ^ 23) := by
  refine ⟨fun s h => h.addressesExactly_iff hP, ?_, ?_⟩
  · intro hall
    by_contra hgt
    have hf : (lastBlockFree bytes).Formatted bytes := ⟨rfl, rfl⟩
    rcases (hf.addressesExactly_iff hP).mp (hall _ _ hf hf).1 with ⟨b, hb, hlow⟩ | hnone
    · have hlast := mem_free_lastBlockFree bytes hb
      omega
    · have hmem := free_lastBlockFree bytes (by omega)
      rw [hnone] at hmem
      exact absurd hmem List.not_mem_nil
  · intro hle s t hs ht
    have hexact : ∀ u : Shell, u.Formatted bytes → (getDataBlock u).2 ≠ -1 →
        blockOffset u.sb (getDataBlock u).2 = 512 * (getDataBlock u).2 := by
      intro u hu hne
      obtain ⟨b, hb, hcode⟩ := hu.getDataBlock_mem hP hne
      have hlt := (hu.mem_free hb).2
      rw [hu.sb] at hlt
      rw [hcode]
      exact (blockOffset_exact_iff hu.sb (by omega)).mpr (by omega)
    refine ⟨hexact s hs, hs.writesInside hle, ?_⟩
    intro hsne htne hne
    rw [hexact s hs hsne, hexact t ht htne]
    omega

/-- The largest partition without such a block. -/
theorem block_addresses_sample : (lastBlockFree 4294967296).WritesInside :=
  ((block_addresses_iff 4294967296 (by decide +kernel)).2.mpr (by decide +kernel)
    (lastBlockFree 4294967296) (lastBlockFree 4294967296) ⟨rfl, rfl⟩ ⟨rfl, rfl⟩).2.1

/-- One block more: the last block is returned and its offset is that of the super block. -/
theorem block_address_wraps : (lastBlockFree 4294967808).Formatted 4294967808 ∧
    (getDataBlock (lastBlockFree 4294967808)).2 = 8388608 ∧
    blockOffset (formatSb 4294967808) 8388608 = 0 ∧
    ¬ (lastBlockFree 4294967808).AddressesExactly := by
  have hf : (lastBlockFree 4294967808).Formatted 4294967808 := ⟨rfl, rfl⟩
  have hps : (formatSb 4294967808).partitionSize.toNat = 8388609 := by decide +kernel
  have hcode : (getDataBlock (lastBlockFree 4294967808)).2 = 8388608 := by
    have hlast := getDataBlock_lastBlockFree (hps.trans_lt (by decide)) (hps.ge.trans' (by decide))
    omega
  have hoff : blockOffset (formatSb 4294967808) 8388608 = 0 := by decide +kernel
  refine ⟨hf, hcode, hoff, fun h => ?_⟩
  have hex := h (by rw [hcode]; decide)
  rw [hcode, show (lastBlockFree 4294967808).sb = formatSb 4294967808 from rfl, hoff] at hex
  exact absurd hex (by decide)

end Linuxpedia.RealFs
