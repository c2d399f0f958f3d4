import Linuxpedia.Sfs.Layout

/-! The formatters `format_real_sfs.c` and `format_sfs.c`, which compute the
super block in 32-bit unsigned arithmetic from the device size and then write it
and a cleared entry table. `Geometry` is what every reader of the table relies on:
the table lies between the super block and the data, and no address of an entry
wraps. -/

namespace Linuxpedia.Sfs

open Lib

/-- `main`'s super block for a device of `size` bytes. The double product
`partition_size * 0.10`, truncated to an unsigned, is `partition_size / 10`. -/
def formatSb (size : ℕ) : SfsSuperBlock :=
  let partitionSize := UInt32.ofNat (size / 512)
  let entryTableSize := partitionSize / 10
  { type := simulaFsType
    blockSize := 512
    partitionSize := partitionSize
    entrySize := 64
    entryTableSize := entryTableSize
    entryTableBlockStart := 1
    entryCount := entryTableSize * 512 / 64
    dataBlockStart := 1 + entryTableSize }

/-- An open device and its file offset. -/
structure Handle where
  dev : Store
  pos : ℕ

def Handle.write (h : Handle) (buf : Store) (n : ℕ) : Handle :=
  { dev := h.dev.blit h.pos n buf, pos := h.pos + n }

@[simp] theorem Handle.write_pos (h : Handle) (buf : Store) (n : ℕ) :
    (h.write buf n).pos = h.pos + n := rfl

@[simp] theorem Handle.write_dev (h : Handle) (buf : Store) (n : ℕ) :
    (h.write buf n).dev = h.dev.blit h.pos n buf := rfl

def writeSuperBlock (h : Handle) (sb : SfsSuperBlock) : Handle := h.write sb.toBytes 512

/-- `for (i = 0; i < n; i++) memcpy(block + i * entry_size, &fe, sizeof(fe))`. -/
def fillBlock (sb : SfsSuperBlock) : ℕ → ℕ → Store → Store
  | 0, _, block => block
  | n + 1, i, block =>
    fillBlock sb n (i + 1) (block.blit (i * sb.entrySize.toNat) 64 SfsFileEntry.zero.toBytes)

def writeBlocks (block : Store) : ℕ → Handle → Handle
  | 0, h => h
  | n + 1, h => writeBlocks block n (h.write block 512)

/-- `clear_file_entries`; `stack` is what the automatic array `block` starts with. -/
def clearFileEntries (h : Handle) (sb : SfsSuperBlock) (stack : Store) : Handle :=
  writeBlocks (fillBlock sb (sb.blockSize / sb.entrySize).toNat 0 stack) sb.entryTableSize.toNat h

/-- The device after formatting. -/
def formatRealSfs (size : ℕ) (dev stack : Store) : Store :=
  (clearFileEntries (writeSuperBlock ⟨dev, 0⟩ (formatSb size)) (formatSb size) stack).dev

/-- The entry in slot `i` of the table. -/
def entryAt (dev : Store) (i : ℕ) : SfsFileEntry := .ofBytes (dev.window (512 + 64 * i))

/-- A layout whose table and data do not meet and whose addresses do not wrap. -/
structure Geometry (sb : SfsSuperBlock) : Prop where
  type_eq : sb.type = simulaFsType
  blockSize_eq : sb.blockSize = 512
  entrySize_eq : sb.entrySize = 64
  tableStart_eq : sb.entryTableBlockStart = 1
  table_fits : 512 + 64 * sb.entryCount.toNat ≤ 512 * sb.dataBlockStart.toNat
  table_wrap : 512 + 64 * sb.entryCount.toNat ≤ 2 ^ 32
  start_le : sb.dataBlockStart.toNat ≤ sb.partitionSize.toNat
  small : sb.partitionSize.toNat < 2 ^ 31

theorem formatSb_entryTableSize (size : ℕ) :
    (formatSb size).entryTableSize.toNat = (formatSb size).partitionSize.toNat / 10 := by
  simp [formatSb]

theorem formatSb_dataBlockStart (size : ℕ) :
    (formatSb size).dataBlockStart.toNat = 1 + (formatSb size).partitionSize.toNat / 10 := by
  have hp := (formatSb size).partitionSize.toNat_lt
  have ht := formatSb_entryTableSize size
  change (1 + (formatSb size).entryTableSize).toNat = _
  rw [UInt32.toNat_add, ht]
  simp only [UInt32.toNat_one]
  omega

/-- The entry count follows from the table size modulo `2 ^ 32` bytes. -/
theorem formatSb_entryCount (size : ℕ) : (formatSb size).entryCount.toNat =
    (formatSb size).partitionSize.toNat / 10 * 512 % 2 ^ 32 / 64 := by
  change ((formatSb size).entryTableSize * 512 / 64).toNat = _
  rw [UInt32.toNat_div, UInt32.toNat_mul, formatSb_entryTableSize]
  rfl

theorem formatSb_geometry {size : ℕ} (h0 : (formatSb size).partitionSize ≠ 0)
    (hP : (formatSb size).partitionSize.toNat < 2 ^ 31) : Geometry (formatSb size) := by
  have h1 : (formatSb size).partitionSize.toNat ≠ 0 := fun h => h0 (UInt32.toNat_inj.mp h)
  have hd := formatSb_dataBlockStart size
  have hc := formatSb_entryCount size
  exact ⟨rfl, rfl, rfl, rfl, by omega, by omega, by omega, hP⟩

/-! ### The layout over the integers -/

/-- What the fields of a super block promise about a device of `size` bytes, computed
without wrapping. -/
structure SfsSuperBlock.Layout (sb : SfsSuperBlock) (size : ℕ) : Prop where
  partition : sb.partitionSize.toNat * 512 ≤ size
  table : sb.entryCount.toNat * sb.entrySize.toNat = sb.entryTableSize.toNat * sb.blockSize.toNat
  start : sb.dataBlockStart.toNat = 1 + sb.entryTableSize.toNat
  start_le : 1 + sb.entryTableSize.toNat ≤ sb.partitionSize.toNat
  files : 0 < sb.entryTableSize.toNat → 0 < sb.entryCount.toNat

/-- The bytes of the table are computed modulo `2 ^ 32`, so the layout is right exactly
for tables of less than `2 ^ 23` blocks. -/
theorem formatSb_layout_iff {size : ℕ} (h512 : 512 ≤ size) (hsize : size < 2 ^ 41) :
    (formatSb size).Layout size ↔ size < 512 * (10 * 2 ^ 23) := by
  have hP : (formatSb size).partitionSize.toNat = size / 512 := by
    change (UInt32.ofNat (size / 512)).toNat = _
    rw [UInt32.toNat_ofNat', Nat.mod_eq_of_lt (by omega)]
  have ht := formatSb_entryTableSize size
  have hd := formatSb_dataBlockStart size
  have hc := formatSb_entryCount size
  have hentry : (formatSb size).entrySize.toNat = 64 := rfl
  have hblock : (formatSb size).blockSize.toNat = 512 := rfl
  rw [hP] at ht hd hc
  constructor
  · intro h
    have htable := h.table
    rw [hentry, hblock, ht, hc] at htable
    omega
  · intro hlt
    constructor
    · rw [hP]
      omega
    · rw [hentry, hblock, ht, hc]
      omega
    · rw [hd, ht]
    · rw [hP, ht]
      omega
    · rw [ht, hc]
      omega

theorem formatSb_layout_sample : (formatSb 42949672959).Layout 42949672959 :=
  (formatSb_layout_iff (by decide) (by decide)).mpr (by decide)

/-- On a partition of `10 * 2 ^ 23` blocks the table has no slot at all. -/
theorem formatSb_wraps : (formatSb 42949672960).entryCount = 0 ∧
    ¬ (formatSb 42949672960).Layout 42949672960 := by
  refine ⟨by decide, fun h => ?_⟩
  exact absurd (h.files (by decide)) (by decide)

/-! ### The formatted image -/

theorem fillBlock_zero (sb : SfsSuperBlock) (hs : sb.entrySize = 64) (n i : ℕ) (block : Store)
    (h : ∀ j < 64 * i, block j = 0) : ∀ j < 64 * (i + n), fillBlock sb n i block j = 0 := by
  induction n generalizing i block with
  | zero => exact h
  | succ n ih =>
    have hs' : sb.entrySize.toNat = 64 := by rw [hs]; rfl
    have hstep : ∀ j < 64 * (i + 1),
        block.blit (i * sb.entrySize.toNat) 64 SfsFileEntry.zero.toBytes j = 0 := by
      intro j hj
      rw [hs']
      by_cases hlt : j < 64 * i
      · rw [Store.blit_outside _ _ (by omega), h j hlt]
      · obtain ⟨k, rfl⟩ : ∃ k, j = i * 64 + k := ⟨j - 64 * i, by omega⟩
        rw [Store.blit_inside _ _ (by omega), SfsFileEntry.toBytes_zero]
    intro j hj
    exact ih (i + 1) _ hstep j (by omega)

theorem writeBlocks_dev (block : Store) (hb : ∀ j < 512, block j = 0) (n : ℕ) (h : Handle) :
    (∀ i < h.pos, (writeBlocks block n h).dev i = h.dev i) ∧
    (∀ i, h.pos ≤ i → i < h.pos + 512 * n → (writeBlocks block n h).dev i = 0) ∧
    (∀ i, h.pos + 512 * n ≤ i → (writeBlocks block n h).dev i = h.dev i) := by
  induction n generalizing h with
  | zero => exact ⟨fun _ _ => rfl, fun i h1 h2 => by omega, fun _ _ => rfl⟩
  | succ n ih =>
    obtain ⟨h1, h2, h3⟩ := ih (h.write block 512)
    rw [Handle.write_pos] at h1 h2 h3
    have hout : ∀ i, i < h.pos ∨ h.pos + 512 ≤ i → (h.write block 512).dev i = h.dev i :=
      fun i hi => Store.blit_outside _ _ hi
    refine ⟨?_, ?_, ?_⟩
    · intro i hi
      rw [writeBlocks, h1 i (by omega), hout i (Or.inl hi)]
    · intro i hi1 hi2
      rw [writeBlocks]
      by_cases hlt : i < h.pos + 512
      · obtain ⟨k, rfl⟩ : ∃ k, i = h.pos + k := ⟨i - h.pos, by omega⟩
        rw [h1 _ hlt, Handle.write_dev, Store.blit_inside h.dev block (by omega), hb k (by omega)]
      · exact h2 i (by omega) (by omega)
    · intro i hi
      rw [Nat.mul_succ, ← Nat.add_assoc] at hi
      rw [writeBlocks, h3 i (by omega), hout i (Or.inr (by omega))]

theorem formatRealSfs_dev (size : ℕ) (dev stack : Store) :
    (∀ i < 512, formatRealSfs size dev stack i = (formatSb size).toBytes i) ∧
    (∀ i, 512 ≤ i → i < 512 * (formatSb size).dataBlockStart.toNat →
      formatRealSfs size dev stack i = 0) ∧
    (∀ i, 512 * (formatSb size).dataBlockStart.toNat ≤ i →
      formatRealSfs size dev stack i = dev i) := by
  have hd := formatSb_dataBlockStart size
  have ht := formatSb_entryTableSize size
  have hz : ∀ j < 512, fillBlock (formatSb size) 8 0 stack j = 0 :=
    fillBlock_zero (formatSb size) rfl 8 0 stack (by intro j hj; omega)
  have hf : formatRealSfs size dev stack = (writeBlocks (fillBlock (formatSb size) 8 0 stack)
      (formatSb size).entryTableSize.toNat (writeSuperBlock ⟨dev, 0⟩ (formatSb size))).dev := by
    rw [formatRealSfs, clearFileEntries,
      show ((formatSb size).blockSize / (formatSb size).entrySize).toNat = 8 by simp [formatSb]]
  obtain ⟨h1, h2, h3⟩ := writeBlocks_dev _ hz (formatSb size).entryTableSize.toNat
    (writeSuperBlock ⟨dev, 0⟩ (formatSb size))
  simp only [writeSuperBlock, Handle.write_pos, Handle.write_dev, zero_add] at h1 h2 h3 hf
  rw [hf]
  refine ⟨?_, ?_, ?_⟩
  · intro i hi
    rw [h1 i hi]
    simpa using Store.blit_inside dev (formatSb size).toBytes (o := 0) hi
  · intro i hi1 hi2
    exact h2 i hi1 (by omega)
  · intro i hi
    rw [h3 i (by omega), Store.blit_outside dev _ (by omega)]

/-- The super block of a formatted image. -/
theorem formatRealSfs_sb (size : ℕ) (dev stack : Store) :
    SfsSuperBlock.ofBytes (formatRealSfs size dev stack) = formatSb size :=
  SfsSuperBlock.ofBytes_eq fun i hi => (formatRealSfs_dev size dev stack).1 i (by omega)

/-- Every slot of a formatted image is empty. -/
theorem entryAt_formatRealSfs (size : ℕ) (dev stack : Store) {i : ℕ}
    (h0 : (formatSb size).partitionSize ≠ 0)
    (hP : (formatSb size).partitionSize.toNat < 2 ^ 31) (hi : i < (formatSb size).entryCount.toNat) :
    entryAt (formatRealSfs size dev stack) i = .zero := by
  have hg := (formatSb_geometry h0 hP).table_fits
  rw [entryAt, ← SfsFileEntry.ofBytes_toBytes .zero]
  apply SfsFileEntry.ofBytes_congr
  intro j hj
  rw [Store.window_apply, SfsFileEntry.toBytes_zero]
  exact (formatRealSfs_dev size dev stack).2.1 _ (by omega) (by omega)

end Linuxpedia.Sfs
