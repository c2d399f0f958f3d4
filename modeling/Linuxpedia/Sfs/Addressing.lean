import Linuxpedia.Sfs.RawTable

/-! Addressing the entry table through device blocks of any size. A slot is numbered in
blocks of the file system and the device in blocks of its own; the byte address between
the two is computed in 32 bits. It is exact for every slot of every formatted device,
even where `entry_count` itself wrapped, and since the device block is a multiple of an
entry the slot never straddles two of them. -/

namespace Linuxpedia.Sfs

open Lib

namespace RealSfsOnBlockDevice

/-- `read_from_real_sfs` of the RealSFSOnBlockDevice module, which takes a block of the
file system for a block of the device. -/
def readFromRealSfs (κ : Kernel) (m : Mount) (block offset len : UInt32) :
    Mount × Except ℤ Store :=
  let blockSize := m.sb.blockSize
  let past := offset ≥ blockSize
  let block := if past then block + offset / blockSize else block
  let offset := if past then offset % blockSize else offset
  if offset + len > blockSize then (m, .error (-einval))
  else
    match sbBread κ m block with
    | (m, none) => (m, .error (-eio))
    | (m, some data) => (m, .ok (data.window offset.toNat))

end RealSfsOnBlockDevice

/-- `ino * sizeof(sfs_file_entry_t)` as it is passed. -/
def entryOffset (i : ℕ) : UInt32 := UInt32.ofInt ((i : ℤ) * 64)

/-- No step of the address computation of slot `i` wraps, and the slot lies in one block
of the device and in the entry table. -/
structure Kernel.Addresses (κ : Kernel) (sb : SfsSuperBlock) (i : ℕ) : Prop where
  offset : (entryOffset i).toNat = i * 64
  product : (sb.entryTableBlockStart * sb.blockSize).toNat =
    sb.entryTableBlockStart.toNat * sb.blockSize.toNat
  sum : (sb.entryTableBlockStart * sb.blockSize + entryOffset i).toNat =
    (sb.entryTableBlockStart * sb.blockSize).toNat + (entryOffset i).toNat
  addr : (sb.slotAddr i).toNat = 512 + 64 * i
  reach : (sb.slotAddr i % κ.bdBlockSize + 64).toNat =
    (sb.slotAddr i % κ.bdBlockSize).toNat + 64
  inBlock : (sb.slotAddr i % κ.bdBlockSize).toNat + 64 ≤ κ.bdBlockSize.toNat
  inTable : 512 + 64 * i + 64 ≤ 512 * sb.dataBlockStart.toNat

variable {κ : Kernel} {m : Mount} {i : ℕ}

/-- The table starts behind the super block. -/
theorem formatSb_tableStart (size : ℕ) :
    ((formatSb size).entryTableBlockStart * (formatSb size).blockSize).toNat = 512 := by
  have hs : (formatSb size).entryTableBlockStart = 1 := rfl
  have hb : (formatSb size).blockSize = 512 := rfl
  rw [hs, hb]
  rfl

section Formatted

variable {size : ℕ} (hi : i < (formatSb size).entryCount.toNat)

include hi

/-- The last slot of the largest table ends at `2 ^ 32` at the latest. -/
theorem formatSb_slot_bound : 512 + 64 * i + 64 ≤ 2 ^ 32 ∧
    512 + 64 * i + 64 ≤ 512 * (formatSb size).dataBlockStart.toNat := by
  have hc := formatSb_entryCount size
  have hd := formatSb_dataBlockStart size
  omega

theorem entryOffset_toNat : (entryOffset i).toNat = i * 64 := by
  have hb := (formatSb_slot_bound hi).1
  rw [entryOffset, show (i : ℤ) * 64 = ((i * 64 : ℕ) : ℤ) by omega, toNat_ofInt_natCast (by omega)]

theorem formatSb_slotAddr : ((formatSb size).slotAddr i).toNat = 512 + 64 * i := by
  have hb := (formatSb_slot_bound hi).1
  rw [SfsSuperBlock.slotAddr_toNat, formatSb_tableStart, Nat.mod_eq_of_lt (by omega)]

theorem formatSb_addresses (hpos : 0 < κ.bdBlockSize.toNat) (hmult : 64 ∣ κ.bdBlockSize.toNat) :
    κ.Addresses (formatSb size) i := by
  have haddr := formatSb_slotAddr hi
  have hin : ((formatSb size).slotAddr i % κ.bdBlockSize).toNat + 64 ≤ κ.bdBlockSize.toNat := by
    rw [UInt32.toNat_mod, haddr]
    exact entry_in_block hpos (by omega) hmult
  have hlt := κ.bdBlockSize.toNat_lt
  refine ⟨entryOffset_toNat hi, ?_, ?_, haddr, ?_, hin, (formatSb_slot_bound hi).2⟩
  · have hs : (formatSb size).entryTableBlockStart = 1 := rfl
    have hb : (formatSb size).blockSize = 512 := rfl
    rw [formatSb_tableStart, hs, hb]
    rfl
  · change ((formatSb size).slotAddr i).toNat = _
    rw [haddr, formatSb_tableStart, entryOffset_toNat hi]
    omega
  · rw [UInt32.toNat_add, show (64 : UInt32).toNat = 64 from rfl, Nat.mod_eq_of_lt (by omega)]

end Formatted

/-! ### What the calls do -/

/-- A read at an exact address gets the 64 bytes of the slot. -/
theorem Kernel.Addresses.read (h : κ.Addresses m.sb i) (hb : ∀ n b, κ.bread n b = true) :
    ∃ data, readFromRealSfs κ m m.sb.entryTableBlockStart (entryOffset i) 64 =
        (m.tick 1, .ok data) ∧ ∀ k, data k = m.dev (512 + 64 * i + k) := by
  have hfit : ¬ m.sb.slotAddr i % κ.bdBlockSize + 64 > κ.bdBlockSize := by
    rw [gt_iff_lt, UInt32.lt_iff_toNat_lt, h.reach]
    exact Nat.not_lt.mpr h.inBlock
  refine ⟨(m.dev.window ((m.sb.slotAddr i / κ.bdBlockSize).toNat * κ.bdBlockSize.toNat)).window
    (m.sb.slotAddr i % κ.bdBlockSize).toNat, ?_, ?_⟩
  · rw [readFromRealSfs]
    simp only [entryOffset, slotAddr_eq, if_neg hfit, sbBread, if_pos (hb _ _)]
    rfl
  · intro k
    simp only [Store.window_apply, UInt32.toNat_div, UInt32.toNat_mod, ← Nat.add_assoc,
      Nat.div_add_mod', h.addr]

/-- A write at an exact address changes the 64 bytes of the slot. -/
theorem Kernel.Addresses.write (h : κ.Addresses m.sb i) (hb : ∀ n b, κ.bread n b = true)
    (buf : Store) : writeToRealSfs κ m m.sb.entryTableBlockStart (entryOffset i) buf 64 =
      ((({ m with dev := m.dev.blit (512 + 64 * i) 64 buf } : Mount).tick 1).wrote 0, 0) := by
  have hfit : ¬ m.sb.slotAddr i % κ.bdBlockSize + 64 > κ.bdBlockSize := by
    rw [gt_iff_lt, UInt32.lt_iff_toNat_lt, h.reach]
    exact Nat.not_lt.mpr h.inBlock
  have haddr : (m.sb.slotAddr i / κ.bdBlockSize).toNat * κ.bdBlockSize.toNat +
      (m.sb.slotAddr i % κ.bdBlockSize).toNat = 512 + 64 * i := by
    rw [UInt32.toNat_div, UInt32.toNat_mod, Nat.div_add_mod', h.addr]
  simp only [writeToRealSfs, writeToDevice, entryOffset, slotAddr_eq, if_neg hfit, sbBread,
    if_pos (hb _ _), haddr]
  rfl

/-- Where the device is read in blocks of 512 bytes, the earlier module finds the slot in
the same place. -/
theorem Kernel.Addresses.read_onBlockDevice (h : κ.Addresses m.sb i)
    (hb : ∀ n b, κ.bread n b = true) (hs : m.sb.entryTableBlockStart = 1)
    (hbs : m.sb.blockSize = 512) (hbd : κ.bdBlockSize = 512) :
    ∃ data, RealSfsOnBlockDevice.readFromRealSfs κ m m.sb.entryTableBlockStart (entryOffset i) 64 =
        (m.tick 1, .ok data) ∧ ∀ k, data k = m.dev (512 + 64 * i + k) := by
  have ho := h.offset
  have hlt := (entryOffset i).toNat_lt
  have h512 : (512 : UInt32).toNat = 512 := rfl
  -- below one block the quotient is 0 and the remainder the offset itself
  have hblock : (if entryOffset i ≥ 512 then 1 + entryOffset i / 512 else 1) =
      1 + entryOffset i / 512 := by
    split_ifs with hge
    · rfl
    · rw [ge_iff_le, UInt32.le_iff_toNat_le, h512] at hge
      apply UInt32.toNat_inj.mp
      rw [UInt32.toNat_add, UInt32.toNat_div, h512, Nat.div_eq_of_lt (by omega)]
      rfl
  have hoff : (if entryOffset i ≥ 512 then entryOffset i % 512 else entryOffset i) =
      entryOffset i % 512 := by
    split_ifs with hge
    · rfl
    · rw [ge_iff_le, UInt32.le_iff_toNat_le, h512] at hge
      apply UInt32.toNat_inj.mp
      rw [UInt32.toNat_mod, h512, Nat.mod_eq_of_lt (by omega)]
  have hfit : ¬ entryOffset i % 512 + 64 > 512 := by
    rw [gt_iff_lt, UInt32.lt_iff_toNat_lt, UInt32.toNat_add, UInt32.toNat_mod, h512, ho]
    change ¬ _ < (_ + 64) % 2 ^ 32
    omega
  refine ⟨(m.dev.window ((1 + entryOffset i / 512).toNat * 512)).window
    (entryOffset i % 512).toNat, ?_, ?_⟩
  · rw [RealSfsOnBlockDevice.readFromRealSfs]
    simp only [hs, hbs, hblock, hoff, if_neg hfit, sbBread, if_pos (hb _ _), hbd]
    rfl
  · intro k
    simp only [Store.window_apply, UInt32.toNat_add, UInt32.toNat_div, UInt32.toNat_mod, h512, ho,
      UInt32.toNat_one]
    congr 1
    omega

/-- Every slot of a formatted device is addressed exactly through device blocks of any
size: the calls succeed and touch its 64 bytes in the entry table, a slot written is
read back and the others read what they held, and the earlier module reads the same. -/
theorem entry_addressing (size : ℕ) (hpos : 0 < κ.bdBlockSize.toNat)
    (hmult : 64 ∣ κ.bdBlockSize.toNat) (hb : ∀ n b, κ.bread n b = true)
    (hm : m.sb = formatSb size) {j : ℕ} (hi : i < m.sb.entryCount.toNat)
    (hj : j < m.sb.entryCount.toNat) (buf : Store) :
    κ.Addresses m.sb i ∧
    (∃ data, readFromRealSfs κ m m.sb.entryTableBlockStart (entryOffset i) 64 =
        (m.tick 1, .ok data) ∧ ∀ k < 64, data k = m.dev (512 + 64 * i + k)) ∧
    (∃ m', writeToRealSfs κ m m.sb.entryTableBlockStart (entryOffset i) buf 64 = (m', 0) ∧
      m'.dev = m.dev.blit (512 + 64 * i) 64 buf ∧
      ∃ data, (readFromRealSfs κ m' m.sb.entryTableBlockStart (entryOffset j) 64).2 = .ok data ∧
        ∀ k < 64, data k = if i = j then buf k else m.dev (512 + 64 * j + k)) ∧
    (κ.bdBlockSize = 512 → ∃ data, RealSfsOnBlockDevice.readFromRealSfs κ m
        m.sb.entryTableBlockStart (entryOffset i) 64 = (m.tick 1, .ok data) ∧
      ∀ k < 64, data k = m.dev (512 + 64 * i + k)) := by
  have hai : κ.Addresses m.sb i := by
    rw [hm] at hi ⊢
    exact formatSb_addresses hi hpos hmult
  have haj : κ.Addresses m.sb j := by
    rw [hm] at hj ⊢
    exact formatSb_addresses hj hpos hmult
  refine ⟨hai, ?_, ?_, ?_⟩
  · obtain ⟨data, he, hd⟩ := hai.read hb
    exact ⟨data, he, fun k _ => hd k⟩
  · refine ⟨_, hai.write hb buf, rfl, ?_⟩
    set m' := (({ m with dev := m.dev.blit (512 + 64 * i) 64 buf } : Mount).tick 1).wrote 0
    have haj' : κ.Addresses m'.sb j := haj
    obtain ⟨data, he, hd⟩ := haj'.read hb
    refine ⟨data, congrArg Prod.snd he, fun k hk => ?_⟩
    rw [hd]
    change m.dev.blit (512 + 64 * i) 64 buf (512 + 64 * j + k) = _
    split_ifs with hij
    · subst hij
      exact Store.blit_inside _ _ hk
    · exact Store.blit_outside _ _ (by omega)
  · intro hbd
    have hs : m.sb.entryTableBlockStart = 1 := by rw [hm]; rfl
    have hbs : m.sb.blockSize = 512 := by rw [hm]; rfl
    obtain ⟨data, he, hd⟩ := hai.read_onBlockDevice hb hs hbs hbd
    exact ⟨data, he, fun k _ => hd k⟩

/-- The last slot of the small device, through device blocks of 1024 bytes. -/
theorem entry_addressing_sample : Kernel.Addresses ⟨1024, fun _ _ => true, fun _ => none⟩
    (formatSb 5120) 7 :=
  (entry_addressing (κ := ⟨1024, fun _ _ => true, fun _ => none⟩)
    (m := { kzallocInfo (fun _ => 0) with sb := formatSb 5120 }) 5120 (by decide) (by decide)
    (fun _ _ => rfl) rfl (j := 0) (by decide) (by decide) fun _ => 0).1

end Linuxpedia.Sfs
