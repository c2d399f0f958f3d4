import Linuxpedia.Sfs.DriverSpec

/-! The entry table under any super block at all. Slot `i` is read from and written
to the address that the driver computes in 32 bits, so slots whose numbers differ by
a multiple of `2 ^ 26` are the same bytes, and other slots never overlap. Whether a
slot can be read depends on the device block it lies in and on its place in it. -/

namespace Linuxpedia.Sfs

open Lib

/-- The address of slot `i`: `block * block_size + offset` of `read_from_real_sfs`. -/
def SfsSuperBlock.slotAddr (sb : SfsSuperBlock) (i : ℕ) : UInt32 :=
  sb.entryTableBlockStart * sb.blockSize + UInt32.ofInt ((i : ℤ) * 64)

/-- The entry that the driver reads for slot `i`. -/
def rawEntry (sb : SfsSuperBlock) (dev : Store) (i : ℕ) : SfsFileEntry :=
  .ofBytes (dev.window (sb.slotAddr i).toNat)

/-- Call number `n` of `sb_bread` gets the 64 bytes at address `a`: they lie in one
device block and its reading succeeds. -/
def Kernel.Reads (κ : Kernel) (n : ℕ) (a : UInt32) : Prop :=
  ¬ a % κ.bdBlockSize + 64 > κ.bdBlockSize ∧ κ.bread n (a / κ.bdBlockSize) = true

instance (κ : Kernel) (n : ℕ) (a : UInt32) : Decidable (κ.Reads n a) :=
  inferInstanceAs (Decidable (_ ∧ _))

/-- Every slot of the table can always be read. -/
def Kernel.Readable (κ : Kernel) (sb : SfsSuperBlock) : Prop :=
  ∀ n, ∀ i < sb.entryCount.toNat, κ.Reads n (sb.slotAddr i)

namespace SfsSuperBlock

variable (sb : SfsSuperBlock)

theorem slotAddr_toNat (i : ℕ) : (sb.slotAddr i).toNat =
    ((sb.entryTableBlockStart * sb.blockSize).toNat + 64 * i) % 2 ^ 32 := by
  have hi : UInt32.ofInt ((i : ℤ) * 64) = UInt32.ofNat (64 * i) := by
    rw [show (i : ℤ) * 64 = ((64 * i : ℕ) : ℤ) by omega, ofInt_natCast]
  rw [slotAddr, hi, UInt32.toNat_add, UInt32.toNat_ofNat']
  omega

/-- Two slots are the same bytes or lie apart. -/
theorem slotAddr_apart {i j : ℕ} (h : sb.slotAddr i ≠ sb.slotAddr j) :
    (sb.slotAddr i).toNat + 64 ≤ (sb.slotAddr j).toNat ∨
      (sb.slotAddr j).toNat + 64 ≤ (sb.slotAddr i).toNat := by
  have hne : (sb.slotAddr i).toNat ≠ (sb.slotAddr j).toNat := fun he => h (UInt32.toNat_inj.mp he)
  rw [slotAddr_toNat, slotAddr_toNat] at hne ⊢
  omega

end SfsSuperBlock

theorem rawEntry_congr {sb : SfsSuperBlock} {i j : ℕ} (h : sb.slotAddr i = sb.slotAddr j)
    (dev : Store) : rawEntry sb dev i = rawEntry sb dev j := by
  rw [rawEntry, rawEntry, h]

/-- Writing slot `i` changes it under each of its numbers. -/
theorem rawEntry_blit (sb : SfsSuperBlock) (dev : Store) (i j : ℕ) (fe : SfsFileEntry) :
    rawEntry sb (dev.blit (sb.slotAddr i).toNat 64 fe.toBytes) j =
      if sb.slotAddr j = sb.slotAddr i then fe else rawEntry sb dev j := by
  split_ifs with hj
  · rw [rawEntry, hj, ← SfsFileEntry.ofBytes_toBytes fe]
    exact SfsFileEntry.ofBytes_congr fun k hk => by
      rw [SfsFileEntry.ofBytes_toBytes]
      exact Store.window_blit_self _ _ hk
  · exact SfsFileEntry.ofBytes_congr fun k hk =>
      Store.window_blit_disjoint _ _ (sb.slotAddr_apart hj) hk

namespace Mount

/-- The table of a mount as the driver addresses it. -/
def table (m : Mount) : Volume where
  count := m.sb.entryCount.toNat
  start := m.sb.dataBlockStart.toNat
  entry := rawEntry m.sb m.dev
  used := m.usedBlocks

/-- The mount after slot `i` was written. -/
def stored (m : Mount) (i : ℕ) (fe : SfsFileEntry) : Mount :=
  (({ m with dev := m.dev.blit (m.sb.slotAddr i).toNat 64 fe.toBytes } : Mount).tick 1).wrote 0

@[simp] theorem tick_table (m : Mount) (n : ℕ) : (m.tick n).table = m.table := rfl

@[simp] theorem withUsed_table (m : Mount) (t : Buffer) :
    (m.withUsed t).table = m.table.withUsed t := rfl

@[simp] theorem table_used (m : Mount) : m.table.used = m.usedBlocks := rfl

@[simp] theorem table_count (m : Mount) : m.table.count = m.sb.entryCount.toNat := rfl

@[simp] theorem stored_sb (m : Mount) (i fe) : (m.stored i fe).sb = m.sb := rfl

@[simp] theorem stored_usedBlocks (m : Mount) (i fe) :
    (m.stored i fe).usedBlocks = m.usedBlocks := rfl

theorem stored_entry (m : Mount) (i j : ℕ) (fe : SfsFileEntry) : (m.stored i fe).table.entry j =
    if m.sb.slotAddr j = m.sb.slotAddr i then fe else m.table.entry j :=
  rawEntry_blit m.sb m.dev i j fe

end Mount

variable {κ : Kernel} {m : Mount} {i : ℕ}

/-! ### One slot -/

theorem slotAddr_eq (sb : SfsSuperBlock) (i : ℕ) : sb.entryTableBlockStart * sb.blockSize +
    UInt32.ofInt ((i : ℤ) * 64) = sb.slotAddr i := by
  rw [SfsSuperBlock.slotAddr]

theorem readEntry_reads (h : κ.Reads m.breads (m.sb.slotAddr i)) :
    readEntry κ m i = (m.tick 1, .ok (m.table.entry i)) := by
  have hwin : ∀ j, ((m.dev.window ((m.sb.slotAddr i / κ.bdBlockSize).toNat *
      κ.bdBlockSize.toNat)).window (m.sb.slotAddr i % κ.bdBlockSize).toNat) j =
      m.dev.window (m.sb.slotAddr i).toNat j := by
    intro j
    simp only [Store.window_apply, UInt32.toNat_div, UInt32.toNat_mod, ← Nat.add_assoc,
      Nat.div_add_mod']
  simp only [readEntry, readFromRealSfs, slotAddr_eq, if_neg h.1, sbBread, if_pos h.2, Except.map,
    Mount.tick, Mount.table, rawEntry]
  rw [SfsFileEntry.ofBytes_congr fun j _ => hwin j]

theorem readEntry_unread (h : ¬ κ.Reads m.breads (m.sb.slotAddr i)) :
    ∃ c e, readEntry κ m i = (m.tick c, .error e) := by
  simp only [readEntry, readFromRealSfs, slotAddr_eq, sbBread]
  by_cases hin : m.sb.slotAddr i % κ.bdBlockSize + 64 > κ.bdBlockSize
  · rw [if_pos hin]
    exact ⟨0, -einval, rfl⟩
  · rw [if_neg hin, if_neg fun hb => h ⟨hin, hb⟩]
    exact ⟨1, -eio, rfl⟩

theorem writeEntry_reads (h : κ.Reads m.breads (m.sb.slotAddr i)) (fe : SfsFileEntry) :
    writeEntry κ m i fe = (m.stored i fe, 0) := by
  have haddr : (m.sb.slotAddr i / κ.bdBlockSize).toNat * κ.bdBlockSize.toNat +
      (m.sb.slotAddr i % κ.bdBlockSize).toNat = (m.sb.slotAddr i).toNat := by
    rw [UInt32.toNat_div, UInt32.toNat_mod, Nat.div_add_mod']
  simp only [writeEntry, writeToRealSfs, writeToDevice, slotAddr_eq, if_neg h.1, sbBread,
    if_pos h.2, haddr]
  rfl

/-- A write that fails has a code of its own, which is not -1. -/
theorem writeEntry_unread (h : ¬ κ.Reads m.breads (m.sb.slotAddr i)) (fe : SfsFileEntry) :
    ∃ c e, e ≠ 0 ∧ e ≠ -1 ∧ writeEntry κ m i fe = ((m.tick c).wrote e, e) := by
  simp only [writeEntry, writeToRealSfs, writeToDevice, slotAddr_eq, sbBread]
  by_cases hin : m.sb.slotAddr i % κ.bdBlockSize + 64 > κ.bdBlockSize
  · rw [if_pos hin]
    exact ⟨0, -einval, by decide, by decide, rfl⟩
  · rw [if_neg hin, if_neg fun hb => h ⟨hin, hb⟩]
    exact ⟨1, -eio, by decide, by decide, rfl⟩

theorem raw_scanned (κ : Kernel) (m : Mount) :
    Scanned κ m m.table fun i => κ.Reads (m.breads + i) (m.sb.slotAddr i) where
  count := rfl
  read := fun i _ h => by
    rw [readEntry_reads (m := m.tick i) h, Mount.tick_tick]
    rfl
  fails := fun i _ h => by
    obtain ⟨c, e, hc⟩ := readEntry_unread (m := m.tick i) h
    exact ⟨i + c, e, by rw [hc, Mount.tick_tick]⟩

/-! ### The operations on a table that can be read -/

theorem lookup_absent {fn : List UInt8} (hs : m.table.slotOf fn = none) :
    ∃ c, sfsLookup κ m fn = (m.tick c, -1, .zero) :=
  (raw_scanned κ m).lookup_fails fun ⟨_, ht, _⟩ => absurd (hs.symm.trans ht) (by simp)

theorem remove_absent {fn : List UInt8} (hs : m.table.slotOf fn = none) :
    ∃ c, sfsRemove κ m fn = (m.tick c, -1) := by
  obtain ⟨c, hc⟩ := lookup_absent (κ := κ) hs
  exact ⟨c, by rw [sfsRemove, hc]; rfl⟩

section Readable

variable (hR : κ.Readable m.sb)

include hR

theorem readable_scan (k : ℕ) (hk : k ≤ m.table.count) :
    ∀ i < k, κ.Reads (m.breads + i) (m.sb.slotAddr i) :=
  fun i hi => hR _ i (Nat.lt_of_lt_of_le hi hk)

theorem lookup_found {fn : List UInt8} {s : ℕ} (hs : m.table.slotOf fn = some s) :
    sfsLookup κ m fn = (m.tick (s + 1), (s : ℤ) + 1, m.table.entry s) :=
  (raw_scanned κ m).lookup_found hs
    (readable_scan hR _ (Nat.succ_le_of_lt (Volume.slotOf_eq_some.mp hs).1))

/-- The free slot that a creation writes. -/
theorem create_writes {fn : List UInt8} (perms : ℤ) (now : UInt32)
    (hs : m.table.slotOf fn = none) (hi : m.table.freeSlot = some i) :
    sfsCreate κ m fn perms now =
      ((m.tick m.table.count).stored i (.fresh fn now (UInt32.ofInt perms)), (i : ℤ) + 1) := by
  have hw : κ.Reads (m.tick m.table.count).breads (m.sb.slotAddr i) :=
    hR _ i (Volume.freeSlot_eq_some.mp hi).1
  have hne : ¬ (0 : ℤ) = -1 := by decide
  rw [sfsCreate, (raw_scanned κ m).createLoop_absent hs (readable_scan hR _ (Nat.le_refl _)), hi]
  simp only
  rw [writeEntry_reads (m := m.tick m.table.count) hw]
  simp only
  rw [if_neg hne, s2vInodeNum]

/-- A creation fails when the name is taken or no slot is free. -/
theorem create_fails {fn : List UInt8} (perms : ℤ) (now : UInt32)
    (h : m.table.slotOf fn ≠ none ∨ m.table.freeSlot = none) :
    ∃ c, sfsCreate κ m fn perms now = (m.tick c, -1) := by
  by_cases hs : m.table.slotOf fn = none
  · have hf : m.table.freeSlot = none := h.resolve_left fun hne => hne hs
    refine ⟨m.table.count, ?_⟩
    rw [sfsCreate, (raw_scanned κ m).createLoop_absent hs (readable_scan hR _ (Nat.le_refl _)), hf]
  · obtain ⟨c, hc⟩ := (raw_scanned κ m).createLoop_fails fun h => hs h.1
    exact ⟨c, by rw [sfsCreate, hc]⟩

theorem remove_found {fn : List UInt8} (hi : m.table.slotOf fn = some i) :
    sfsRemove κ m fn =
      (((m.tick (i + 1)).withUsed (m.usedBlocks.clear (m.table.entry i).prefixPtrs)).stored i .zero,
        (i : ℤ) + 1) := by
  have hw : κ.Reads (m.tick (i + 1)).breads (m.sb.slotAddr i) :=
    hR _ i (Volume.slotOf_eq_some.mp hi).1
  have hne : ¬ (i : ℤ) + 1 = -1 := by omega
  have hne0 : ¬ (0 : ℤ) = -1 := by decide
  rw [sfsRemove, lookup_found hR hi]
  simp only [if_neg hne, putBlocks_eq, v2s_succ, Mount.tick_usedBlocks]
  rw [writeEntry_reads (m := (m.tick (i + 1)).withUsed (m.usedBlocks.clear _)) hw]
  simp only [if_neg hne0]
  rfl

theorem fileEntry_read (hi : i < m.table.count) :
    sfsGetFileEntry κ m ((i : ℤ) + 1) = (m.tick 1, .ok (m.table.entry i)) := by
  rw [sfsGetFileEntry, v2s_succ, readEntry_reads (hR _ i hi)]

/-- A call of `sfs_get_block` leaves the mount or points the inode at a free block. -/
theorem getBlock_cases (hi : i < m.table.count) (hle : m.table.start ≤ m.sb.partitionSize.toNat)
    (hs : m.usedBlocks.size = m.sb.partitionSize.toNat) (h31 : m.usedBlocks.size ≤ 2 ^ 31)
    (iblock : ℕ) (create : Bool) :
    (∃ c, (sfsGetBlock κ m ((i : ℤ) + 1) iblock create).1 = m.tick c) ∨
      ∃ k b, b < m.usedBlocks.size ∧ (sfsGetBlock κ m ((i : ℤ) + 1) iblock create).1 =
        ((m.tick 1).withUsed (m.usedBlocks.take b)).stored i
          ((m.table.entry i).point k (UInt32.ofNat b)) := by
  by_cases hk : iblock < 9
  · rw [sfsGetBlock, dif_pos hk, fileEntry_read hR hi]
    by_cases hz : (m.table.entry i).blocks ⟨iblock, hk⟩ = 0 ∧ create = true
    · simp only [if_pos hz.1, if_pos hz.2]
      rw [sfsGetDataBlock_scan (m := m.tick 1) hle hs h31, Mount.tick_usedBlocks, Mount.tick_sb]
      cases hfree : m.usedBlocks.free m.sb.dataBlockStart.toNat with
      | nil =>
        left
        exact ⟨1, rfl⟩
      | cons b bs =>
        right
        have hlt := (Volume.free_head (v := m.table) hfree).2.1
        have hb : UInt32.ofNat b ≠ UInt32.ofInt (-1) :=
          ofNat_ne_neg_one (Nat.lt_of_lt_of_le hlt h31)
        have hw : κ.Reads ((m.tick 1).withUsed (m.usedBlocks.take b)).breads
            (m.sb.slotAddr i) := hR _ i hi
        have hne : ¬ (0 : ℤ) = -1 := by decide
        refine ⟨⟨iblock, hk⟩, b, hlt, ?_⟩
        simp only [ofInt_natCast, if_neg hb, sfsUpdateFileEntry, v2s_succ]
        rw [writeEntry_reads (m := (m.tick 1).withUsed (m.usedBlocks.take b)) hw]
        simp only [if_neg hne]
    · refine Or.inl ⟨1, ?_⟩
      by_cases h0 : (m.table.entry i).blocks ⟨iblock, hk⟩ = 0
      · simp only [if_pos h0, if_neg fun hc => hz ⟨h0, hc⟩]
      · simp only [if_neg h0]
  · rw [sfsGetBlock_far hk]
    exact Or.inl ⟨0, rfl⟩

end Readable

/-- The faults that `sfs_update` records before its loop. -/
theorem firstIndex_divBlockSize (m : Mount) (q : ℤ) : ∃ t, firstIndex (divBlockSize m) q =
    m.withUsed t ∧ t.size = m.usedBlocks.size ∧
      (t.fault = false ↔ m.usedBlocks.fault = false ∧ m.sb.blockSize ≠ 0 ∧ 0 ≤ q) := by
  unfold firstIndex divBlockSize
  by_cases hq : q < 0
  · rw [if_pos hq]
    refine ⟨{ m.usedBlocks with fault := true }, ?_, rfl, by simp [hq]⟩
    split_ifs <;> rfl
  · rw [if_neg hq]
    by_cases h0 : m.sb.blockSize = 0
    · exact ⟨{ m.usedBlocks with fault := true }, by rw [if_pos h0]; rfl, rfl, by simp [h0]⟩
    · exact ⟨m.usedBlocks, by rw [if_neg h0]; rfl, rfl, by simp [h0, Int.not_lt.mp hq]⟩

/-- A call of `sfs_update` that reads its entry: what it stores, and when it made no
access out of range. -/
theorem update_stored (hR : κ.Readable m.sb) (hi : i < m.table.count)
    (size timestamp perms : Option ℤ) {fe : SfsFileEntry}
    (hfe : fe = (m.table.entry i).withAttrs size timestamp perms) {q : ℤ}
    (hq : q = asInt ((fe.size + m.sb.blockSize - 1) / m.sb.blockSize)) :
    ∃ t : Buffer, sfsUpdate κ m ((i : ℤ) + 1) size timestamp perms =
        (((m.tick 1).withUsed t).stored i (fe.keep q.toNat), 0) ∧
      t.size = m.usedBlocks.size ∧ (t.fault = false ↔
        (m.usedBlocks.fault = false ∧ m.sb.blockSize ≠ 0 ∧ 0 ≤ q) ∧
          ∀ b ∈ fe.dropped q.toNat, 0 ≤ asInt b ∧ asInt b < m.usedBlocks.size) := by
  obtain ⟨t, ht, hsize, hfault⟩ := firstIndex_divBlockSize (m.tick 1) q
  have hw : κ.Reads ((m.tick 1).withUsed (t.clear (fe.dropped q.toNat))).breads
      (m.sb.slotAddr i) := hR _ i hi
  refine ⟨t.clear (fe.dropped q.toNat), ?_, ?_, ?_⟩
  · have hdiv : ∀ n, (divBlockSize (Mount.tick m n)).sb = m.sb := by
      intro n
      unfold divBlockSize
      split_ifs <;> rfl
    rw [sfsUpdate, fileEntry_read hR hi]
    simp only [← hfe, hdiv, ← hq, ht, dropBlocks_from, v2s_succ, Mount.withUsed_usedBlocks,
      Mount.withUsed_withUsed]
    rw [writeEntry_reads (m := (m.tick 1).withUsed (t.clear (fe.dropped q.toNat))) hw]
  · rw [Buffer.size_clear, hsize, Mount.tick_usedBlocks]
  · rw [Buffer.fault_clear, hfault, hsize]
    rfl

end Linuxpedia.Sfs
