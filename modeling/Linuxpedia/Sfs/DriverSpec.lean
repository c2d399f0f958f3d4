import Linuxpedia.Sfs.DriverTable
import Linuxpedia.Sfs.VolumeOps

/-! What each operation of the driver does to a mount, for any pattern of failing
reads: one equation a function, one for each way its reads can go. The reading of
slot `i` is call number `m.breads` of `sb_bread` and the writing that follows it
the next one. -/

namespace Linuxpedia.Sfs

open Lib

namespace Mount

/-- The mount with another allocation table. -/
def withUsed (m : Mount) (t : Buffer) : Mount := { m with usedBlocks := t }

@[simp] theorem withUsed_sb (m : Mount) (t) : (m.withUsed t).sb = m.sb := rfl
@[simp] theorem withUsed_dev (m : Mount) (t) : (m.withUsed t).dev = m.dev := rfl
@[simp] theorem withUsed_breads (m : Mount) (t) : (m.withUsed t).breads = m.breads := rfl
@[simp] theorem withUsed_writes (m : Mount) (t) : (m.withUsed t).writes = m.writes := rfl
@[simp] theorem withUsed_usedBlocks (m : Mount) (t) : (m.withUsed t).usedBlocks = t := rfl

@[simp] theorem withUsed_volume (m : Mount) (t : Buffer) :
    (m.withUsed t).volume = m.volume.withUsed t := rfl

theorem withUsed_self (m : Mount) : m.withUsed m.usedBlocks = m := rfl

theorem withUsed_withUsed (m : Mount) (s t : Buffer) :
    (m.withUsed s).withUsed t = m.withUsed t := rfl

/-- Free the blocks `bs` and write slot `i`, the write being the next call of
`sb_bread`. -/
def released (m : Mount) (i : ℕ) (bs : List UInt32) (fe : SfsFileEntry) : Mount :=
  (((m.withUsed (m.usedBlocks.clear bs)).putEntry i fe).tick 1).wrote 0

/-- Take block `b` and write slot `i` with index `k` pointing at it. -/
def granted (m : Mount) (i : ℕ) (k : Fin 9) (b : ℕ) : Mount :=
  (((m.withUsed (m.usedBlocks.take b)).putEntry i
    ((entryAt m.dev i).point k (UInt32.ofNat b))).tick 1).wrote 0

@[simp] theorem released_volume (m : Mount) (i : ℕ) (bs : List UInt32) (fe : SfsFileEntry) :
    (m.released i bs fe).volume = m.volume.release i bs fe := by
  rw [released, wrote_volume, tick_volume, putEntry_volume, withUsed_volume]
  rfl

@[simp] theorem granted_volume (m : Mount) (i : ℕ) (k : Fin 9) (b : ℕ) :
    (m.granted i k b).volume = m.volume.grant i k b := by
  rw [granted, wrote_volume, tick_volume, putEntry_volume, withUsed_volume]
  rfl

@[simp] theorem released_sb (m : Mount) (i bs fe) : (m.released i bs fe).sb = m.sb := rfl
@[simp] theorem granted_sb (m : Mount) (i k b) : (m.granted i k b).sb = m.sb := rfl

namespace Wf

variable {m : Mount}

theorem tick (h : m.Wf) (n : ℕ) : (m.tick n).Wf := ⟨h.geometry, h.onDevice, h.size⟩

theorem wrote (h : m.Wf) (r : ℤ) : (m.wrote r).Wf := ⟨h.geometry, h.onDevice, h.size⟩

theorem withUsed (h : m.Wf) {t : Buffer} (ht : t.size = m.usedBlocks.size) : (m.withUsed t).Wf :=
  ⟨h.geometry, h.onDevice, ht.trans h.size⟩

/-- No entry overlaps the super block. -/
theorem putEntry (h : m.Wf) (i : ℕ) (fe : SfsFileEntry) : (m.putEntry i fe).Wf := by
  refine ⟨h.geometry, ?_, h.size⟩
  have hb : ∀ o ≤ 28, (m.putEntry i fe).dev.word o = m.dev.word o := fun o ho =>
    Store.word_congr fun k hk => Store.blit_outside _ _ (by omega)
  rw [putEntry_sb, ← h.onDevice]
  simp [SfsSuperBlock.ofBytes, hb]

theorem released (h : m.Wf) (i : ℕ) (bs : List UInt32) (fe : SfsFileEntry) :
    (m.released i bs fe).Wf :=
  (((h.withUsed (by simp)).putEntry i fe).tick 1).wrote 0

theorem granted (h : m.Wf) (i : ℕ) (k : Fin 9) (b : ℕ) : (m.granted i k b).Wf :=
  (((h.withUsed (by simp)).putEntry i _).tick 1).wrote 0

theorem size_lt (h : m.Wf) : m.volume.used.size ≤ 2 ^ 31 := by
  have hP := h.geometry.small
  have hs := h.size
  simp only [volume]
  omega

theorem start_le (h : m.Wf) : m.volume.start ≤ m.volume.used.size := by
  have hP := h.geometry.start_le
  have hs := h.size
  simp only [volume]
  omega

theorem start_pos (h : m.Wf) : 0 < m.volume.start := by
  have ht := h.geometry.table_fits
  simp only [volume]
  omega

end Wf

end Mount

variable {κ : Kernel} {m : Mount} {i : ℕ}

/-! ### Reading and writing the entry of an inode -/

theorem v2s_succ (i : ℕ) : v2sInodeNum ((i : ℤ) + 1) = i := by
  rw [v2sInodeNum]
  omega

theorem sfsGetFileEntry_ok (hκ : κ.Sound) (hg : Geometry m.sb) (hi : i < m.sb.entryCount.toNat)
    (hr : κ.bread m.breads (κ.slotBlock i) = true) :
    sfsGetFileEntry κ m ((i : ℤ) + 1) = (m.tick 1, .ok (entryAt m.dev i)) := by
  rw [sfsGetFileEntry, v2s_succ, readEntry_eq hκ hg hi, if_pos hr]

theorem sfsGetFileEntry_fails (hκ : κ.Sound) (hg : Geometry m.sb)
    (hi : i < m.sb.entryCount.toNat) (hr : ¬ κ.bread m.breads (κ.slotBlock i) = true) :
    sfsGetFileEntry κ m ((i : ℤ) + 1) = (m.tick 1, .error (-1)) := by
  rw [sfsGetFileEntry, v2s_succ, readEntry_eq hκ hg hi, if_neg hr]

theorem writeEntry_ok (hκ : κ.Sound) (hg : Geometry m.sb) (hi : i < m.sb.entryCount.toNat)
    (hw : κ.bread m.breads (κ.slotBlock i) = true) (fe : SfsFileEntry) :
    writeEntry κ m i fe = (((m.putEntry i fe).tick 1).wrote 0, 0) := by
  rw [writeEntry_eq hκ hg hi, if_pos hw]

theorem writeEntry_fails (hκ : κ.Sound) (hg : Geometry m.sb) (hi : i < m.sb.entryCount.toNat)
    (hw : ¬ κ.bread m.breads (κ.slotBlock i) = true) (fe : SfsFileEntry) :
    writeEntry κ m i fe = ((m.tick 1).wrote (-eio), -eio) := by
  rw [writeEntry_eq hκ hg hi, if_neg hw]

/-! ### The freeing loops -/

theorem putBlocks_eq (bs : List UInt32) (m : Mount) :
    putBlocks bs m = m.withUsed (m.usedBlocks.clear (bs.takeWhile (· != 0))) := by
  induction bs generalizing m with
  | nil => rfl
  | cons b bs ih =>
    rw [putBlocks, List.takeWhile_cons]
    by_cases hb : b = 0
    · simp [hb, Mount.withUsed_self]
    · rw [if_neg hb, ih]
      simp [hb, sfsPutDataBlock, Mount.withUsed]

theorem dropBlocks_eq (is : List (Fin 9)) (hnd : is.Nodup) (m : Mount) (fe : SfsFileEntry) :
    dropBlocks is m fe =
      (m.withUsed (m.usedBlocks.clear ((is.map fe.blocks).filter (· != 0))),
        { fe with blocks := fun k => if k ∈ is then 0 else fe.blocks k }) := by
  induction is generalizing m fe with
  | nil => simp [dropBlocks, Mount.withUsed_self]
  | cons i is ih =>
    obtain ⟨hi, hnd⟩ := List.nodup_cons.mp hnd
    have hmap : is.map (fe.point i 0).blocks = is.map fe.blocks := by
      apply List.map_congr_left
      intro k hk
      refine (Volume.point_blocks fe i k 0).trans (if_neg ?_)
      rintro rfl
      exact hi hk
    rw [dropBlocks]
    by_cases h0 : fe.blocks i = 0
    · rw [if_neg (by simpa using h0), ih hnd]
      simp only [List.map_cons, h0, List.filter_cons, bne_self_eq_false, Bool.false_eq_true,
        ↓reduceIte, List.mem_cons, Prod.mk.injEq, true_and]
      refine SfsFileEntry.ext rfl rfl rfl rfl (funext fun k => ?_)
      by_cases hk : k = i <;> simp [hk, h0]
    · rw [if_pos h0, ih hnd, hmap]
      simp only [List.map_cons, List.filter_cons, bne_iff_ne, ne_eq, h0, not_false_eq_true,
        ↓reduceIte, Buffer.clear_cons, List.mem_cons, Prod.mk.injEq]
      refine ⟨rfl, SfsFileEntry.ext rfl rfl rfl rfl (funext fun k => ?_)⟩
      simp only [Volume.point_blocks]
      by_cases hk : k = i <;> simp [hk]

/-- The loop of `sfs_update` drops the pointers from index `n` on. -/
theorem dropBlocks_from (n : ℕ) (m : Mount) (fe : SfsFileEntry) :
    dropBlocks ((List.finRange 9).drop n) m fe =
      (m.withUsed (m.usedBlocks.clear (fe.dropped n)), fe.keep n) := by
  have hnd : ((List.finRange 9).drop n).Nodup := (List.nodup_finRange 9).sublist (List.drop_sublist _ _)
  rw [dropBlocks_eq _ hnd]
  simp only [SfsFileEntry.mem_drop_finRange]
  rfl

/-! ### `sfs_create` -/

/-- A creation fails when the name is taken, a read fails or no slot is free. -/
theorem sfsCreate_fails (hκ : κ.Sound) (hg : Geometry m.sb) {fn : List UInt8} (perms : ℤ)
    (now : UInt32) (h : ¬ (m.volume.slotOf fn = none ∧ κ.Scans m m.sb.entryCount.toNat ∧
      ∃ i, m.volume.freeSlot = some i)) :
    ∃ c, sfsCreate κ m fn perms now = (m.tick c, -1) := by
  by_cases hs : m.volume.slotOf fn = none ∧ κ.Scans m m.sb.entryCount.toNat
  · refine ⟨m.sb.entryCount.toNat, ?_⟩
    have hf : m.volume.freeSlot = none := by
      by_contra hne
      exact h ⟨hs.1, hs.2, Option.ne_none_iff_exists'.mp hne⟩
    rw [sfsCreate, sfsCreateLoop_absent hκ hg hs.1 hs.2, hf]
  · obtain ⟨c, hc⟩ := sfsCreateLoop_fails hκ hg hs
    exact ⟨c, by rw [sfsCreate, hc]⟩

/-- The entry is written to the first free slot after the whole table was read. -/
theorem sfsCreate_writes (hκ : κ.Sound) (hg : Geometry m.sb) {fn : List UInt8} (perms : ℤ)
    (now : UInt32) (hs : m.volume.slotOf fn = none) (hr : κ.Scans m m.sb.entryCount.toNat)
    (hi : m.volume.freeSlot = some i) :
    sfsCreate κ m fn perms now =
      if κ.bread (m.breads + m.sb.entryCount.toNat) (κ.slotBlock i) then
        ((m.tick m.sb.entryCount.toNat).released i [] (.fresh fn now (UInt32.ofInt perms)),
          (i : ℤ) + 1)
      else ((m.tick (m.sb.entryCount.toNat + 1)).wrote (-eio), (i : ℤ) + 1) := by
  have hlt : i < m.sb.entryCount.toNat := (Volume.freeSlot_eq_some.mp hi).1
  rw [sfsCreate, sfsCreateLoop_absent hκ hg hs hr, hi]
  by_cases hw : κ.bread (m.breads + m.sb.entryCount.toNat) (κ.slotBlock i) = true
  · simp only [writeEntry_ok (m := m.tick m.sb.entryCount.toNat) hκ hg hlt hw, if_pos hw]
    rfl
  · simp only [writeEntry_fails (m := m.tick m.sb.entryCount.toNat) hκ hg hlt hw, if_neg hw,
      Mount.tick_tick]
    rfl

/-! ### `sfs_remove` -/

theorem sfsRemove_fails (hκ : κ.Sound) (hg : Geometry m.sb) {fn : List UInt8}
    (h : ¬ ∃ s, m.volume.slotOf fn = some s ∧ κ.Scans m (s + 1)) :
    ∃ c, sfsRemove κ m fn = (m.tick c, -1) := by
  obtain ⟨c, hc⟩ := sfsLookup_fails hκ hg h
  exact ⟨c, by rw [sfsRemove, hc]; rfl⟩

/-- The blocks are freed before the cleared entry is written. -/
theorem sfsRemove_writes (hκ : κ.Sound) (hg : Geometry m.sb) {fn : List UInt8}
    (hi : m.volume.slotOf fn = some i) (hr : κ.Scans m (i + 1)) :
    sfsRemove κ m fn =
      if κ.bread (m.breads + (i + 1)) (κ.slotBlock i) then
        ((m.tick (i + 1)).released i (entryAt m.dev i).prefixPtrs .zero, (i : ℤ) + 1)
      else (((m.tick (i + 2)).withUsed (m.usedBlocks.clear (entryAt m.dev i).prefixPtrs)).wrote
        (-eio), (i : ℤ) + 1) := by
  have hlt : i < m.sb.entryCount.toNat := (Volume.slotOf_eq_some.mp hi).1
  have hne : ((i : ℤ) + 1) ≠ -1 := by omega
  rw [sfsRemove, sfsLookup_found hκ hg hi hr]
  simp only [if_neg hne, v2s_succ, putBlocks_eq, Mount.tick_usedBlocks]
  by_cases hw : κ.bread (m.breads + (i + 1)) (κ.slotBlock i) = true
  · rw [writeEntry_ok (m := (m.tick (i + 1)).withUsed _) hκ hg hlt hw, if_pos hw]
    rfl
  · rw [writeEntry_fails (m := (m.tick (i + 1)).withUsed _) hκ hg hlt hw, if_neg hw]
    rfl

/-! ### `sfs_update` -/

theorem sfsUpdate_unread (hκ : κ.Sound) (hg : Geometry m.sb) (hi : i < m.sb.entryCount.toNat)
    (hr : ¬ κ.bread m.breads (κ.slotBlock i) = true) (size timestamp perms : Option ℤ) :
    sfsUpdate κ m ((i : ℤ) + 1) size timestamp perms = (m.tick 1, -1) := by
  rw [sfsUpdate, sfsGetFileEntry_fails hκ hg hi hr]

/-- The dropped blocks are freed before the entry is written. -/
theorem sfsUpdate_writes (hκ : κ.Sound) (hg : Geometry m.sb) (hi : i < m.sb.entryCount.toNat)
    (hr : κ.bread m.breads (κ.slotBlock i) = true) (size timestamp perms : Option ℤ)
    {fe : SfsFileEntry} (hfe : fe = (entryAt m.dev i).withAttrs size timestamp perms) :
    sfsUpdate κ m ((i : ℤ) + 1) size timestamp perms =
      if κ.bread (m.breads + 1) (κ.slotBlock i) then
        ((m.tick 1).released i (fe.dropped fe.sizeBlocks) (fe.keep fe.sizeBlocks), 0)
      else (((m.tick 2).withUsed (m.usedBlocks.clear (fe.dropped fe.sizeBlocks))).wrote (-eio),
        -eio) := by
  have hb : (m.tick 1).sb.blockSize = 512 := hg.blockSize_eq
  have hne : ¬ ((512 : UInt32) = 0) := by decide
  have hn : asInt ((fe.size + 512 - 1) / 512) = fe.sizeBlocks := by
    have hlt : ((fe.size + 512 - 1) / 512).toNat < 2 ^ 31 := by
      have hmax := (fe.size + 512 - 1).toNat_lt
      rw [UInt32.toNat_div]
      change _ / 512 < _
      omega
    exact asInt_of_lt hlt
  have hpos : ¬ (fe.sizeBlocks : ℤ) < 0 := by omega
  rw [sfsUpdate, sfsGetFileEntry_ok hκ hg hi hr]
  simp only [divBlockSize, hb, if_neg hne, ← hfe, hn, firstIndex, if_neg hpos, Int.toNat_natCast,
    dropBlocks_from, v2s_succ, Mount.tick_usedBlocks]
  by_cases hw : κ.bread (m.breads + 1) (κ.slotBlock i) = true
  · rw [writeEntry_ok (m := (m.tick 1).withUsed _) hκ hg hi hw, if_pos hw]
    rfl
  · rw [writeEntry_fails (m := (m.tick 1).withUsed _) hκ hg hi hw, if_neg hw]
    rfl

/-! ### `sfs_get_block` -/

/-- The first free block from `data_block_start` on. -/
theorem sfsGetDataBlock_scan (hle : m.sb.dataBlockStart.toNat ≤ m.sb.partitionSize.toNat)
    (hs : m.usedBlocks.size = m.sb.partitionSize.toNat) (h31 : m.usedBlocks.size ≤ 2 ^ 31) :
    sfsGetDataBlock m = match m.usedBlocks.free m.sb.dataBlockStart.toNat with
      | [] => (m, -1)
      | b :: _ => (m.withUsed (m.usedBlocks.take b), b) := by
  rw [sfsGetDataBlock, Buffer.firstFit_ok _ _ _ (by omega) h31]
  cases m.usedBlocks.free m.sb.dataBlockStart.toNat <;> rfl

theorem sfsGetDataBlock_eq (hm : m.Wf) : sfsGetDataBlock m =
    match m.usedBlocks.free m.sb.dataBlockStart.toNat with
    | [] => (m, -1)
    | b :: _ => (m.withUsed (m.usedBlocks.take b), b) :=
  sfsGetDataBlock_scan hm.geometry.start_le hm.size hm.size_lt

theorem ofInt_natCast (b : ℕ) : UInt32.ofInt (b : ℤ) = UInt32.ofNat b := by
  apply UInt32.toNat_inj.mp
  simp [UInt32.ofInt, UInt32.toNat_ofNat']
  omega

/-- A block number of the partition is not the failure code. -/
theorem ofNat_ne_neg_one {b : ℕ} (hb : b < 2 ^ 31) : UInt32.ofNat b ≠ UInt32.ofInt (-1) := by
  intro h
  have hn := congrArg UInt32.toNat h
  rw [UInt32.toNat_ofNat', Nat.mod_eq_of_lt (by omega),
    show (UInt32.ofInt (-1)).toNat = 2 ^ 32 - 1 by decide] at hn
  omega

theorem sfsGetBlock_far {iblock : ℕ} (h : ¬ iblock < 9) (ino : ℤ) (create : Bool) :
    sfsGetBlock κ m ino iblock create = (m, -enospc, none) := by
  rw [sfsGetBlock, dif_neg h]

/-- A nonzero pointer is mapped, whatever the allocation table says. -/
theorem sfsGetBlock_pointer (hκ : κ.Sound) (hg : Geometry m.sb) (hi : i < m.sb.entryCount.toNat)
    (k : Fin 9) (create : Bool) (hr : κ.bread m.breads (κ.slotBlock i) = true)
    (hk : (entryAt m.dev i).blocks k ≠ 0) : sfsGetBlock κ m ((i : ℤ) + 1) k create =
      (m.tick 1, 0, some ((entryAt m.dev i).blocks k)) := by
  rw [sfsGetBlock, dif_pos k.isLt, sfsGetFileEntry_ok hκ hg hi hr]
  simp [hk]

section GetBlock

variable (hκ : κ.Sound) (hm : m.Wf) (hi : i < m.sb.entryCount.toNat) (k : Fin 9) (create : Bool)

include hκ hm hi

theorem sfsGetBlock_unread (hr : ¬ κ.bread m.breads (κ.slotBlock i) = true) :
    sfsGetBlock κ m ((i : ℤ) + 1) k create = (m.tick 1, -eio, none) := by
  rw [sfsGetBlock, dif_pos k.isLt, sfsGetFileEntry_fails hκ hm.geometry hi hr]

theorem sfsGetBlock_mapped (hr : κ.bread m.breads (κ.slotBlock i) = true)
    (hk : (entryAt m.dev i).blocks k ≠ 0) :
    sfsGetBlock κ m ((i : ℤ) + 1) k create =
      (m.tick 1, 0, some ((entryAt m.dev i).blocks k)) :=
  sfsGetBlock_pointer hκ hm.geometry hi k create hr hk

theorem sfsGetBlock_hole (hr : κ.bread m.breads (κ.slotBlock i) = true)
    (hk : (entryAt m.dev i).blocks k = 0) :
    sfsGetBlock κ m ((i : ℤ) + 1) k false = (m.tick 1, -eio, none) := by
  rw [sfsGetBlock, dif_pos k.isLt, sfsGetFileEntry_ok hκ hm.geometry hi hr]
  simp [hk]

theorem sfsGetBlock_full (hr : κ.bread m.breads (κ.slotBlock i) = true)
    (hk : (entryAt m.dev i).blocks k = 0)
    (hf : m.usedBlocks.free m.sb.dataBlockStart.toNat = []) :
    sfsGetBlock κ m ((i : ℤ) + 1) k true = (m.tick 1, -enospc, none) := by
  have hd : sfsGetDataBlock (m.tick 1) = (m.tick 1, -1) := by
    rw [sfsGetDataBlock_eq (hm.tick 1), Mount.tick_usedBlocks, Mount.tick_sb, hf]
  rw [sfsGetBlock, dif_pos k.isLt, sfsGetFileEntry_ok hκ hm.geometry hi hr]
  simp [hk, hd]

/-- The block is taken before the entry is written, and kept when that fails. -/
theorem sfsGetBlock_writes (hr : κ.bread m.breads (κ.slotBlock i) = true)
    (hk : (entryAt m.dev i).blocks k = 0) {b : ℕ} {bs : List ℕ}
    (hf : m.usedBlocks.free m.sb.dataBlockStart.toNat = b :: bs) :
    sfsGetBlock κ m ((i : ℤ) + 1) k true =
      if κ.bread (m.breads + 1) (κ.slotBlock i) then
        ((m.tick 1).granted i k b, 0, some (UInt32.ofNat b))
      else (((m.tick 2).withUsed (m.usedBlocks.take b)).wrote (-eio), 0, some (UInt32.ofNat b)) := by
  have hd : sfsGetDataBlock (m.tick 1) = ((m.tick 1).withUsed (m.usedBlocks.take b), (b : ℤ)) := by
    rw [sfsGetDataBlock_eq (hm.tick 1), Mount.tick_usedBlocks, Mount.tick_sb, hf]
  have hb : UInt32.ofNat b ≠ UInt32.ofInt (-1) := by
    have hlt := (Volume.free_head (v := m.volume) hf).2.1
    have hs := hm.size
    have hsmall := hm.geometry.small
    exact ofNat_ne_neg_one (by simp only [Mount.volume] at hlt; omega)
  rw [sfsGetBlock, dif_pos k.isLt, sfsGetFileEntry_ok hκ hm.geometry hi hr]
  simp only [hk, ↓reduceIte, hd, ofInt_natCast, hb, sfsUpdateFileEntry, v2s_succ]
  by_cases hw : κ.bread (m.breads + 1) (κ.slotBlock i) = true
  · rw [writeEntry_ok (m := (m.tick 1).withUsed _) hκ hm.geometry hi hw, if_pos hw]
    rfl
  · rw [writeEntry_fails (m := (m.tick 1).withUsed _) hκ hm.geometry hi hw, if_neg hw]
    rfl

end GetBlock

end Linuxpedia.Sfs
