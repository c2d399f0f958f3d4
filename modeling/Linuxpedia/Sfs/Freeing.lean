import Linuxpedia.Sfs.Ownership
import Linuxpedia.Sfs.Remount

/-! What a removal and a truncation free. `sfs_remove` stops at the first zero pointer
of the entry, so it frees the blocks of a file exactly when no pointer lies behind a
zero one. `sfs_update` tests every index from the rounded-up size on, so it frees what
it drops, holes or not, and a second call finds nothing left to drop. -/

namespace Linuxpedia.Sfs

open Lib

variable {κ : Kernel} {m : Mount} {i : ℕ}

/-! ### `sfs_remove` -/

/-- Between `m` and `m'` the blocks of slot `i`, and no others, were freed and the slot,
and no other, was cleared. -/
structure Mount.Freed (m m' : Mount) (i : ℕ) : Prop where
  freed : ∀ k, (entryAt m.dev i).blocks k ≠ 0 →
    m'.usedBlocks.cell ((entryAt m.dev i).blocks k).toNat = 0
  kept : ∀ b, (∀ k, (entryAt m.dev i).blocks k ≠ 0 → ((entryAt m.dev i).blocks k).toNat ≠ b) →
    m'.usedBlocks.cell b = m.usedBlocks.cell b
  cleared : entryAt m'.dev i = .zero
  others : ∀ j < m.sb.entryCount.toNat, j ≠ i → entryAt m'.dev j = entryAt m.dev j

/-- If `sfs_remove(fn)` succeeds, it found `fn` in a slot and freed that slot. -/
def Mount.RemovesExactly (κ : Kernel) (m : Mount) (fn : List UInt8) : Prop :=
  (sfsRemove κ m fn).2 ≠ -1 → ∃ i, m.volume.slotOf fn = some i ∧ m.Freed (sfsRemove κ m fn).1 i

/-- No pointer of the file `fn` lies behind a zero one. -/
def Mount.Contiguous (m : Mount) (fn : List UInt8) : Prop :=
  ∀ i, m.volume.slotOf fn = some i → ∀ k, (entryAt m.dev i).blocks k ≠ 0 →
    ∀ j < k, (entryAt m.dev i).blocks j ≠ 0

/-- The table and the entries after a removal that found slot `i`. -/
theorem Mount.Sane.remove_eq (hκ : κ.Reliable) (h : m.Sane) {fn : List UInt8}
    (hi : m.volume.slotOf fn = some i) : (sfsRemove κ m fn).2 = (i : ℤ) + 1 ∧
      (sfsRemove κ m fn).1.volume = m.volume.release i (m.volume.entry i).prefixPtrs .zero := by
  obtain ⟨m', he, hb⟩ := sfsRemove_refines hκ h.wf fn
  have hv := hb.volume
  simp only [Volume.remove, hi] at he hv
  rw [he]
  exact ⟨rfl, hv⟩

/-- The cells that a removal clears are those that the loop sees before the first zero
pointer. -/
theorem Mount.Sane.cell_release (h : m.Sane) (hi : i < m.volume.count) (b : ℕ) :
    (m.volume.release i (m.volume.entry i).prefixPtrs .zero).used.cell b =
      if b ∈ (m.volume.entry i).prefixPtrs.map UInt32.toNat then 0 else m.usedBlocks.cell b := by
  have hlt : ∀ c ∈ (m.volume.entry i).prefixPtrs, c.toNat < m.volume.used.size := by
    intro c hc
    obtain ⟨k, hk⟩ := Volume.held_of_mem_prefixPtrs hi hc
    exact h.owned.lt_size hk
  rw [Volume.release_used, Buffer.clear_ok _ _ h.wf.size_lt hlt]
  rfl

/-- The block behind a zero pointer is pointed at from there only, so the loop leaves it
marked. -/
theorem Mount.Sane.not_freed (hκ : κ.Reliable) (h : m.Sane) {fn : List UInt8}
    (hi : m.volume.slotOf fn = some i) {j k : Fin 9} (hk : (entryAt m.dev i).blocks k ≠ 0)
    (hj : j < k) (hz : (entryAt m.dev i).blocks j = 0) :
    (sfsRemove κ m fn).1.usedBlocks.cell ((entryAt m.dev i).blocks k).toNat ≠ 0 := by
  have hlive := (Volume.live_of_slotOf hi).1
  have hheld : m.volume.Held (i, k) ((m.volume.entry i).blocks k).toNat :=
    Volume.held_of_ne hlive hk
  have hnot : ((m.volume.entry i).blocks k).toNat ∉
      (m.volume.entry i).prefixPtrs.map UInt32.toNat := by
    intro hmem
    obtain ⟨c, hc, hck⟩ := List.mem_map.mp hmem
    obtain ⟨l, hl, hall⟩ := Volume.mem_prefixPtrs_iff.mp hc
    have hheld' : m.volume.Held (i, l) ((m.volume.entry i).blocks k).toNat :=
      ⟨hlive, by rw [hl, hck], hheld.2.2⟩
    obtain ⟨_, rfl⟩ := Prod.mk.inj (h.owned.ledger.inj hheld hheld')
    exact hall j hj.le hz
  have hused : (sfsRemove κ m fn).1.usedBlocks = _ := congrArg Volume.used (h.remove_eq hκ hi).2
  rw [hused, show entryAt m.dev i = m.volume.entry i from rfl, h.cell_release hlive, if_neg hnot]
  exact (h.owned.ledger.marked hheld).2

/-- Without a hole in front of a pointer the loop sees every pointer of the slot. -/
theorem Mount.Sane.freed (hκ : κ.Reliable) (h : m.Sane) {fn : List UInt8}
    (hi : m.volume.slotOf fn = some i) (hc : m.Contiguous fn) :
    m.Freed (sfsRemove κ m fn).1 i := by
  obtain ⟨_, hv⟩ := h.remove_eq hκ hi
  have hlive := (Volume.live_of_slotOf hi).1
  have hused : (sfsRemove κ m fn).1.usedBlocks = _ := congrArg Volume.used hv
  have hent : entryAt (sfsRemove κ m fn).1.dev = _ := congrArg Volume.entry hv
  refine ⟨?_, ?_, ?_, ?_⟩
  · intro k hk
    have hmem : (m.volume.entry i).blocks k ∈ (m.volume.entry i).prefixPtrs := by
      refine Volume.mem_prefixPtrs_iff.mpr ⟨k, rfl, fun j hj => ?_⟩
      rcases hj.lt_or_eq with hlt | rfl
      · exact hc i hi k hk j hlt
      · exact hk
    rw [hused, h.cell_release hlive]
    exact if_pos (List.mem_map_of_mem hmem)
  · intro b hb
    have hnot : b ∉ (m.volume.entry i).prefixPtrs.map UInt32.toNat := by
      intro hmem
      obtain ⟨c, hcm, rfl⟩ := List.mem_map.mp hmem
      obtain ⟨k, rfl, hall⟩ := Volume.mem_prefixPtrs_iff.mp hcm
      exact hb k (hall k le_rfl) rfl
    rw [hused, h.cell_release hlive, if_neg hnot]
  · rw [hent, Volume.release_entry, if_pos rfl]
  · intro j _ hj
    rw [hent, Volume.release_entry, if_neg hj]
    rfl

theorem Mount.Sane.removesExactly_iff (hκ : κ.Reliable) (h : m.Sane) (fn : List UInt8) :
    m.RemovesExactly κ fn ↔ m.Contiguous fn := by
  constructor
  · intro hex i hi k hk j hj hz
    have hcode : (sfsRemove κ m fn).2 ≠ -1 := by
      rw [(h.remove_eq hκ hi).1]
      omega
    obtain ⟨i', hi', hf⟩ := hex hcode
    obtain rfl : i = i' := Option.some.inj (hi.symm.trans hi')
    exact h.not_freed hκ hi hk hj hz (hf.freed k hk)
  · intro hc hcode
    cases hs : m.volume.slotOf fn with
    | none =>
      obtain ⟨m', he, _⟩ := sfsRemove_refines hκ h.wf fn
      rw [he, Volume.remove, hs] at hcode
      exact absurd rfl hcode
    | some i => exact ⟨i, rfl, h.freed hκ hs hc⟩

/-- In every state that a mount of a formatted image reaches, a removal frees exactly the
blocks of the file when no pointer of it lies behind a zero one, and only then. After
a run that grants no block behind a zero pointer every removal does. -/
theorem remove_frees_iff (hκ : κ.Reliable) (hm : Mounted κ m) (ops : List Op)
    (hl : LegalRun κ m ops) (fn : List UInt8) :
    ((Run.exec (step κ) m ops).RemovesExactly κ fn ↔ (Run.exec (step κ) m ops).Contiguous fn) ∧
    (Run.Along (step κ) (fun m op => op.Gapless m) m ops →
      (Run.exec (step κ) m ops).RemovesExactly κ fn) := by
  have hsane : (Run.exec (step κ) m ops).Sane := hl.sane hκ (hm.fresh hκ).sane
  have hiff := hsane.removesExactly_iff hκ fn
  refine ⟨hiff, fun hg => hiff.mpr fun i hi k hk => ?_⟩
  have hset : (Run.exec (step κ) m ops).Settled :=
    Run.exec_inv (fun (n : Mount) (op : Op) (hs : n.Settled)
      (hop : op.Legal n.volume ∧ op.Gapless n) => hs.step hκ hop.1 hop.2)
      (hm.fresh hκ).settled (hl.and hg)
  exact hset.packed i (Volume.live_of_slotOf hi).1 k hk

/-- A file with two blocks, the second one behind the first. -/
theorem remove_frees_sample : (Run.exec (step sampleKernel) sampleMount
    [.create [97] 7 0, .getBlock 1 0 true, .getBlock 1 1 true]).RemovesExactly sampleKernel [97] := by
  refine (remove_frees_iff sampleKernel_reliable sampleMount_mounted
    [.create [97] 7 0, .getBlock 1 0 true, .getBlock 1 1 true]
    ⟨trivial, ⟨0, rfl, by decide +kernel⟩, ⟨0, rfl, by decide +kernel⟩, trivial⟩ [97]).2
    ⟨trivial, ?_, ?_, trivial⟩
  · rintro i k _ hk _ _ j hj
    have hk0 : k.val = 0 := hk.symm
    have hjk : j.val < k.val := hj
    omega
  · rintro i k hi hk _ _ j hj
    obtain rfl : i = 0 := by omega
    have hk1 : k.val = 1 := hk.symm
    have hjk : j.val < k.val := hj
    obtain rfl : j = 0 := Fin.ext (by omega)
    decide +kernel

/-- A file whose only block was mapped at index 1: the removal leaves the block marked. -/
theorem remove_leaks : LegalRun sampleKernel sampleMount
      [.create [97] 7 0, .getBlock 1 1 true] ∧
    ¬ (Run.exec (step sampleKernel) sampleMount
      [.create [97] 7 0, .getBlock 1 1 true]).RemovesExactly sampleKernel [97] := by
  refine ⟨⟨trivial, ⟨0, rfl, by decide +kernel⟩, trivial⟩, fun h => ?_⟩
  obtain ⟨i, hi, hf⟩ := h (by decide +kernel)
  have h0 : (Run.exec (step sampleKernel) sampleMount
      [.create [97] 7 0, .getBlock 1 1 true]).volume.slotOf [97] = some 0 := by decide +kernel
  obtain rfl : 0 = i := Option.some.inj (h0.symm.trans hi)
  exact absurd (hf.freed 1 (by decide +kernel)) (by decide +kernel)

/-! ### `sfs_update` -/

namespace SfsFileEntry

variable (fe : SfsFileEntry) (n : ℕ)

@[simp] theorem keep_keep : (fe.keep n).keep n = fe.keep n := by
  refine SfsFileEntry.ext rfl rfl rfl rfl (funext fun k => ?_)
  simp only [keep]
  split_ifs <;> rfl

@[simp] theorem sizeBlocks_keep : (fe.keep n).sizeBlocks = fe.sizeBlocks := rfl

/-- Nothing is left to drop. -/
@[simp] theorem dropped_keep : (fe.keep n).dropped n = [] :=
  dropped_eq_nil.mpr fun _ hk => if_pos hk

/-- The same attributes again. -/
theorem withAttrs_keep (size timestamp perms : Option ℤ) :
    ((fe.withAttrs size timestamp perms).keep n).withAttrs size timestamp perms =
      (fe.withAttrs size timestamp perms).keep n := by
  refine SfsFileEntry.ext rfl ?_ ?_ ?_ rfl
  · cases size <;> rfl
  · cases timestamp <;> rfl
  · cases perms with
    | none => rfl
    | some p =>
      simp only [withAttrs, keep, Option.elim_some]
      split_ifs <;> rfl

end SfsFileEntry

/-- The mount after an update of slot `i`. -/
theorem sfsUpdate_eq (hκ : κ.Reliable) (hm : m.Wf) (hi : i < m.sb.entryCount.toNat)
    (size timestamp perms : Option ℤ) {fe : SfsFileEntry}
    (hfe : fe = (entryAt m.dev i).withAttrs size timestamp perms) :
    sfsUpdate κ m ((i : ℤ) + 1) size timestamp perms =
      ((m.tick 1).released i (fe.dropped fe.sizeBlocks) (fe.keep fe.sizeBlocks), 0) := by
  rw [sfsUpdate_writes hκ.toSound hm.geometry hi (hκ.bread _ _) size timestamp perms hfe,
    if_pos (hκ.bread _ _)]

/-- Repeating an update changes neither the device nor the allocation table. -/
theorem sfsUpdate_again (hκ : κ.Reliable) (hm : m.Wf) (hi : i < m.sb.entryCount.toNat)
    (size timestamp perms : Option ℤ) {m' : Mount}
    (hm' : m' = (sfsUpdate κ m ((i : ℤ) + 1) size timestamp perms).1) :
    (sfsUpdate κ m' ((i : ℤ) + 1) size timestamp perms).1.dev = m'.dev ∧
      (sfsUpdate κ m' ((i : ℤ) + 1) size timestamp perms).1.usedBlocks = m'.usedBlocks := by
  set fe := (entryAt m.dev i).withAttrs size timestamp perms with hfe
  rw [sfsUpdate_eq hκ hm hi size timestamp perms hfe] at hm'
  have hent : entryAt m'.dev i = fe.keep fe.sizeBlocks := by
    rw [hm']
    exact (entryAt_blit _ i i _).trans (if_pos rfl)
  have hagain : fe.keep fe.sizeBlocks = (entryAt m'.dev i).withAttrs size timestamp perms := by
    rw [hent, hfe, SfsFileEntry.withAttrs_keep]
  have hwf : m'.Wf := hm' ▸ (hm.tick 1).released i _ _
  have hi' : i < m'.sb.entryCount.toNat := by
    rw [hm']
    exact hi
  rw [sfsUpdate_eq hκ hwf hi' size timestamp perms hagain]
  simp only [SfsFileEntry.sizeBlocks_keep, SfsFileEntry.dropped_keep, SfsFileEntry.keep_keep]
  refine ⟨?_, rfl⟩
  rw [hm']
  exact Store.blit_blit _ _

/-- The pointers of the files are data blocks, marked, and no two are equal. -/
structure Mount.PointersOwned (m : Mount) : Prop where
  inData : ∀ i, m.volume.Live i → ∀ k, (entryAt m.dev i).blocks k ≠ 0 →
    m.sb.dataBlockStart ≤ (entryAt m.dev i).blocks k ∧
      (entryAt m.dev i).blocks k < m.sb.partitionSize
  marked : ∀ i, m.volume.Live i → ∀ k, (entryAt m.dev i).blocks k ≠ 0 →
    m.usedBlocks.cell ((entryAt m.dev i).blocks k).toNat ≠ 0
  distinct : ∀ i, m.volume.Live i → ∀ j, m.volume.Live j → ∀ k l,
    (entryAt m.dev i).blocks k ≠ 0 →
      (entryAt m.dev i).blocks k = (entryAt m.dev j).blocks l → i = j ∧ k = l

/-- They are so in every state that the driver reaches. -/
theorem Mount.Sane.pointersOwned (h : m.Sane) : m.PointersOwned where
  inData i hi k hk :=
    ⟨(h.blocksOwned.inData i hi.1 hi.2 k hk).1, (h.blocksOwned.inData i hi.1 hi.2 k hk).2.1⟩
  marked i hi k hk := (h.blocksOwned.inData i hi.1 hi.2 k hk).2.2
  distinct i hi j hj k l hk he := h.blocksOwned.distinct i hi.1 j hj.1 k l hk he

/-- Between `m` and `m'` the file in slot `i` was cut to `size` bytes: the pointers to
blocks that start below the size stay, the others are zero and their blocks free. -/
structure Mount.Truncated (m m' : Mount) (i : ℕ) (size timestamp perms : ℤ) : Prop where
  stays : ∀ k : Fin 9, (k.val * m.sb.blockSize.toNat : ℤ) < size →
    (entryAt m'.dev i).blocks k = (entryAt m.dev i).blocks k
  dropped : ∀ k : Fin 9, size ≤ k.val * m.sb.blockSize.toNat → (entryAt m'.dev i).blocks k = 0
  freed : ∀ k : Fin 9, size ≤ k.val * m.sb.blockSize.toNat → (entryAt m.dev i).blocks k ≠ 0 →
    m'.usedBlocks.cell ((entryAt m.dev i).blocks k).toNat = 0
  kept : ∀ b, (∀ k : Fin 9, size ≤ k.val * m.sb.blockSize.toNat →
    (entryAt m.dev i).blocks k ≠ 0 → ((entryAt m.dev i).blocks k).toNat ≠ b) →
    m'.usedBlocks.cell b = m.usedBlocks.cell b
  size : ((entryAt m'.dev i).size.toNat : ℤ) = size
  timestamp : (entryAt m'.dev i).timestamp = UInt32.ofInt timestamp
  perms : (entryAt m'.dev i).perms =
    if perms ≤ 7 then UInt32.ofInt perms else (entryAt m.dev i).perms
  name : (entryAt m'.dev i).name = (entryAt m.dev i).name
  others : ∀ j, j ≠ i → entryAt m'.dev j = entryAt m.dev j

/-- An index is dropped exactly when its block starts at the size or behind it. -/
theorem Mount.Wf.sizeBlocks_le_iff (hm : m.Wf) {size : ℤ} (h0 : 0 ≤ size) (hsize : size < 2 ^ 31)
    (fe : SfsFileEntry) (timestamp perms : ℤ) (k : Fin 9) :
    (fe.withAttrs (some size) (some timestamp) (some perms)).sizeBlocks ≤ k.val ↔
      size ≤ k.val * m.sb.blockSize.toNat := by
  have hbs : m.sb.blockSize.toNat = 512 := by
    rw [hm.geometry.blockSize_eq]
    rfl
  rw [sizeBlocks_withAttrs fe h0 hsize, hbs]
  omega

/-- The blocks that an update drops are those of the pointers from some index on. -/
theorem SfsFileEntry.mem_map_dropped {fe : SfsFileEntry} {n b : ℕ} :
    b ∈ (fe.dropped n).map UInt32.toNat ↔
      ∃ k : Fin 9, n ≤ k.val ∧ fe.blocks k ≠ 0 ∧ (fe.blocks k).toNat = b := by
  simp only [List.mem_map, SfsFileEntry.mem_dropped]
  constructor
  · rintro ⟨c, ⟨hc, k, hk, rfl⟩, rfl⟩
    exact ⟨k, hk, hc, rfl⟩
  · rintro ⟨k, hk, hc, rfl⟩
    exact ⟨_, ⟨hc, k, hk, rfl⟩, rfl⟩

/-- An update with a size cuts the file to it. -/
theorem sfsUpdate_truncated (hκ : κ.Reliable) (hm : m.Wf) (ho : m.PointersOwned)
    (hi : m.volume.Live i) {size : ℤ} (h0 : 0 ≤ size) (hsize : size < 2 ^ 31)
    (timestamp perms : ℤ) : m.Truncated
      (sfsUpdate κ m ((i : ℤ) + 1) (some size) (some timestamp) (some perms)).1 i size timestamp
      perms := by
  set fe := (entryAt m.dev i).withAttrs (some size) (some timestamp) (some perms) with hfe
  have hblocks : fe.blocks = (entryAt m.dev i).blocks := rfl
  have hcut : ∀ k : Fin 9, fe.sizeBlocks ≤ k.val ↔ size ≤ k.val * m.sb.blockSize.toNat :=
    hm.sizeBlocks_le_iff h0 hsize _ timestamp perms
  have hlt : ∀ b ∈ fe.dropped fe.sizeBlocks, b.toNat < m.usedBlocks.size := by
    intro b hb
    obtain ⟨hc, k, _, rfl⟩ := SfsFileEntry.mem_dropped.mp hb
    rw [hm.size]
    exact UInt32.lt_iff_toNat_lt.mp (ho.inData i hi k hc).2
  rw [sfsUpdate_eq hκ hm hi.1 _ _ _ hfe]
  set m' := (m.tick 1).released i (fe.dropped fe.sizeBlocks) (fe.keep fe.sizeBlocks) with hm'
  have hent : ∀ j, entryAt m'.dev j = if j = i then fe.keep fe.sizeBlocks else entryAt m.dev j :=
    fun j => entryAt_blit _ i j _
  have hself : entryAt m'.dev i = fe.keep fe.sizeBlocks := (hent i).trans (if_pos rfl)
  have hcell : ∀ b, m'.usedBlocks.cell b =
      if b ∈ (fe.dropped fe.sizeBlocks).map UInt32.toNat then 0 else m.usedBlocks.cell b := by
    intro b
    change (m.usedBlocks.clear (fe.dropped fe.sizeBlocks)).cell b = _
    rw [Buffer.clear_ok m.usedBlocks _ hm.size_lt hlt]
  constructor
  case stays =>
    intro k hk
    rw [hself, Volume.keep_blocks, if_neg (fun h => absurd ((hcut k).mp h) (by omega)), hblocks]
  case dropped =>
    intro k hk
    rw [hself, Volume.keep_blocks, if_pos ((hcut k).mpr hk)]
  case freed =>
    intro k hk hne
    rw [hcell]
    exact if_pos (SfsFileEntry.mem_map_dropped.mpr ⟨k, (hcut k).mpr hk, hne, rfl⟩)
  case kept =>
    intro b hb
    rw [hcell, if_neg]
    intro h
    obtain ⟨k, hk, hne, he⟩ := SfsFileEntry.mem_map_dropped.mp h
    exact hb k ((hcut k).mp hk) hne he
  case size =>
    rw [hself]
    change ((UInt32.ofInt size).toNat : ℤ) = size
    obtain ⟨n, rfl⟩ := Int.eq_ofNat_of_zero_le h0
    rw [toNat_ofInt_natCast (by omega)]
  case timestamp => rw [hself]; rfl
  case perms => rw [hself]; rfl
  case name => rw [hself]; rfl
  case others =>
    intro j hj
    rw [hent, if_neg hj]

/-- Truncation is exact: `sfs_update` of a live inode with a size of at least 0 cuts the
file to it, and the same call again changes nothing. -/
theorem update_truncates (hκ : κ.Reliable) (hm : m.Wf) (ho : m.PointersOwned)
    (hi : m.volume.Live i) {size : ℤ} (h0 : 0 ≤ size) (hsize : size < 2 ^ 31)
    (timestamp perms : ℤ) {m' : Mount}
    (hm' : m' = (sfsUpdate κ m ((i : ℤ) + 1) (some size) (some timestamp) (some perms)).1) :
    m.Truncated m' i size timestamp perms ∧
    (sfsUpdate κ m' ((i : ℤ) + 1) (some size) (some timestamp) (some perms)).1.dev = m'.dev ∧
    (sfsUpdate κ m' ((i : ℤ) + 1) (some size) (some timestamp) (some perms)).1.usedBlocks =
      m'.usedBlocks := by
  refine ⟨?_, sfsUpdate_again hκ hm hi.1 _ _ _ hm'⟩
  rw [hm']
  exact sfsUpdate_truncated hκ hm ho hi h0 hsize timestamp perms

/-- The small device with a file that has blocks at its indices 0 and 3. -/
def punchedMount : Mount := Run.exec (step sampleKernel) sampleMount
  [.create [97] 7 0, .getBlock 1 0 true, .getBlock 1 3 true]

theorem punchedMount_sane : punchedMount.Sane := by
  have hl : LegalRun sampleKernel sampleMount
      [.create [97] 7 0, .getBlock 1 0 true, .getBlock 1 3 true] :=
    ⟨trivial, ⟨0, rfl, by decide +kernel⟩, ⟨0, rfl, by decide +kernel⟩, trivial⟩
  exact hl.sane sampleKernel_reliable (sampleMount_mounted.fresh sampleKernel_reliable).sane

/-- Cut to 600 bytes, the file loses the block at index 3. -/
theorem update_truncates_sample : punchedMount.Truncated
    (sfsUpdate sampleKernel punchedMount ((0 : ℕ) + 1) (some 600) (some 5) (some 9)).1 0 600 5 9 :=
  (update_truncates sampleKernel_reliable punchedMount_sane.wf punchedMount_sane.pointersOwned
    (by decide +kernel) (by decide) (by decide) 5 9 rfl).1

end Linuxpedia.Sfs
