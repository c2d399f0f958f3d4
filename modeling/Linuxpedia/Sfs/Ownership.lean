import Linuxpedia.Sfs.Operations

/-! Block ownership within one mount. Whatever the driver is asked to do with live
inodes, no block is pointed at twice, every pointer is a marked data block, and a
pointer stays until its file is removed or truncated in front of it. -/

namespace Linuxpedia.Sfs

open Lib

variable {κ : Kernel} {m : Mount}

/-- Ownership in the words of the driver's state. -/
structure Mount.BlocksOwned (m : Mount) : Prop where
  inData : ∀ i < m.sb.entryCount.toNat, (entryAt m.dev i).Named → ∀ k,
    (entryAt m.dev i).blocks k ≠ 0 →
      m.sb.dataBlockStart ≤ (entryAt m.dev i).blocks k ∧
      (entryAt m.dev i).blocks k < m.sb.partitionSize ∧
      m.usedBlocks.cell ((entryAt m.dev i).blocks k).toNat ≠ 0
  distinct : ∀ i < m.sb.entryCount.toNat, ∀ j < m.sb.entryCount.toNat, ∀ k l,
    (entryAt m.dev i).blocks k ≠ 0 →
      (entryAt m.dev i).blocks k = (entryAt m.dev j).blocks l → i = j ∧ k = l
  bare : ∀ i < m.sb.entryCount.toNat, ¬ (entryAt m.dev i).Named → ∀ k,
    (entryAt m.dev i).blocks k = 0

theorem Mount.Sane.blocksOwned (h : m.Sane) : m.BlocksOwned where
  inData i hi _ k hk := by
    have hp : m.volume.Held (i, k) _ := Volume.held_of_ne hi hk
    obtain ⟨hlt, hmark⟩ := h.owned.ledger.marked hp
    refine ⟨h.owned.data hp, ?_, hmark⟩
    rw [UInt32.lt_iff_toNat_lt, ← h.wf.size]
    exact hlt
  distinct i hi j hj k l hk he := by
    have hp : m.volume.Held (i, k) _ := Volume.held_of_ne hi hk
    have hq : m.volume.Held (j, l) ((entryAt m.dev j).blocks l).toNat :=
      Volume.held_of_ne hj (he ▸ hk)
    rw [← he] at hq
    simpa using h.owned.ledger.inj hp hq
  bare i hi hn k := h.owned.bare i hi hn k

/-- The size given to `sfs_update` is an `int` that is not negative. -/
def Op.Sized : Op → Prop
  | .update _ size _ _ => ∃ n, size = some n ∧ 0 ≤ n ∧ n < 2 ^ 31
  | _ => True

/-- The operation removes the file in slot `i` or sets its size to at most
`k * block_size`. -/
def Op.GivesUp (m : Mount) (i : ℕ) (k : Fin 9) : Op → Prop
  | .remove fn => m.volume.slotOf fn = some i
  | .update ino size _ _ => ino = (i : ℤ) + 1 ∧ ∃ n ∈ size, n ≤ k.val * m.sb.blockSize.toNat
  | _ => False

/-- The blocks that a size of `n` bytes keeps. -/
theorem sizeBlocks_withAttrs (fe : SfsFileEntry) {n : ℤ} (h0 : 0 ≤ n) (h : n < 2 ^ 31)
    (timestamp perms : Option ℤ) :
    (fe.withAttrs (some n) timestamp perms).sizeBlocks = (n.toNat + 511) / 512 := by
  have hn : (fe.withAttrs (some n) timestamp perms).size.toNat = n.toNat := by
    change (UInt32.ofInt n).toNat = n.toNat
    obtain ⟨j, rfl⟩ := Int.eq_ofNat_of_zero_le h0
    exact toNat_ofInt_natCast (by omega)
  rw [SfsFileEntry.sizeBlocks_eq (by omega), hn]

/-- A step that does not give a pointer up keeps it. -/
theorem Mount.Sane.step_keeps (hκ : κ.Reliable) (h : m.Sane) {op : Op} (hop : op.Legal m.volume)
    (hs : op.Sized) {i : ℕ} (hi : i < m.sb.entryCount.toNat) {k : Fin 9} {b : UInt32} (h0 : b ≠ 0)
    (hb : (entryAt m.dev i).blocks k = b) (hg : ¬ op.GivesUp m i k) :
    (entryAt (Sfs.step κ m op).dev i).blocks k = b := by
  have hv := (step_becomes hκ h.wf hop.addressed).volume
  have he : entryAt (Sfs.step κ m op).dev = (m.volume.run op).1.entry :=
    congrArg Volume.entry hv
  have hb' : (m.volume.entry i).blocks k = b := hb
  rw [he]
  cases op with
  | create fn perms now =>
    simp only [Volume.run, Volume.create]
    split
    · next j _ hj =>
      have hne : i ≠ j := by
        rintro rfl
        have hz := h.owned.bare i hi (Volume.freeSlot_eq_some.mp hj).2.1 k
        exact h0 (hb'.symm.trans hz)
      rw [Volume.put_entry_of_ne _ _ hne]
      exact hb'
    · exact hb'
  | lookup fn => exact hb'
  | remove fn =>
    simp only [Volume.run, Volume.remove]
    split
    · next j hj =>
      have hne : i ≠ j := by
        rintro rfl
        exact hg hj
      rw [Volume.release_entry, if_neg hne]
      exact hb'
    · exact hb'
  | getBlock ino iblock c =>
    obtain ⟨j, rfl, hj⟩ := hop
    simp only [Volume.run, Volume.getBlock, v2s_succ, Int.toNat_natCast]
    split_ifs with hk hz hc
    · exact hb'
    · split
      · exact hb'
      · rw [Volume.grant_entry]
        split_ifs with hij
        · subst hij
          have hkl : k ≠ ⟨iblock, hk⟩ := by
            rintro rfl
            exact h0 (hb'.symm.trans (not_not.mp hz))
          rw [Volume.point_blocks, if_neg hkl]
          exact hb'
        · exact hb'
    · exact hb'
    · exact hb'
  | update ino size timestamp perms =>
    obtain ⟨j, rfl, hj⟩ := hop
    obtain ⟨n, rfl, hn0, hn⟩ := hs
    simp only [Volume.run, Volume.update, v2s_succ, Int.toNat_natCast]
    rw [Volume.release_entry]
    split_ifs with hij
    · subst hij
      have hlt : ¬ n ≤ k.val * 512 := by
        intro hle
        have hbs : m.sb.blockSize.toNat = 512 := by
          rw [h.wf.geometry.blockSize_eq]
          rfl
        exact hg ⟨rfl, n, rfl, by rw [hbs]; exact hle⟩
      rw [Volume.keep_blocks, sizeBlocks_withAttrs _ hn0 hn, if_neg (by omega)]
      exact hb'
    · exact hb'

/-- A run that does not give a pointer up keeps it. -/
theorem pointer_kept (hκ : κ.Reliable) (h : m.Sane) {ops : List Op} (hl : LegalRun κ m ops)
    (hs : ∀ op ∈ ops, op.Sized) {i : ℕ} (hi : i < m.sb.entryCount.toNat) {k : Fin 9} {b : UInt32}
    (h0 : b ≠ 0) (hb : (entryAt m.dev i).blocks k = b)
    (hg : Run.Along (step κ) (fun m op => ¬ op.GivesUp m i k) m ops) :
    (entryAt (Run.exec (step κ) m ops).dev i).blocks k = b := by
  induction ops generalizing m with
  | nil => exact hb
  | cons op ops ih =>
    have hop := hs op (by simp)
    have hsb := (step_becomes hκ h.wf hl.1.addressed).sb
    refine ih (h.step hκ hl.1) hl.2 (fun o ho => hs o (by simp [ho])) (by rwa [hsb]) ?_ hg.2
    exact h.step_keeps hκ hl.1 hop hi h0 hb hg.1

/-- In every state that a mount of a formatted image reaches, the blocks are owned,
and from any earlier state on a pointer survives until it is given up. -/
theorem driver_blocks_owned (hκ : κ.Reliable) (hm : Mounted κ m) (ops : List Op)
    (hl : LegalRun κ m ops) (hs : ∀ op ∈ ops, op.Sized) :
    (Run.exec (step κ) m ops).BlocksOwned ∧
    ∀ pre post, ops = pre ++ post → ∀ i < m.sb.entryCount.toNat, ∀ k b, b ≠ 0 →
      (entryAt (Run.exec (step κ) m pre).dev i).blocks k = b →
      Run.Along (step κ) (fun m op => ¬ op.GivesUp m i k) (Run.exec (step κ) m pre) post →
      (entryAt (Run.exec (step κ) m ops).dev i).blocks k = b := by
  have h0 : m.Sane := (hm.fresh hκ).sane
  refine ⟨(hl.sane hκ h0).blocksOwned, ?_⟩
  rintro pre post rfl i hi k b hb hpre hg
  obtain ⟨hlpre, hlpost⟩ := (Run.along_append _ _ _ _ _).mp hl
  have hmid : (Run.exec (step κ) m pre).Sane := LegalRun.sane hκ h0 hlpre
  have hsb : (Run.exec (step κ) m pre).sb = m.sb := LegalRun.sb_eq hκ h0 hlpre
  rw [Run.exec_append]
  exact pointer_kept hκ hmid hlpost (fun op ho => hs op (by simp [ho])) (by rwa [hsb]) hb hpre hg

/-- Two files, a hole and a truncation on the small device. -/
theorem driver_blocks_owned_sample :
    (Run.exec (step sampleKernel) sampleMount [.create [97] 7 0, .getBlock 1 3 true,
      .create [98] 7 0, .getBlock 2 0 true, .update 1 (some 600) none none]).BlocksOwned :=
  (driver_blocks_owned sampleKernel_reliable sampleMount_mounted
    [.create [97] 7 0, .getBlock 1 3 true, .create [98] 7 0, .getBlock 2 0 true,
      .update 1 (some 600) none none]
    ⟨trivial, ⟨0, rfl, by decide +kernel⟩, trivial, ⟨1, rfl, by decide +kernel⟩,
      ⟨0, rfl, by decide +kernel⟩, trivial⟩ (by simp [Op.Sized])).1

end Linuxpedia.Sfs
