import Linuxpedia.Sfs.Operations

/-! Failing writes. `write_to_real_sfs` returns `-EIO` or `-EINVAL`, but its callers
other than `sfs_update` compare the result with -1, and blocks are freed or taken
before the entry is written. An operation is atomic exactly when its write is not
lost, except for an update that frees nothing. -/

namespace Linuxpedia.Sfs

open Lib

variable {κ : Kernel} {m : Mount} {op : Op}

/-- The kernel with its reads failing as `bread` says. -/
def Kernel.withBread (κ : Kernel) (bread : ℕ → UInt32 → Bool) : Kernel := { κ with bread := bread }

theorem Kernel.Sound.withBread (h : κ.Sound) (bread : ℕ → UInt32 → Bool) :
    (κ.withBread bread).Sound := ⟨h.pos, h.mult, h.vmalloc_zero⟩

/-- The operations that change the image. -/
def Op.Mutating : Op → Prop
  | .lookup _ => False
  | .getBlock _ _ c => c = true
  | _ => True

/-- How the operation tells its caller that it failed. -/
def Op.ReportsFailure (r : ℤ) : Op → Prop
  | .create _ _ _ => r = -1
  | .remove _ => r = -1
  | .update _ _ _ _ => r < 0
  | _ => r ≠ 0

/-- Where the write of the entry returned a negative code, failure is reported and
the entry table and the allocation table are as before. -/
def IoAtomic (κ : Kernel) (m : Mount) (op : Op) : Prop :=
  ∀ r < 0, (op.run κ m).1.writes = r :: m.writes →
    op.ReportsFailure (op.run κ m).2 ∧
    (∀ i < m.sb.entryCount.toNat, entryAt (op.run κ m).1.dev i = entryAt m.dev i) ∧
    ∀ b < m.sb.partitionSize.toNat, (op.run κ m).1.usedBlocks.cell b = m.usedBlocks.cell b

/-- The operation gets to the write of its entry, and the `sb_bread` of that write
fails. -/
def Op.WriteLost (κ : Kernel) (m : Mount) : Op → Prop
  | .create fn _ _ => m.volume.slotOf fn = none ∧ κ.Scans m m.sb.entryCount.toNat ∧
      ∃ i, m.volume.freeSlot = some i ∧
        ¬ κ.bread (m.breads + m.sb.entryCount.toNat) (κ.slotBlock i) = true
  | .lookup _ => False
  | .remove fn => ∃ i, m.volume.slotOf fn = some i ∧ κ.Scans m (i + 1) ∧
      ¬ κ.bread (m.breads + (i + 1)) (κ.slotBlock i) = true
  | .getBlock ino iblock c => ∃ (i : ℕ) (k : Fin 9), ino = (i : ℤ) + 1 ∧ iblock = k.val ∧
      c = true ∧ κ.bread m.breads (κ.slotBlock i) = true ∧ (entryAt m.dev i).blocks k = 0 ∧
      m.usedBlocks.free m.sb.dataBlockStart.toNat ≠ [] ∧
      ¬ κ.bread (m.breads + 1) (κ.slotBlock i) = true
  | .update ino _ _ _ => ∃ i : ℕ, ino = (i : ℤ) + 1 ∧ κ.bread m.breads (κ.slotBlock i) = true ∧
      ¬ κ.bread (m.breads + 1) (κ.slotBlock i) = true

/-- An update that finds no pointer behind the blocks its size needs. -/
def Op.FreesNothing (m : Mount) : Op → Prop
  | .update ino size timestamp perms => ∃ i : ℕ, ino = (i : ℤ) + 1 ∧ ∀ k : Fin 9,
      ((entryAt m.dev i).withAttrs size timestamp perms).sizeBlocks ≤ k.val →
        (entryAt m.dev i).blocks k = 0
  | _ => False

/-- An operation whose write is not lost logs no negative code. -/
theorem writes_of_not_lost (hκ : κ.Sound) (h : m.Sane) (hop : op.Legal m.volume)
    (hmut : op.Mutating) (hl : ¬ op.WriteLost κ m) :
    (op.run κ m).1.writes = m.writes ∨ (op.run κ m).1.writes = 0 :: m.writes := by
  have hg := h.wf.geometry
  cases op with
  | create fn perms now =>
    by_cases hc : m.volume.slotOf fn = none ∧ κ.Scans m m.sb.entryCount.toNat ∧
        ∃ i, m.volume.freeSlot = some i
    · obtain ⟨hs, hr, i, hi⟩ := hc
      have hw : κ.bread (m.breads + m.sb.entryCount.toNat) (κ.slotBlock i) = true := by
        by_contra hw
        exact hl ⟨hs, hr, i, hi, hw⟩
      right
      rw [Op.run, sfsCreate_writes hκ hg perms now hs hr hi, if_pos hw]
      rfl
    · obtain ⟨c, he⟩ := sfsCreate_fails hκ hg perms now hc
      left
      rw [Op.run, he]
      rfl
  | lookup fn => exact absurd hmut id
  | remove fn =>
    by_cases hc : ∃ s, m.volume.slotOf fn = some s ∧ κ.Scans m (s + 1)
    · obtain ⟨i, hi, hr⟩ := hc
      have hw : κ.bread (m.breads + (i + 1)) (κ.slotBlock i) = true := by
        by_contra hw
        exact hl ⟨i, hi, hr, hw⟩
      right
      rw [Op.run, sfsRemove_writes hκ hg hi hr, if_pos hw]
      rfl
    · obtain ⟨c, he⟩ := sfsRemove_fails hκ hg hc
      left
      rw [Op.run, he]
      rfl
  | getBlock ino iblock c =>
    obtain ⟨i, rfl, hi⟩ := hop
    obtain rfl : c = true := hmut
    by_cases hk : iblock < 9
    · obtain ⟨k, rfl⟩ : ∃ k : Fin 9, iblock = k.val := ⟨⟨iblock, hk⟩, rfl⟩
      by_cases hr : κ.bread m.breads (κ.slotBlock i) = true
      · by_cases hz : (entryAt m.dev i).blocks k = 0
        · cases hf : m.usedBlocks.free m.sb.dataBlockStart.toNat with
          | nil =>
            left
            rw [Op.run, sfsGetBlock_full hκ h.wf hi.1 k hr hz hf]
            rfl
          | cons b bs =>
            have hw : κ.bread (m.breads + 1) (κ.slotBlock i) = true := by
              by_contra hw
              exact hl ⟨i, k, rfl, rfl, rfl, hr, hz, by simp [hf], hw⟩
            right
            rw [Op.run, sfsGetBlock_writes hκ h.wf hi.1 k hr hz hf, if_pos hw]
            rfl
        · left
          rw [Op.run, sfsGetBlock_mapped hκ h.wf hi.1 k true hr hz]
          rfl
      · left
        rw [Op.run, sfsGetBlock_unread hκ h.wf hi.1 k true hr]
        rfl
    · left
      rw [Op.run, sfsGetBlock_far hk]
  | update ino size timestamp perms =>
    obtain ⟨i, rfl, hi⟩ := hop
    by_cases hr : κ.bread m.breads (κ.slotBlock i) = true
    · have hw : κ.bread (m.breads + 1) (κ.slotBlock i) = true := by
        by_contra hw
        exact hl ⟨i, rfl, hr, hw⟩
      right
      rw [Op.run, sfsUpdate_writes hκ hg hi.1 hr size timestamp perms rfl, if_pos hw]
      rfl
    · left
      rw [Op.run, sfsUpdate_unread hκ hg hi.1 hr]
      rfl

theorem IoAtomic.of_not_lost (hκ : κ.Sound) (h : m.Sane) (hop : op.Legal m.volume)
    (hmut : op.Mutating) (hl : ¬ op.WriteLost κ m) : IoAtomic κ m op := by
  intro r hr hw
  rcases writes_of_not_lost hκ h hop hmut hl with he | he
  · have hlen := congrArg List.length (he.symm.trans hw)
    simp at hlen
  · have h0 := (List.cons.inj (he.symm.trans hw)).1
    omega

/-- A lost write that is not reported. -/
theorem not_ioAtomic (hw : (op.run κ m).1.writes = -eio :: m.writes)
    (hc : ¬ op.ReportsFailure (op.run κ m).2) : ¬ IoAtomic κ m op :=
  fun h => hc (h (-eio) (by decide) hw).1

/-- An update keeps the allocation table exactly when it has nothing to free. -/
theorem clear_dropped_iff (h : m.Sane) {i : ℕ} (hi : i < m.volume.count) (fe : SfsFileEntry)
    (hfe : fe.blocks = (entryAt m.dev i).blocks) (n : ℕ) :
    (∀ b < m.sb.partitionSize.toNat,
      (m.usedBlocks.clear (fe.dropped n)).cell b = m.usedBlocks.cell b) ↔
      ∀ k : Fin 9, n ≤ k.val → (entryAt m.dev i).blocks k = 0 := by
  have hheld : ∀ c ∈ fe.dropped n, ∃ k, m.volume.Held (i, k) c.toNat := by
    intro c hc
    obtain ⟨h0, k, _, rfl⟩ := SfsFileEntry.mem_dropped.mp hc
    rw [hfe] at h0 ⊢
    exact ⟨k, Volume.held_of_ne hi h0⟩
  have hclear := Buffer.clear_ok m.usedBlocks (fe.dropped n) h.wf.size_lt
    fun c hc => (hheld c hc).elim fun k hk => h.owned.lt_size hk
  constructor
  · intro hall k hk
    by_contra hne
    have hd : (entryAt m.dev i).blocks k ∈ fe.dropped n :=
      SfsFileEntry.mem_dropped.mpr ⟨hne, k, hk, by rw [hfe]⟩
    have hp : m.volume.Held (i, k) ((entryAt m.dev i).blocks k).toNat := Volume.held_of_ne hi hne
    obtain ⟨hlt, hmark⟩ := h.owned.ledger.marked hp
    have hc := hall _ (Nat.lt_of_lt_of_eq hlt h.wf.size)
    rw [hclear] at hc
    simp only [if_pos (List.mem_map_of_mem hd)] at hc
    exact hmark hc.symm
  · intro hz b _
    have hnil : fe.dropped n = [] := SfsFileEntry.dropped_eq_nil.mpr (by rwa [hfe])
    rw [hnil, Buffer.clear_nil]

/-- An operation whose write is lost is atomic only if it is an update with nothing
to free. -/
theorem ioAtomic_lost_iff (hκ : κ.Sound) (h : m.Sane) (hop : op.Legal m.volume)
    (hl : op.WriteLost κ m) : IoAtomic κ m op ↔ op.FreesNothing m := by
  have hg := h.wf.geometry
  cases op with
  | create fn perms now =>
    obtain ⟨hs, hr, i, hi, hw⟩ := hl
    have he := sfsCreate_writes hκ hg perms now hs hr hi
    rw [if_neg hw] at he
    refine iff_of_false (not_ioAtomic (by rw [Op.run, he]; rfl) ?_) id
    rw [Op.run, he, Op.ReportsFailure]
    omega
  | lookup fn => exact absurd hl id
  | remove fn =>
    obtain ⟨i, hi, hr, hw⟩ := hl
    have he := sfsRemove_writes hκ hg hi hr
    rw [if_neg hw] at he
    refine iff_of_false (not_ioAtomic (by rw [Op.run, he]; rfl) ?_) id
    rw [Op.run, he, Op.ReportsFailure]
    omega
  | getBlock ino iblock c =>
    obtain ⟨i, k, rfl, rfl, rfl, hr, hz, hf, hw⟩ := hl
    obtain ⟨j, hj, hi⟩ := hop
    obtain rfl : i = j := by omega
    obtain ⟨b, bs, hb⟩ := List.exists_cons_of_ne_nil hf
    have he := sfsGetBlock_writes hκ h.wf hi.1 k hr hz hb
    rw [if_neg hw] at he
    refine iff_of_false (not_ioAtomic (by rw [Op.run, he]; rfl) ?_) id
    rw [Op.run, he]
    exact fun hne => hne rfl
  | update ino size timestamp perms =>
    obtain ⟨i, rfl, hr, hw⟩ := hl
    obtain ⟨j, hj, hi⟩ := hop
    obtain rfl : i = j := by omega
    have he := sfsUpdate_writes hκ hg hi.1 hr size timestamp perms rfl
    rw [if_neg hw] at he
    have hiff := clear_dropped_iff h hi.1 ((entryAt m.dev i).withAttrs size timestamp perms) rfl
      ((entryAt m.dev i).withAttrs size timestamp perms).sizeBlocks
    rw [IoAtomic, Op.run, he]
    constructor
    · intro ha
      exact ⟨i, rfl, hiff.mp (ha (-eio) (by decide) rfl).2.2⟩
    · rintro ⟨l, hl, hz⟩ r _ _
      obtain rfl : i = l := by omega
      have hneg : -eio < 0 := by decide
      exact ⟨hneg, fun _ _ => rfl, hiff.mpr hz⟩

/-- In every state of a mount and for every pattern of failing reads, an operation
is atomic exactly when its write is not lost or it is an update with nothing to
free. -/
theorem io_atomic_iff (hκ : κ.Reliable) (hm : Mounted κ m) (ops : List Op)
    (hl : LegalRun κ m ops) (bread : ℕ → UInt32 → Bool) (op : Op)
    (hop : op.Legal (Run.exec (step κ) m ops).volume) (hmut : op.Mutating) :
    IoAtomic (κ.withBread bread) (Run.exec (step κ) m ops) op ↔
      ¬ op.WriteLost (κ.withBread bread) (Run.exec (step κ) m ops) ∨
        op.FreesNothing (Run.exec (step κ) m ops) := by
  have hs : (Run.exec (step κ) m ops).Sane := LegalRun.sane hκ (hm.fresh hκ).sane hl
  have hκ' := hκ.toSound.withBread bread
  by_cases hlost : op.WriteLost (κ.withBread bread) (Run.exec (step κ) m ops)
  · rw [ioAtomic_lost_iff hκ' hs hop hlost]
    simp [hlost]
  · exact iff_of_true (.of_not_lost hκ' hs hop hmut hlost) (Or.inl hlost)

/-- An update of an empty file is atomic although its write, call 19, is lost. -/
theorem io_atomic_sample : IoAtomic (sampleKernel.withBread fun n _ => n != 19)
    (Run.exec (step sampleKernel) sampleMount [.create [97] 7 0]) (.update 1 (some 0) none none) :=
  (io_atomic_iff sampleKernel_reliable sampleMount_mounted [.create [97] 7 0] ⟨trivial, trivial⟩
    (fun n _ => n != 19) (.update 1 (some 0) none none) ⟨0, rfl, by decide +kernel⟩ trivial).mpr (Or.inr ⟨0, rfl, by decide +kernel⟩)

/-- The write of a creation on the fresh device is call 17 of `sb_bread`: when it
fails, `sfs_create` still returns inode 1. -/
theorem create_not_atomic :
    ¬ IoAtomic (sampleKernel.withBread fun n _ => n != 17) sampleMount (.create [97] 7 0) := by
  intro h
  have hr := (h (-eio) (by decide) (by decide +kernel)).1
  exact absurd hr (by unfold Op.ReportsFailure; decide +kernel)

end Linuxpedia.Sfs
