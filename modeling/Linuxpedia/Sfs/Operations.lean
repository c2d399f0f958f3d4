import Linuxpedia.Sfs.Mounting
import Linuxpedia.Lib.Run

/-! The operations of the driver as one step function, and what a step means for
the volume when no read fails. Each operation refines a function on volumes; on a
live inode that function is one of the five moves. -/

namespace Linuxpedia.Sfs

open Lib

inductive Op where
  | create (fn : List UInt8) (perms : ℤ) (now : UInt32)
  | lookup (fn : List UInt8)
  | remove (fn : List UInt8)
  | getBlock (ino : ℤ) (iblock : ℕ) (create : Bool)
  | update (ino : ℤ) (size timestamp perms : Option ℤ)

/-- One operation of the driver with the code it returns. -/
def Op.run (κ : Kernel) (m : Mount) : Op → Mount × ℤ
  | .create fn perms now => sfsCreate κ m fn perms now
  | .lookup fn => let r := sfsLookup κ m fn; (r.1, r.2.1)
  | .remove fn => sfsRemove κ m fn
  | .getBlock ino iblock c => let r := sfsGetBlock κ m ino iblock c; (r.1, r.2.1)
  | .update ino size timestamp perms => sfsUpdate κ m ino size timestamp perms

/-- The mount after one operation. -/
def step (κ : Kernel) (m : Mount) (op : Op) : Mount := (op.run κ m).1

/-- `ino` is the inode number of a slot with a name. -/
def Volume.LiveIno (v : Volume) (ino : ℤ) : Prop := ∃ i : ℕ, ino = (i : ℤ) + 1 ∧ v.Live i

/-- `sfs_get_block` and `sfs_update` are given inodes of named entries. -/
def Op.Legal (v : Volume) : Op → Prop
  | .getBlock ino _ _ => v.LiveIno ino
  | .update ino _ _ _ => v.LiveIno ino
  | _ => True

namespace Volume

variable (v : Volume)

def create (fn : List UInt8) (perms : ℤ) (now : UInt32) : Volume × ℤ :=
  match v.slotOf fn, v.freeSlot with
  | none, some i => (v.put i (.fresh fn now (UInt32.ofInt perms)), i + 1)
  | _, _ => (v, -1)

def lookup (fn : List UInt8) : ℤ := (v.slotOf fn).elim (-1) fun i => i + 1

def remove (fn : List UInt8) : Volume × ℤ :=
  match v.slotOf fn with
  | some i => (v.release i (v.entry i).prefixPtrs .zero, i + 1)
  | none => (v, -1)

/-- The code and the block mapped. -/
def getBlock (i iblock : ℕ) (create : Bool) : Volume × ℤ × Option UInt32 :=
  if h : iblock < 9 then
    if (v.entry i).blocks ⟨iblock, h⟩ ≠ 0 then (v, 0, some ((v.entry i).blocks ⟨iblock, h⟩))
    else if create then
      match v.used.free v.start with
      | [] => (v, -enospc, none)
      | b :: _ => (v.grant i ⟨iblock, h⟩ b, 0, some (UInt32.ofNat b))
    else (v, -eio, none)
  else (v, -enospc, none)

def update (i : ℕ) (size timestamp perms : Option ℤ) : Volume :=
  let fe := (v.entry i).withAttrs size timestamp perms
  v.release i (fe.dropped fe.sizeBlocks) (fe.keep fe.sizeBlocks)

/-- The volume after one operation and the code returned. -/
def run : Op → Volume × ℤ
  | .create fn perms now => v.create fn perms now
  | .lookup fn => (v, v.lookup fn)
  | .remove fn => v.remove fn
  | .getBlock ino iblock c =>
    let r := v.getBlock (v2sInodeNum ino).toNat iblock c
    (r.1, r.2.1)
  | .update ino size timestamp perms =>
    (v.update (v2sInodeNum ino).toNat size timestamp perms, 0)

variable {v}

/-- On live inodes an operation is one of the five moves. -/
theorem move_run {op : Op} (h : op.Legal v) : v.Move (v.run op).1 := by
  cases op with
  | create fn perms now =>
    simp only [run, create]
    split
    · next i _ hi => exact .create i fn now _ (freeSlot_eq_some.mp hi).1 (freeSlot_eq_some.mp hi).2.1
    · exact .stay
  | lookup fn => exact .stay
  | remove fn =>
    simp only [run, remove]
    split
    · next i hi => exact .remove i (live_of_slotOf hi)
    · exact .stay
  | getBlock ino iblock create =>
    obtain ⟨i, rfl, hi⟩ := h
    simp only [run, getBlock, v2s_succ, Int.toNat_natCast]
    split_ifs with hk hne hc
    · exact .stay
    · split
      · exact .stay
      · next b bs hb => exact .grant i ⟨iblock, hk⟩ b bs hi (not_not.mp hne) hb
    · exact .stay
    · exact .stay
  | update ino size timestamp perms =>
    obtain ⟨i, rfl, hi⟩ := h
    simp only [run, update, v2s_succ, Int.toNat_natCast]
    exact .update i _ _ hi.1 rfl rfl

/-- Only an allocating `sfs_get_block` sets a pointer that was zero. -/
theorem run_sets {op : Op} (h : op.Legal v) {i : ℕ} {k : Fin 9} (hz : (v.entry i).blocks k = 0)
    (hne : ((v.run op).1.entry i).blocks k ≠ 0) :
    op = .getBlock ((i : ℤ) + 1) k.val true ∧ v.used.free v.start ≠ [] := by
  cases op with
  | create fn perms now =>
    simp only [run, create] at hne
    split at hne
    · rw [put_entry] at hne
      split_ifs at hne
      · exact absurd rfl hne
      · exact absurd hz hne
    · exact absurd hz hne
  | lookup fn => exact absurd hz hne
  | remove fn =>
    simp only [run, remove] at hne
    split at hne
    · rw [release_entry] at hne
      split_ifs at hne
      · exact absurd rfl hne
      · exact absurd hz hne
    · exact absurd hz hne
  | getBlock ino iblock c =>
    obtain ⟨j, rfl, hj⟩ := h
    simp only [run, getBlock, v2s_succ, Int.toNat_natCast] at hne
    split_ifs at hne with hk h0 hc
    · exact absurd hz hne
    · split at hne
      · exact absurd hz hne
      · next b bs hb =>
        rw [grant_entry] at hne
        split_ifs at hne with hij
        · subst hij
          rw [point_blocks] at hne
          split_ifs at hne with hkl
          · subst hkl
            exact ⟨by rw [hc], by simp [hb]⟩
          · exact absurd hz hne
        · exact absurd hz hne
    · exact absurd hz hne
    · exact absurd hz hne
  | update ino size timestamp perms =>
    obtain ⟨j, rfl, hj⟩ := h
    simp only [run, update, v2s_succ, Int.toNat_natCast] at hne
    rw [release_entry] at hne
    split_ifs at hne with hij
    · subst hij
      rw [keep_blocks] at hne
      split_ifs at hne
      · exact absurd rfl hne
      · exact absurd hz hne
    · exact absurd hz hne

/-- An allocating `sfs_get_block` grants the first free block. -/
theorem run_getBlock_grant {i : ℕ} {k : Fin 9} {b : ℕ} {bs : List ℕ}
    (hz : (v.entry i).blocks k = 0) (hb : v.used.free v.start = b :: bs) :
    (v.run (.getBlock ((i : ℤ) + 1) k.val true)).1 = v.grant i k b := by
  simp [run, getBlock, v2s_succ, hz, hb]

/-- The block mapped is the one that the entry points at afterwards. -/
theorem getBlock_maps (hs : v.used.size ≤ 2 ^ 31) (h0 : 0 < v.start) {i iblock : ℕ} {c : Bool}
    {b : UInt32} (hb : (v.getBlock i iblock c).2.2 = some b) : ∃ k : Fin 9, iblock = k.val ∧
      b ≠ 0 ∧ ((v.getBlock i iblock c).1.entry i).blocks k = b := by
  unfold getBlock at hb ⊢
  by_cases hk : iblock < 9
  · refine ⟨⟨iblock, hk⟩, rfl, ?_⟩
    rw [dif_pos hk] at hb ⊢
    split_ifs at hb ⊢ with hne hc
    · obtain rfl := Option.some.inj hb
      exact ⟨hne, rfl⟩
    · split at hb
      · exact absurd hb (by simp)
      · next d ds hd =>
        obtain rfl := Option.some.inj hb
        obtain ⟨hlo, hlt, _⟩ := free_head hd
        refine ⟨fun hz => ?_, ?_⟩
        · have hn := congrArg UInt32.toNat hz
          rw [UInt32.toNat_ofNat', Nat.mod_eq_of_lt (by omega), UInt32.toNat_zero] at hn
          omega
        · rw [grant_entry, if_pos rfl, point_blocks, if_pos rfl]
  · rw [dif_neg hk] at hb
    exact absurd hb (by simp)

end Volume

/-! ### Refinement -/

/-- `m'` is a well-formed mount with the super block of `m` and volume `v`. -/
structure Mount.Becomes (m m' : Mount) (v : Volume) : Prop where
  wf : m'.Wf
  sb : m'.sb = m.sb
  volume : m'.volume = v

variable {κ : Kernel} {m : Mount} {i : ℕ}

theorem permsOfMode_le (mode : UInt32) : permsOfMode mode ≤ 7 := by
  unfold permsOfMode
  split_ifs <;> omega

/-- `sfs_write_inode` is the update of a regular file. -/
theorem sfsWriteInode_step (m : Mount) (inode : Inode) :
    (sfsWriteInode κ m inode).1 = if sIsReg inode.iMode = true then
      step κ m (.update inode.iIno (some inode.iSize)
        (some (if inode.iMtime > inode.iCtime then inode.iMtime else inode.iCtime))
        (some (permsOfMode inode.iMode))) else m := by
  rw [sfsWriteInode]
  by_cases hr : sIsReg inode.iMode = true
  · rw [if_neg (not_not_intro hr), if_pos hr]
    rfl
  · rw [if_pos hr, if_neg hr]

theorem Mount.Wf.becomes_tick (hm : m.Wf) (n : ℕ) : m.Becomes (m.tick n) m.volume :=
  ⟨hm.tick n, rfl, rfl⟩

theorem Mount.Wf.becomes_released (hm : m.Wf) (n i : ℕ) (bs : List UInt32) (fe : SfsFileEntry) :
    m.Becomes ((m.tick n).released i bs fe) (m.volume.release i bs fe) :=
  ⟨(hm.tick n).released i bs fe, rfl, (m.tick n).released_volume i bs fe⟩

theorem sfsCreate_refines (hκ : κ.Reliable) (hm : m.Wf) (fn : List UInt8) (perms : ℤ)
    (now : UInt32) : ∃ m', sfsCreate κ m fn perms now = (m', (m.volume.create fn perms now).2) ∧
      m.Becomes m' (m.volume.create fn perms now).1 := by
  by_cases h : m.volume.slotOf fn = none ∧ κ.Scans m m.sb.entryCount.toNat ∧
      ∃ i, m.volume.freeSlot = some i
  · obtain ⟨hs, hr, i, hi⟩ := h
    rw [sfsCreate_writes hκ.toSound hm.geometry perms now hs hr hi, if_pos (hκ.bread _ _)]
    simp only [Volume.create, hs, hi]
    exact ⟨_, rfl, hm.becomes_released _ i [] _⟩
  · obtain ⟨c, hc⟩ := sfsCreate_fails hκ.toSound hm.geometry perms now h
    have hv : m.volume.create fn perms now = (m.volume, -1) := by
      rw [Volume.create]
      split
      · next i hs hi => exact absurd ⟨hs, hκ.scans _, i, hi⟩ h
      · rfl
    rw [hv]
    exact ⟨_, hc, hm.becomes_tick c⟩

theorem sfsLookup_refines (hκ : κ.Reliable) (hm : m.Wf) (fn : List UInt8) :
    ∃ n fe, sfsLookup κ m fn = (m.tick n, m.volume.lookup fn, fe) ∧
      ∀ i, m.volume.slotOf fn = some i → fe = m.volume.entry i := by
  rw [Volume.lookup]
  cases hs : m.volume.slotOf fn with
  | none =>
    obtain ⟨c, hc⟩ := sfsLookup_fails hκ.toSound hm.geometry (show ¬ ∃ s, m.volume.slotOf fn = some s ∧ κ.Scans m (s + 1) by
      simp [hs])
    exact ⟨c, _, hc, by simp⟩
  | some i =>
    refine ⟨_, _, sfsLookup_found hκ.toSound hm.geometry hs (hκ.scans _), ?_⟩
    rintro j hj
    rw [← Option.some.inj hj]
    rfl

theorem sfsRemove_refines (hκ : κ.Reliable) (hm : m.Wf) (fn : List UInt8) :
    ∃ m', sfsRemove κ m fn = (m', (m.volume.remove fn).2) ∧
      m.Becomes m' (m.volume.remove fn).1 := by
  rw [Volume.remove]
  cases hs : m.volume.slotOf fn with
  | none =>
    obtain ⟨c, hc⟩ := sfsRemove_fails hκ.toSound hm.geometry (show ¬ ∃ s, m.volume.slotOf fn = some s ∧ κ.Scans m (s + 1) by
      simp [hs])
    exact ⟨_, hc, hm.becomes_tick c⟩
  | some i =>
    rw [sfsRemove_writes hκ.toSound hm.geometry hs (hκ.scans _), if_pos (hκ.bread _ _)]
    exact ⟨_, rfl, hm.becomes_released _ i _ _⟩

theorem sfsGetBlock_refines (hκ : κ.Reliable) (hm : m.Wf) (hi : i < m.volume.count)
    (iblock : ℕ) (create : Bool) :
    ∃ m', sfsGetBlock κ m ((i : ℤ) + 1) iblock create =
        (m', (m.volume.getBlock i iblock create).2) ∧
      m.Becomes m' (m.volume.getBlock i iblock create).1 := by
  have hr : κ.bread m.breads (κ.slotBlock i) = true := hκ.bread _ _
  rw [Volume.getBlock]
  by_cases hk : iblock < 9
  · rw [dif_pos hk]
    by_cases hne : (m.volume.entry i).blocks ⟨iblock, hk⟩ = 0
    · rw [if_neg (not_not.mpr hne)]
      cases create with
      | false =>
        exact ⟨_, sfsGetBlock_hole hκ.toSound hm hi ⟨iblock, hk⟩ hr hne, hm.becomes_tick 1⟩
      | true =>
        cases hf : m.usedBlocks.free m.sb.dataBlockStart.toNat with
        | nil =>
          have he := sfsGetBlock_full hκ.toSound hm hi ⟨iblock, hk⟩ hr hne hf
          simp only [show m.volume.used.free m.volume.start = [] from hf]
          exact ⟨_, he, hm.becomes_tick 1⟩
        | cons b bs =>
          have he := sfsGetBlock_writes hκ.toSound hm hi ⟨iblock, hk⟩ hr hne hf
          rw [if_pos (hκ.bread _ _)] at he
          simp only [show m.volume.used.free m.volume.start = b :: bs from hf]
          exact ⟨_, he, ⟨(hm.tick 1).granted i _ b, rfl, (m.tick 1).granted_volume i _ b⟩⟩
    · rw [if_pos hne]
      exact ⟨_, sfsGetBlock_mapped hκ.toSound hm hi ⟨iblock, hk⟩ create hr hne, hm.becomes_tick 1⟩
  · rw [dif_neg hk]
    exact ⟨m, sfsGetBlock_far hk _ _, ⟨hm, rfl, rfl⟩⟩

theorem sfsUpdate_refines (hκ : κ.Reliable) (hm : m.Wf) (hi : i < m.volume.count)
    (size timestamp perms : Option ℤ) :
    ∃ m', sfsUpdate κ m ((i : ℤ) + 1) size timestamp perms = (m', 0) ∧
      m.Becomes m' (m.volume.update i size timestamp perms) := by
  rw [sfsUpdate_writes hκ.toSound hm.geometry hi (hκ.bread _ _) size timestamp perms rfl,
    if_pos (hκ.bread _ _)]
  exact ⟨_, rfl, hm.becomes_released 1 i _ _⟩

/-- The inode numbers given lie in the table. -/
def Op.Addressed (v : Volume) : Op → Prop
  | .getBlock ino _ _ => ∃ i < v.count, ino = (i : ℤ) + 1
  | .update ino _ _ _ => ∃ i < v.count, ino = (i : ℤ) + 1
  | _ => True

theorem Op.Legal.addressed {v : Volume} {op : Op} (h : op.Legal v) : op.Addressed v := by
  cases op with
  | getBlock ino iblock create =>
    obtain ⟨i, hi, hl⟩ := h
    exact ⟨i, hl.1, hi⟩
  | update ino size timestamp perms =>
    obtain ⟨i, hi, hl⟩ := h
    exact ⟨i, hl.1, hi⟩
  | _ => trivial

/-- Without failing reads every operation does to the mount what its counterpart
does to the volume, and returns the same code. -/
theorem run_refines (hκ : κ.Reliable) (hm : m.Wf) {op : Op} (h : op.Addressed m.volume) :
    ∃ m', op.run κ m = (m', (m.volume.run op).2) ∧ m.Becomes m' (m.volume.run op).1 := by
  cases op with
  | create fn perms now => exact sfsCreate_refines hκ hm fn perms now
  | lookup fn =>
    obtain ⟨n, fe, he, _⟩ := sfsLookup_refines hκ hm fn
    exact ⟨m.tick n, by rw [Op.run, he]; rfl, hm.becomes_tick n⟩
  | remove fn => exact sfsRemove_refines hκ hm fn
  | getBlock ino iblock create =>
    obtain ⟨i, hi, rfl⟩ := h
    obtain ⟨m', he, hb⟩ := sfsGetBlock_refines hκ hm hi iblock create
    refine ⟨m', ?_, ?_⟩
    · rw [Op.run, he, Volume.run, v2s_succ]
      rfl
    · rw [Volume.run, v2s_succ]
      exact hb
  | update ino size timestamp perms =>
    obtain ⟨i, hi, rfl⟩ := h
    obtain ⟨m', he, hb⟩ := sfsUpdate_refines hκ hm hi size timestamp perms
    refine ⟨m', by rw [Op.run, he]; rfl, ?_⟩
    rw [Volume.run, v2s_succ]
    exact hb

theorem step_becomes (hκ : κ.Reliable) (hm : m.Wf) {op : Op} (h : op.Addressed m.volume) :
    m.Becomes (step κ m op) (m.volume.run op).1 := by
  obtain ⟨m', he, hb⟩ := run_refines hκ hm h
  rw [step, he]
  exact hb

theorem run_code (hκ : κ.Reliable) (hm : m.Wf) {op : Op} (h : op.Addressed m.volume) :
    (op.run κ m).2 = (m.volume.run op).2 := by
  obtain ⟨m', he, _⟩ := run_refines hκ hm h
  rw [he]

/-- The invariant of every mount reached by operations on live inodes. -/
structure Mount.Sane (m : Mount) : Prop where
  wf : m.Wf
  owned : m.volume.Owned

theorem Mount.Fresh.sane (h : m.Fresh) : m.Sane := ⟨h.wf, h.owned⟩

theorem Mount.Sane.step (hκ : κ.Reliable) (h : m.Sane) {op : Op} (hop : op.Legal m.volume) :
    (step κ m op).Sane := by
  have hb := step_becomes hκ h.wf hop.addressed
  refine ⟨hb.wf, ?_⟩
  rw [hb.volume]
  exact h.owned.move h.wf.size_lt (Volume.move_run hop)

/-- An update keeps ownership whether or not the slot has a name. -/
theorem Mount.Sane.update (hκ : κ.Reliable) (h : m.Sane) {i : ℕ} (hi : i < m.volume.count)
    (size timestamp perms : Option ℤ) :
    (Sfs.step κ m (.update ((i : ℤ) + 1) size timestamp perms)).Sane := by
  have hb := step_becomes hκ h.wf
    (show (Op.update ((i : ℤ) + 1) size timestamp perms).Addressed m.volume from ⟨i, hi, rfl⟩)
  refine ⟨hb.wf, ?_⟩
  rw [hb.volume, Volume.run, v2s_succ]
  exact h.owned.move h.wf.size_lt (.update i _ _ hi rfl rfl)

/-- A run of operations on live inodes. -/
def LegalRun (κ : Kernel) (m : Mount) (ops : List Op) : Prop :=
  Run.Along (Sfs.step κ) (fun m op => op.Legal m.volume) m ops

theorem LegalRun.sane (hκ : κ.Reliable) (h : m.Sane) {ops : List Op} (hl : LegalRun κ m ops) :
    (Run.exec (Sfs.step κ) m ops).Sane :=
  Run.exec_inv (fun _ _ hs hop => hs.step hκ hop) h hl

/-- No operation touches the super block in memory. -/
theorem LegalRun.sb_eq (hκ : κ.Reliable) (h : m.Sane) {ops : List Op} (hl : LegalRun κ m ops) :
    (Run.exec (Sfs.step κ) m ops).sb = m.sb := by
  induction ops generalizing m with
  | nil => rfl
  | cons op ops ih =>
    have hs := (step_becomes hκ h.wf hl.1.addressed).sb
    exact (ih (h.step hκ hl.1) hl.2).trans hs

end Linuxpedia.Sfs
