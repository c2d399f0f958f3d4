import Linuxpedia.Sfs.Ownership

/-! Writes in flight. The VFS maps a block with `sfs_get_block` before it copies the
data and raises `i_size` only afterwards, while `sfs_write_inode` may run in
between and frees every block behind the size it sees. No block in flight is lost
exactly when each `sfs_write_inode` runs with the size past every block that is in
flight for its inode. -/

namespace Linuxpedia.Sfs

open Lib

variable {κ : Kernel}

/-- A file block and the physical block it was mapped to. -/
structure Mapped where
  ino : ℤ
  k : ℕ
  phys : UInt32
  deriving DecidableEq

/-- The mount and what the VFS keeps of its inodes. -/
structure Vfs where
  mount : Mount
  iSize : ℤ → ℤ
  inflight : List Mapped
  completed : List Mapped

/-- Whole operations of the VFS; `writeEnd w pos` completes `w` at file position
`pos`. -/
inductive Act where
  | writeBegin (ino : ℤ) (k : ℕ)
  | writeEnd (w : Mapped) (pos : ℤ)
  | writeInode (ino mtime ctime : ℤ) (mode : UInt32)

namespace Vfs

def step (κ : Kernel) (s : Vfs) : Act → Vfs
  | .writeBegin ino k =>
    match sfsGetBlock κ s.mount ino k true with
    | (m, _, none) => { s with mount := m }
    | (m, _, some phys) => { s with mount := m, inflight := ⟨ino, k, phys⟩ :: s.inflight }
  | .writeEnd w pos =>
    { s with
      iSize := Function.update s.iSize w.ino (max (s.iSize w.ino) pos)
      inflight := s.inflight.erase w
      completed := w :: s.completed }
  | .writeInode ino mtime ctime mode =>
    { s with mount := (sfsWriteInode κ s.mount ⟨ino, s.iSize ino, mtime, ctime, mode⟩).1 }

/-- What the VFS is trusted with: inodes are those of named entries, a write ends
once and covers its block. -/
def Legal (s : Vfs) : Act → Prop
  | .writeBegin ino _ => s.mount.volume.LiveIno ino
  | .writeEnd w pos => w ∈ s.inflight ∧ w.k * 512 < pos ∧ pos < 2 ^ 31
  | .writeInode ino _ _ _ => s.mount.volume.LiveIno ino

/-- An `sfs_write_inode` sees a size past every block in flight for its inode. -/
def PastInflight (s : Vfs) : Act → Prop
  | .writeInode ino _ _ mode => sIsReg mode = true →
      ∀ w ∈ s.inflight, w.ino = ino → w.k * 512 < s.iSize ino
  | _ => True

/-- A block in flight, or completed and within the size of its file. -/
def InUse (s : Vfs) (w : Mapped) : Prop :=
  w ∈ s.inflight ∨ (w ∈ s.completed ∧ w.k * 512 < s.iSize w.ino)

/-- Every block in flight is still pointed at and marked, and no two file blocks in
use have the same physical block. -/
structure NoLoss (s : Vfs) : Prop where
  mapped : ∀ w ∈ s.inflight, ∃ (i : ℕ) (k : Fin 9), w.ino = (i : ℤ) + 1 ∧ w.k = k.val ∧
    (entryAt s.mount.dev i).blocks k = w.phys ∧ s.mount.usedBlocks.cell w.phys.toNat ≠ 0
  distinct : ∀ w w', s.InUse w → s.InUse w' → w.phys = w'.phys → w.ino = w'.ino ∧ w.k = w'.k

/-- The file block is pointed at by the entry of its inode. -/
def Points (m : Mount) (w : Mapped) : Prop :=
  ∃ (i : ℕ) (k : Fin 9), w.ino = (i : ℤ) + 1 ∧ w.k = k.val ∧ i < m.sb.entryCount.toNat ∧
    w.phys ≠ 0 ∧ (entryAt m.dev i).blocks k = w.phys

structure Inv (s : Vfs) : Prop where
  sane : s.mount.Sane
  size : ∀ i < s.mount.sb.entryCount.toNat,
    0 ≤ s.iSize ((i : ℤ) + 1) ∧ s.iSize ((i : ℤ) + 1) < 2 ^ 31
  points : ∀ w, w ∈ s.inflight ∨ w ∈ s.completed → Points s.mount w
  past : ∀ w ∈ s.completed, w.k * 512 < s.iSize w.ino

variable {s : Vfs}

theorem Inv.noLoss (h : s.Inv) : s.NoLoss := by
  constructor
  · intro w hw
    obtain ⟨i, k, hino, hk, hi, h0, hb⟩ := h.points w (Or.inl hw)
    have hheld : s.mount.volume.Held (i, k) w.phys.toNat := by
      rw [← hb]
      exact Volume.held_of_ne hi (by rw [← hb] at h0; exact h0)
    exact ⟨i, k, hino, hk, hb, (h.sane.owned.ledger.marked hheld).2⟩
  · have hheld : ∀ w, s.InUse w → ∃ (i : ℕ) (k : Fin 9), w.ino = (i : ℤ) + 1 ∧ w.k = k.val ∧
        s.mount.volume.Held (i, k) w.phys.toNat := by
      intro w hw
      obtain ⟨i, k, hino, hk, hi, h0, hb⟩ := h.points w (hw.imp_right And.left)
      exact ⟨i, k, hino, hk, by rw [← hb] at h0 ⊢; exact Volume.held_of_ne hi h0⟩
    intro w w' hw hw' he
    obtain ⟨i, k, hino, hk, hp⟩ := hheld w hw
    obtain ⟨j, l, hjno, hl, hq⟩ := hheld w' hw'
    rw [← he] at hq
    obtain ⟨rfl, rfl⟩ := Prod.mk.inj (h.sane.owned.ledger.inj hp hq)
    exact ⟨hino.trans hjno.symm, hk.trans hl.symm⟩

/-- A driver operation that does not give a pointer up keeps the file block mapped. -/
theorem Points.step {m : Mount} {w : Mapped} (h : Points m w) (hκ : κ.Reliable) (hm : m.Sane)
    {op : Op} (hop : op.Legal m.volume) (hs : op.Sized)
    (hg : ∀ (i : ℕ) (k : Fin 9), w.ino = (i : ℤ) + 1 → w.k = k.val → ¬ op.GivesUp m i k) :
    Points (Sfs.step κ m op) w := by
  obtain ⟨i, k, hino, hk, hi, h0, hb⟩ := h
  have hsb := (step_becomes hκ hm.wf hop.addressed).sb
  exact ⟨i, k, hino, hk, by rwa [hsb], h0,
    hm.step_keeps hκ hop hs hi h0 hb (hg i k hino hk)⟩

/-- The update that `sfs_write_inode` makes of a regular file. -/
def flush (s : Vfs) (ino mtime ctime : ℤ) (mode : UInt32) : Op :=
  .update ino (some (s.iSize ino)) (some (if mtime > ctime then mtime else ctime))
    (some (permsOfMode mode))

theorem step_writeInode (s : Vfs) (ino mtime ctime : ℤ) (mode : UInt32) :
    s.step κ (.writeInode ino mtime ctime mode) = if sIsReg mode = true then
      { s with mount := Sfs.step κ s.mount (s.flush ino mtime ctime mode) } else s := by
  rw [step, sfsWriteInode_step]
  by_cases hr : sIsReg mode = true
  · simp only [hr, ↓reduceIte]
    rfl
  · simp only [hr, ↓reduceIte, Bool.false_eq_true]

namespace Inv

variable (h : s.Inv) (hκ : κ.Reliable)

include h

/-- Completing a write moves its block past the new size. -/
theorem writeEnd {w : Mapped} {pos : ℤ} (hl : s.Legal (.writeEnd w pos)) :
    (s.step κ (.writeEnd w pos)).Inv := by
  obtain ⟨hw, hpos, hlt⟩ := hl
  have hsize : ∀ ino, s.iSize ino ≤ Function.update s.iSize w.ino (max (s.iSize w.ino) pos) ino := by
    intro ino
    rw [Function.update_apply]
    split_ifs with hino
    · rw [hino]
      omega
    · exact le_refl _
  refine ⟨h.sane, ?_, ?_, ?_⟩
  · intro i hi
    obtain ⟨h0, h31⟩ := h.size i hi
    refine ⟨le_trans h0 (hsize _), ?_⟩
    simp only [step, Function.update_apply]
    split_ifs with hino
    · rw [← hino]
      omega
    · exact h31
  · rintro x (hx | hx)
    · exact h.points x (Or.inl (List.mem_of_mem_erase hx))
    · rcases List.mem_cons.mp hx with rfl | hx
      · exact h.points x (Or.inl hw)
      · exact h.points x (Or.inr hx)
  · intro x hx
    rcases List.mem_cons.mp hx with rfl | hx
    · simp only [step, Function.update_self]
      omega
    · exact lt_of_lt_of_le (h.past x hx) (hsize _)

theorem flush_legal {ino : ℤ} (hl : s.mount.volume.LiveIno ino) (mtime ctime : ℤ)
    (mode : UInt32) : (s.flush ino mtime ctime mode).Legal s.mount.volume ∧
      (s.flush ino mtime ctime mode).Sized := by
  refine ⟨hl, s.iSize ino, rfl, ?_⟩
  obtain ⟨i, rfl, hi⟩ := hl
  exact h.size i hi.1

include hκ

/-- Mapping a block keeps every other one. -/
theorem writeBegin {ino : ℤ} {k : ℕ} (hl : s.Legal (.writeBegin ino k)) :
    (s.step κ (.writeBegin ino k)).Inv := by
  obtain ⟨i, rfl, hi⟩ := hl
  have hlegal : (Op.getBlock ((i : ℤ) + 1) k true).Legal s.mount.volume := ⟨i, rfl, hi⟩
  obtain ⟨m', he, hbec⟩ := sfsGetBlock_refines hκ h.sane.wf hi.1 k true
  have hm' : m' = Sfs.step κ s.mount (.getBlock ((i : ℤ) + 1) k true) := by
    rw [Sfs.step, Op.run, he]
  have hsane : m'.Sane := hm' ▸ h.sane.step hκ hlegal
  have hold : ∀ w, w ∈ s.inflight ∨ w ∈ s.completed → Points m' w := by
    intro w hw
    rw [hm']
    exact (h.points w hw).step hκ h.sane hlegal trivial fun _ _ _ _ hg => hg
  have hmaps : ∀ {b}, (s.mount.volume.getBlock i k true).2.2 = some b → _ :=
    Volume.getBlock_maps h.sane.wf.size_lt h.sane.wf.start_pos
  rcases hr : s.mount.volume.getBlock i k true with ⟨v', r, phys⟩
  rw [hr] at he hbec
  rw [step, he]
  cases phys with
  | none => exact ⟨hsane, by rw [hbec.sb]; exact h.size, hold, h.past⟩
  | some phys =>
    refine ⟨hsane, by rw [hbec.sb]; exact h.size, ?_, h.past⟩
    rintro w (hw | hw)
    · rcases List.mem_cons.mp hw with rfl | hw
      · obtain ⟨l, rfl, h0, hl⟩ := hmaps (by rw [hr])
        rw [hr, ← hbec.volume] at hl
        exact ⟨i, l, rfl, rfl, by rw [hbec.sb]; exact hi.1, h0, hl⟩
      · exact hold w (Or.inl hw)
    · exact hold w (Or.inr hw)

/-- Flushing an inode whose size is past its blocks in flight keeps them. -/
theorem writeInode {ino mtime ctime : ℤ} {mode : UInt32}
    (hl : s.Legal (.writeInode ino mtime ctime mode))
    (hq : s.PastInflight (.writeInode ino mtime ctime mode)) :
    (s.step κ (.writeInode ino mtime ctime mode)).Inv := by
  rw [step_writeInode]
  split_ifs with hr
  · obtain ⟨hlegal, hsized⟩ := h.flush_legal hl mtime ctime mode
    have hsb := (step_becomes hκ h.sane.wf hlegal.addressed).sb
    refine ⟨h.sane.step hκ hlegal, by rw [hsb]; exact h.size, ?_, h.past⟩
    intro w hw
    refine (h.points w hw).step hκ h.sane hlegal hsized ?_
    rintro i k hino hk ⟨he, n, hn, hle⟩
    have hbs : s.mount.sb.blockSize.toNat = 512 := by
      rw [h.sane.wf.geometry.blockSize_eq]
      rfl
    obtain rfl : s.iSize ino = n := Option.some.inj hn
    have hwi : w.ino = ino := hino.trans he.symm
    have hpast : w.k * 512 < s.iSize ino := by
      rcases hw with hw | hw
      · exact hq hr w hw hwi
      · exact hwi ▸ h.past w hw
    rw [hbs] at hle
    omega
  · exact h

theorem step {a : Act} (hl : s.Legal a) (hq : s.PastInflight a) : (s.step κ a).Inv := by
  cases a with
  | writeBegin ino k => exact h.writeBegin hκ hl
  | writeEnd w pos => exact h.writeEnd hl
  | writeInode ino mtime ctime mode => exact h.writeInode hκ hl hq

/-- Flushing with a size that ends in front of a block in flight drops its pointer. -/
theorem loses {ino mtime ctime : ℤ} {mode : UInt32}
    (hl : s.Legal (.writeInode ino mtime ctime mode)) (hr : sIsReg mode = true) {w : Mapped}
    (hw : w ∈ s.inflight) (hwi : w.ino = ino) (hle : s.iSize ino ≤ w.k * 512) :
    ¬ (s.step κ (.writeInode ino mtime ctime mode)).NoLoss := by
  intro hn
  rw [step_writeInode, if_pos hr] at hn
  obtain ⟨hlegal, hsized⟩ := h.flush_legal hl mtime ctime mode
  obtain ⟨i, rfl, hi⟩ := hl
  obtain ⟨h0, h31⟩ := h.size i hi.1
  obtain ⟨_, k, _, hk, _, hne, _⟩ := h.points w (Or.inl hw)
  obtain ⟨j, l, hj, hl, hb, _⟩ := hn.mapped w hw
  obtain rfl : j = i := by omega
  obtain rfl : l = k := Fin.ext (hl.symm.trans hk)
  have hv := congrArg Volume.entry (step_becomes hκ h.sane.wf hlegal.addressed).volume
  have hent : entryAt (Sfs.step κ s.mount (s.flush ((j : ℤ) + 1) mtime ctime mode)).dev j = _ :=
    congrFun hv j
  rw [hent] at hb
  simp only [flush, Volume.run, Volume.update, v2s_succ, Int.toNat_natCast,
    Volume.release_entry, ↓reduceIte] at hb
  rw [sizeBlocks_withAttrs _ h0 h31, Volume.keep_blocks, if_pos (by omega)] at hb
  exact hne hb.symm

/-- One step loses nothing exactly when it flushes past the blocks in flight. -/
theorem noLoss_step_iff {a : Act} (hl : s.Legal a) :
    (s.step κ a).NoLoss ↔ s.PastInflight a := by
  constructor
  · intro hn
    cases a with
    | writeInode ino mtime ctime mode =>
      intro hr w hw hwi
      by_contra hle
      exact h.loses hκ hl hr hw hwi (by omega) hn
    | _ => trivial
  · intro hq
    exact (h.step hκ hl hq).noLoss

end Inv

end Vfs

/-- From a mount with nothing in flight, no block in flight is ever lost exactly
when every flush along the run sees a size past the blocks in flight. -/
theorem no_inflight_loss_iff (hκ : κ.Reliable) {m : Mount} (hm : Mounted κ m) (ops : List Op)
    (hops : LegalRun κ m ops) (iSize : ℤ → ℤ)
    (hsize : ∀ i < m.sb.entryCount.toNat, 0 ≤ iSize ((i : ℤ) + 1) ∧ iSize ((i : ℤ) + 1) < 2 ^ 31)
    (acts : List Act)
    (hl : Run.Along (Vfs.step κ) Vfs.Legal ⟨Run.exec (step κ) m ops, iSize, [], []⟩ acts) :
    (∀ pre, pre <+: acts →
      (Run.exec (Vfs.step κ) ⟨Run.exec (step κ) m ops, iSize, [], []⟩ pre).NoLoss) ↔
      Run.Along (Vfs.step κ) Vfs.PastInflight ⟨Run.exec (step κ) m ops, iSize, [], []⟩ acts := by
  have h0 := (hm.fresh hκ).sane
  have hinv : Vfs.Inv ⟨Run.exec (step κ) m ops, iSize, [], []⟩ := by
    refine ⟨LegalRun.sane hκ h0 hops, ?_, by simp, by simp⟩
    rw [LegalRun.sb_eq hκ h0 hops]
    exact hsize
  rw [Run.forall_prefix_iff]
  have hiff : Run.Along (Vfs.step κ) (fun s a => (s.step κ a).NoLoss) _ acts ↔
      Run.Along (Vfs.step κ) Vfs.PastInflight _ acts :=
    Run.along_iff (fun (s : Vfs) a (h : s.Inv) hl hq => h.step hκ hl hq)
      (fun (s : Vfs) a (h : s.Inv) hl => h.noLoss_step_iff hκ hl) hinv hl
  rw [hiff]
  exact and_iff_right hinv.noLoss

/-- The small device with one file `a`, open and empty. -/
def sampleVfs : Vfs :=
  ⟨Run.exec (step sampleKernel) sampleMount [.create [97] 7 0], fun _ => 0, [], []⟩

/-- A write that is completed before the flush loses nothing. -/
theorem no_inflight_loss_sample : (Run.exec (Vfs.step sampleKernel) sampleVfs
    [.writeBegin 1 0, .writeEnd ⟨1, 0, 2⟩ 5, .writeInode 1 0 0 0o100644]).NoLoss := by
  refine (no_inflight_loss_iff sampleKernel_reliable sampleMount_mounted [.create [97] 7 0]
    ⟨trivial, trivial⟩ (fun _ => 0) (fun i _ => by simp)
    [.writeBegin 1 0, .writeEnd ⟨1, 0, 2⟩ 5, .writeInode 1 0 0 0o100644]
    ⟨⟨0, rfl, by decide +kernel⟩, ⟨by decide +kernel, by decide, by decide⟩,
      ⟨0, rfl, by decide +kernel⟩, trivial⟩).mpr ⟨trivial, trivial, ?_, trivial⟩ _ List.prefix_rfl
  intro _ w hw
  have hnil : (Run.exec (Vfs.step sampleKernel) sampleVfs
      [.writeBegin 1 0, .writeEnd ⟨1, 0, 2⟩ 5]).inflight = [] := by decide +kernel
  change w ∈ (Run.exec (Vfs.step sampleKernel) sampleVfs
    [.writeBegin 1 0, .writeEnd ⟨1, 0, 2⟩ 5]).inflight at hw
  rw [hnil] at hw
  exact absurd hw (by simp)

/-- A flush between the mapping and the end of the first write of `a` frees the
block in flight. -/
theorem flush_loses_block : Run.Along (Vfs.step sampleKernel) Vfs.Legal sampleVfs
      [.writeBegin 1 0, .writeInode 1 0 0 0o100644] ∧
    ¬ (Run.exec (Vfs.step sampleKernel) sampleVfs
      [.writeBegin 1 0, .writeInode 1 0 0 0o100644]).NoLoss := by
  refine ⟨⟨⟨0, rfl, by decide +kernel⟩, ⟨0, rfl, by decide +kernel⟩, trivial⟩, fun h => ?_⟩
  have hw : (⟨1, 0, 2⟩ : Mapped) ∈ (Run.exec (Vfs.step sampleKernel) sampleVfs
      [.writeBegin 1 0, .writeInode 1 0 0 0o100644]).inflight := by decide +kernel
  obtain ⟨i, k, hi, hk, hb, _⟩ := h.mapped _ hw
  obtain rfl : i = 0 := by
    have h1 : (1 : ℤ) = (i : ℤ) + 1 := hi
    omega
  obtain rfl : k = 0 := Fin.ext hk.symm
  exact absurd hb (by decide +kernel)

end Linuxpedia.Sfs
