import Linuxpedia.Sfs.Operations

/-! Inodes of unlinked files. An inode number is a slot number and `sfs_create`
reuses slots at once, while `sfs_get_file_entry` does not look at the name as the
scans of the table do. A call for an unlinked file leaves the other files alone
exactly when it asks for nothing: a block that is neither there nor allocatable, or
attributes that the slot already has. -/

namespace Linuxpedia.Sfs

open Lib

variable {κ : Kernel}

/-- An inode number with the count of files created in its slot so far: what tells
a file from a later one in the same slot. -/
structure FileRef where
  ino : ℤ
  gen : ℕ
  deriving DecidableEq

/-- The mount, the number of files created in each slot and the references that
the VFS was handed. -/
structure Files where
  mount : Mount
  gen : ℕ → ℕ
  refs : List FileRef

inductive FileAct where
  | lookup (fn : List UInt8)
  | create (fn : List UInt8) (mode now : UInt32) (newInode : Bool)
  | unlink (fn : List UInt8)
  | getBlock (r : FileRef) (iblock : ℕ) (create : Bool)
  | writeInode (r : FileRef) (iSize mtime ctime : ℤ) (mode : UInt32)

namespace Files

/-- The counts once `sfs_create` has returned `ino`: a slot it filled holds a new file,
whether or not its inode can be set up. -/
def created (s : Files) (ino : ℤ) : ℕ → ℕ :=
  if ino = -1 then s.gen
  else Function.update s.gen (v2sInodeNum ino).toNat (s.gen (v2sInodeNum ino).toNat + 1)

def step (κ : Kernel) (s : Files) : FileAct → Files
  | .lookup fn =>
    match sfsLookup κ s.mount fn with
    | (m, ino, _) =>
      if ino = -1 then { s with mount := m }
      else { s with mount := m, refs := ⟨ino, s.gen (v2sInodeNum ino).toNat⟩ :: s.refs }
  | .create fn mode now newInode =>
    let gen := s.created (sfsCreate κ s.mount fn (permsOfMode mode) now).2
    match sfsInodeCreate κ s.mount fn mode now newInode with
    | (m, _, none) => { s with mount := m, gen := gen }
    | (m, _, some ino) =>
      { mount := m, gen := gen, refs := ⟨ino, gen (v2sInodeNum ino).toNat⟩ :: s.refs }
  | .unlink fn => { s with mount := (sfsInodeUnlink κ s.mount fn).1 }
  | .getBlock r iblock c => { s with mount := (sfsGetBlock κ s.mount r.ino iblock c).1 }
  | .writeInode r iSize mtime ctime mode =>
    { s with mount := (sfsWriteInode κ s.mount ⟨r.ino, iSize, mtime, ctime, mode⟩).1 }

/-- The block that a call maps. -/
def maps (κ : Kernel) (s : Files) : FileAct → Option UInt32
  | .getBlock r iblock c => (sfsGetBlock κ s.mount r.ino iblock c).2.2
  | _ => none

/-- The VFS uses references that it was handed. -/
def Legal (s : Files) : FileAct → Prop
  | .getBlock r _ _ => r ∈ s.refs
  | .writeInode r _ _ _ _ => r ∈ s.refs
  | _ => True

/-- The file of a reference is still in its slot. -/
def Current (s : Files) (r : FileRef) : Prop :=
  ∃ i : ℕ, r.ino = (i : ℤ) + 1 ∧ s.mount.volume.Live i ∧ s.gen i = r.gen

/-- The call is for the inode of an unlinked file. -/
def Stale (s : Files) : FileAct → Prop
  | .getBlock r _ _ => ¬ s.Current r
  | .writeInode r _ _ _ _ => ¬ s.Current r
  | _ => False

end Files

/-- A slot with a name holds `b` at position `p`. -/
def Volume.Owns (v : Volume) (p : ℕ × Fin 9) (b : ℕ) : Prop := (v.entry p.1).Named ∧ v.Held p b

/-- A step that leaves every file alone: entries of files stay, their blocks are
neither freed nor mapped, and no block without a file gets marked. -/
structure Volume.Isolated (v v' : Volume) (mapped : Option UInt32) : Prop where
  entries : ∀ i < v.count, (v.entry i).Named → v'.entry i = v.entry i
  kept : ∀ p b, v.Owns p b → b ∈ v'.marked
  maps : ∀ b, mapped = some b → ∀ p, ¬ v.Owns p b.toNat
  leaks : ∀ b ∈ v'.marked, v.start ≤ b → (∀ p, ¬ v'.Owns p b) →
    b ∈ v.marked ∧ ∀ p, ¬ v.Owns p b

namespace Files

/-- The call leaves every other file alone. -/
def Isolates (κ : Kernel) (s : Files) (a : FileAct) : Prop :=
  s.mount.volume.Isolated (s.step κ a).mount.volume (s.maps κ a)

/-- The call asks for nothing: there is no pointer at the index and none can be
made, or the slot has no file, or it has the attributes to be written already. -/
def Harmless (s : Files) : FileAct → Prop
  | .getBlock r iblock c => ∀ (i : ℕ) (k : Fin 9), r.ino = (i : ℤ) + 1 → iblock = k.val →
      (entryAt s.mount.dev i).blocks k = 0 ∧
      (c = true → s.mount.usedBlocks.free s.mount.sb.dataBlockStart.toNat = [])
  | .writeInode r iSize mtime ctime mode => sIsReg mode = true → ∀ i : ℕ, r.ino = (i : ℤ) + 1 →
      (entryAt s.mount.dev i).Named →
      UInt32.ofInt iSize = (entryAt s.mount.dev i).size ∧
      UInt32.ofInt (if mtime > ctime then mtime else ctime) = (entryAt s.mount.dev i).timestamp ∧
      UInt32.ofInt (permsOfMode mode) = (entryAt s.mount.dev i).perms ∧
      ∀ k : Fin 9, (entryAt s.mount.dev i).sizeBlocks ≤ k.val →
        (entryAt s.mount.dev i).blocks k = 0
  | _ => True

end Files

/-- Attributes that the entry has already, and nothing behind its size. -/
theorem rewrite_eq_iff (fe : SfsFileEntry) (size timestamp : ℤ) (mode : UInt32)
    {fe' : SfsFileEntry}
    (hfe : fe' = fe.withAttrs (some size) (some timestamp) (some (permsOfMode mode))) :
    fe'.keep fe'.sizeBlocks = fe ↔ UInt32.ofInt size = fe.size ∧
      UInt32.ofInt timestamp = fe.timestamp ∧ UInt32.ofInt (permsOfMode mode) = fe.perms ∧
      ∀ k : Fin 9, fe.sizeBlocks ≤ k.val → fe.blocks k = 0 := by
  have hperms : fe'.perms = UInt32.ofInt (permsOfMode mode) := by
    rw [hfe]
    exact if_pos (permsOfMode_le mode)
  have hblocks : ∀ k, (fe'.keep fe'.sizeBlocks).blocks k =
      if fe'.sizeBlocks ≤ k.val then 0 else fe.blocks k := by
    rw [hfe]
    exact fun k => rfl
  have hsb : UInt32.ofInt size = fe.size → fe'.sizeBlocks = fe.sizeBlocks := by
    intro h
    have hs : fe'.size = fe.size := by
      rw [hfe]
      exact h
    rw [SfsFileEntry.sizeBlocks, hs, SfsFileEntry.sizeBlocks]
  constructor
  · intro h
    have h1 : UInt32.ofInt size = fe.size := by
      rw [← h, hfe]
      rfl
    refine ⟨h1, by rw [← h, hfe]; rfl, by rw [← hperms, ← h]; rfl, fun k hk => ?_⟩
    have hb := hblocks k
    rw [h, hsb h1, if_pos hk] at hb
    exact hb
  · rintro ⟨h1, h2, h3, h4⟩
    refine SfsFileEntry.ext ?_ ?_ ?_ (hperms.trans h3) (funext fun k => ?_)
    · rw [hfe]
      rfl
    · rw [hfe]
      exact h1
    · rw [hfe]
      exact h2
    · rw [hblocks, hsb h1]
      split_ifs with hk
      · exact (h4 k hk).symm
      · rfl

namespace Volume

variable {v : Volume}

/-- A step that changes no entry with a name and no mark. -/
theorem Owned.isolated (h : v.Owned) {v' : Volume} (hu : v'.used = v.used)
    (hc : v'.count = v.count) (he : ∀ i < v.count, (v.entry i).Named → v'.entry i = v.entry i) :
    v.Isolated v' none := by
  have hmarked : v'.marked = v.marked := by
    rw [marked, hu, marked]
  have howns : ∀ p b, v.Owns p b → v'.Owns p b := by
    rintro p b ⟨hn, hlt, hb, h0⟩
    have hp := he p.1 hlt hn
    exact ⟨by rw [hp]; exact hn, by rw [hc]; exact hlt, by rw [hp]; exact hb, h0⟩
  refine ⟨he, ?_, by simp, ?_⟩
  · intro p b hp
    rw [hmarked]
    exact h.ledger.marked hp.2
  · intro b hb _ hno
    rw [hmarked] at hb
    exact ⟨hb, fun p hp => hno p (howns p b hp)⟩

/-- Mapping a block that is there takes it from its file. -/
theorem not_isolated_mapped (h : v.Owned) {v' : Volume} {i : ℕ} {k : Fin 9} (hi : i < v.count)
    (hk : (v.entry i).blocks k ≠ 0) : ¬ v.Isolated v' (some ((v.entry i).blocks k)) := by
  intro hiso
  have hn : (v.entry i).Named := by
    by_contra hn
    exact hk (h.bare i hi hn k)
  exact hiso.maps _ rfl (i, k) ⟨hn, held_of_ne hi hk⟩

/-- Granting a block changes the file in the slot, or marks a block without a file. -/
theorem not_isolated_grant (h : v.Owned) (hs : v.used.size ≤ 2 ^ 31) (h0 : 0 < v.start) {i : ℕ}
    {k : Fin 9} {b : ℕ} {bs : List ℕ} (hi : i < v.count) (hk : (v.entry i).blocks k = 0)
    (hb : v.used.free v.start = b :: bs) (mapped : Option UInt32) :
    ¬ v.Isolated (v.grant i k b) mapped := by
  obtain ⟨hlo, hlt, hfree⟩ := free_head hb
  intro hiso
  by_cases hn : (v.entry i).Named
  · have he := congrFun (congrArg SfsFileEntry.blocks (hiso.entries i hi hn)) k
    rw [grant_entry, if_pos rfl, point_blocks, if_pos rfl, hk] at he
    have hz := congrArg UInt32.toNat he
    rw [UInt32.toNat_ofNat', Nat.mod_eq_of_lt (by omega), UInt32.toNat_zero] at hz
    omega
  · refine hfree (hiso.leaks b ((mem_marked_take hlt).mpr (Or.inl rfl)) hlo ?_).1
    rintro p ⟨hpn, hp⟩
    by_cases hpi : p = (i, k)
    · subst hpi
      rw [grant_entry, if_pos rfl] at hpn
      exact hn hpn
    · exact hfree (h.ledger.marked ((held_grant hpi).mp hp))

end Volume

namespace Files

/-- Every reference handed out is the number of a slot. -/
structure Inv (s : Files) : Prop where
  sane : s.mount.Sane
  refs : ∀ r ∈ s.refs, ∃ i : ℕ, i < s.mount.volume.count ∧ r.ino = (i : ℤ) + 1

variable {s : Files}

/-- What creating an inode leaves. -/
theorem sfsInodeCreate_spec (hκ : κ.Reliable) {m : Mount} (h : m.Sane) (fn : List UInt8)
    (mode now : UInt32) (newInode : Bool) :
    (sfsInodeCreate κ m fn mode now newInode).1.Sane ∧
    (sfsInodeCreate κ m fn mode now newInode).1.volume.count = m.volume.count ∧
    ∀ ino, (sfsInodeCreate κ m fn mode now newInode).2.2 = some ino →
      ∃ i : ℕ, i < m.volume.count ∧ ino = (i : ℤ) + 1 := by
  obtain ⟨m', he, hbec⟩ := sfsCreate_refines hκ h.wf fn (permsOfMode mode) now
  have hlegal : (Op.create fn (permsOfMode mode) now).Legal m.volume := trivial
  have hstep : Sfs.step κ m (.create fn (permsOfMode mode) now) = m' := by
    rw [Sfs.step, Op.run, he]
  have hm' : m'.Sane := hstep ▸ h.step hκ hlegal
  have hcount : m'.volume.count = m.volume.count := by
    rw [hbec.volume]
    exact (Volume.move_run hlegal).count_eq
  have hremove : (sfsRemove κ m' fn).1.Sane ∧
      (sfsRemove κ m' fn).1.volume.count = m'.volume.count := by
    have hl : (Op.remove fn).Legal m'.volume := trivial
    refine ⟨hm'.step hκ hl, ?_⟩
    have hb := (step_becomes hκ hm'.wf hl.addressed).volume
    exact (congrArg Volume.count hb).trans (Volume.move_run hl).count_eq
  have hslot : (m.volume.create fn (permsOfMode mode) now).2 ≠ -1 → ∃ i : ℕ,
      i < m.volume.count ∧ (m.volume.create fn (permsOfMode mode) now).2 = (i : ℤ) + 1 := by
    rw [Volume.create]
    split
    · next i _ hi => exact fun _ => ⟨i, (Volume.freeSlot_eq_some.mp hi).1, rfl⟩
    · exact fun h1 => absurd rfl h1
  rw [sfsInodeCreate, he]
  simp only
  split_ifs with h1 h2
  · exact ⟨hm', hcount, by simp⟩
  · exact ⟨hm', hcount, fun ino hino => Option.some.inj hino ▸ hslot h1⟩
  · exact ⟨hremove.1, hremove.2.trans hcount, by simp⟩

/-- The update that `sfs_write_inode` makes of a regular file. -/
def flush (r : FileRef) (iSize mtime ctime : ℤ) (mode : UInt32) : Op :=
  .update r.ino (some iSize) (some (if mtime > ctime then mtime else ctime))
    (some (permsOfMode mode))

theorem step_writeInode (s : Files) (r : FileRef) (iSize mtime ctime : ℤ) (mode : UInt32) :
    s.step κ (.writeInode r iSize mtime ctime mode) = if sIsReg mode = true then
      { s with mount := Sfs.step κ s.mount (flush r iSize mtime ctime mode) } else s := by
  rw [step, sfsWriteInode_step]
  by_cases hr : sIsReg mode = true
  · simp only [hr, ↓reduceIte]
    rfl
  · simp only [hr, ↓reduceIte, Bool.false_eq_true]

/-! ### The counts -/

/-- No reference is newer than the last file in its slot. -/
def Counted (s : Files) : Prop := ∀ r ∈ s.refs, r.gen ≤ s.gen (v2sInodeNum r.ino).toNat

theorem le_created (s : Files) (ino : ℤ) (i : ℕ) : s.gen i ≤ s.created ino i := by
  rw [created]
  split_ifs with h1
  · exact le_rfl
  · rw [Function.update_apply]
    split_ifs with hi
    · exact hi ▸ Nat.le_succ _
    · exact le_rfl

theorem Counted.step (h : s.Counted) (a : FileAct) : (s.step κ a).Counted := by
  cases a with
  | lookup fn =>
    rw [Files.step]
    rcases sfsLookup κ s.mount fn with ⟨m', ino, fe⟩
    simp only
    split_ifs with h1
    · exact h
    · exact List.forall_mem_cons.mpr ⟨le_rfl, h⟩
  | create fn mode now newInode =>
    have hold : ∀ r ∈ s.refs, r.gen ≤
        s.created (sfsCreate κ s.mount fn (permsOfMode mode) now).2 (v2sInodeNum r.ino).toNat :=
      fun r hr => (h r hr).trans (s.le_created _ _)
    rw [Files.step]
    rcases sfsInodeCreate κ s.mount fn mode now newInode with ⟨m', e, ino⟩
    cases ino with
    | none => exact hold
    | some ino => exact List.forall_mem_cons.mpr ⟨le_rfl, hold⟩
  | _ => exact h

theorem Counted.not_current (h : s.Counted) {r : FileRef} (hr : r ∈ s.refs) (hne : r.ino ≠ -1)
    {fn : List UInt8} {mode now : UInt32} (newInode : Bool)
    (hino : (sfsCreate κ s.mount fn (permsOfMode mode) now).2 = r.ino) :
    ¬ (s.step κ (.create fn mode now newInode)).Current r := by
  have hgen : (s.step κ (.create fn mode now newInode)).gen = s.created r.ino := by
    rw [Files.step, hino]
    rcases sfsInodeCreate κ s.mount fn mode now newInode with ⟨m', e, ino⟩
    cases ino <;> rfl
  rintro ⟨i, hi, _, hg⟩
  rw [hgen, created, if_neg hne, hi, v2s_succ, Int.toNat_natCast, Function.update_self] at hg
  have hle := h r hr
  rw [hi, v2s_succ, Int.toNat_natCast] at hle
  omega

/-- In every run, once `sfs_create` has filled a slot, no reference handed out before is for
the file in it, even where the new file gets no inode and keeps its entry. -/
theorem not_current_of_created (m : Mount) (acts : List FileAct) {r : FileRef}
    (hr : r ∈ (Run.exec (Files.step κ) ⟨m, fun _ => 0, []⟩ acts).refs) (hne : r.ino ≠ -1)
    {fn : List UInt8} {mode now : UInt32} (newInode : Bool)
    (hino : (sfsCreate κ (Run.exec (Files.step κ) ⟨m, fun _ => 0, []⟩ acts).mount fn
      (permsOfMode mode) now).2 = r.ino) :
    ¬ (Run.exec (Files.step κ) ⟨m, fun _ => 0, []⟩ (acts ++ [.create fn mode now newInode])).Current
      r := by
  have hcounted : Counted (Run.exec (Files.step κ) ⟨m, fun _ => 0, []⟩ acts) :=
    Run.exec_of_step (fun s a (h : s.Counted) => h.step a) (by simp [Counted]) acts
  rw [Run.exec_append, Run.exec_cons, Run.exec_nil]
  exact hcounted.not_current hr hne newInode hino

/-- A reference whose file is current addresses a live inode. -/
theorem Current.liveIno {r : FileRef} (h : s.Current r) : s.mount.volume.LiveIno r.ino := by
  obtain ⟨i, hi, hl, _⟩ := h
  exact ⟨i, hi, hl⟩

namespace Inv

variable (h : s.Inv) (hκ : κ.Reliable)

include h hκ

/-- A call for a block of a slot, in terms of the volume. -/
theorem getBlock_eq {r : FileRef} (hr : r ∈ s.refs) (iblock : ℕ) (c : Bool) :
    ∃ (i : ℕ) (m' : Mount), i < s.mount.volume.count ∧ r.ino = (i : ℤ) + 1 ∧
      sfsGetBlock κ s.mount r.ino iblock c = (m', (s.mount.volume.getBlock i iblock c).2) ∧
      s.mount.Becomes m' (s.mount.volume.getBlock i iblock c).1 := by
  obtain ⟨i, hi, hino⟩ := h.refs r hr
  obtain ⟨m', he, hb⟩ := sfsGetBlock_refines hκ h.sane.wf hi iblock c
  exact ⟨i, m', hi, hino, by rw [hino]; exact he, hb⟩

/-- A harmless call for a block changes nothing and maps nothing. -/
theorem getBlock_harmless {r : FileRef} {iblock : ℕ} {c : Bool} (hr : r ∈ s.refs)
    (hq : s.Harmless (.getBlock r iblock c)) :
    (s.step κ (.getBlock r iblock c)).mount.volume = s.mount.volume ∧
      s.maps κ (.getBlock r iblock c) = none := by
  obtain ⟨i, m', hi, hino, he, hb⟩ := h.getBlock_eq hκ hr iblock c
  have hnone : s.mount.volume.getBlock i iblock c =
      (s.mount.volume, (s.mount.volume.getBlock i iblock c).2.1, none) := by
    rw [Volume.getBlock]
    by_cases hk : iblock < 9
    · obtain ⟨hz, hfull⟩ := hq i ⟨iblock, hk⟩ hino rfl
      have hz' : (s.mount.volume.entry i).blocks ⟨iblock, hk⟩ = 0 := hz
      cases c with
      | false => simp [hk, hz']
      | true =>
        have hf : s.mount.volume.used.free s.mount.volume.start = [] := hfull rfl
        simp [hk, hz', hf]
    · simp [hk]
  rw [step, maps, he]
  exact ⟨by rw [hb.volume, hnone], by rw [hnone]⟩

/-- Reaching the next state keeps the references in range. -/
theorem step {a : FileAct} (hl : s.Legal a) (hq : s.Stale a → s.Harmless a) :
    (s.step κ a).Inv := by
  cases a with
  | lookup fn =>
    obtain ⟨n, fe, he, _⟩ := sfsLookup_refines hκ h.sane.wf fn
    have hsane : (s.mount.tick n).Sane := ⟨h.sane.wf.tick n, h.sane.owned⟩
    rw [Files.step, he]
    simp only
    split_ifs with h1
    · exact ⟨hsane, h.refs⟩
    · refine ⟨hsane, fun r hr => ?_⟩
      rcases List.mem_cons.mp hr with rfl | hr
      · rw [Volume.lookup] at h1 ⊢
        cases hs : s.mount.volume.slotOf fn with
        | none => exact absurd (by rw [hs]; rfl) h1
        | some i => exact ⟨i, (Volume.live_of_slotOf hs).1, rfl⟩
      · exact h.refs r hr
  | create fn mode now newInode =>
    obtain ⟨hsane, hcount, hino⟩ := sfsInodeCreate_spec hκ h.sane fn mode now newInode
    rw [Files.step]
    rcases hr : sfsInodeCreate κ s.mount fn mode now newInode with ⟨m', e, ino⟩
    rw [hr] at hsane hcount hino
    cases ino with
    | none => exact ⟨hsane, fun r hr => by rw [hcount]; exact h.refs r hr⟩
    | some ino =>
      refine ⟨hsane, fun r hr => ?_⟩
      rw [show Volume.count _ = _ from hcount]
      rcases List.mem_cons.mp hr with rfl | hr
      · exact hino ino rfl
      · exact h.refs r hr
  | unlink fn =>
    have hl : (Op.remove fn).Legal s.mount.volume := trivial
    have he : (sfsInodeUnlink κ s.mount fn).1 = Sfs.step κ s.mount (.remove fn) := by
      rw [sfsInodeUnlink, Sfs.step, Op.run]
      simp only
      split_ifs <;> rfl
    have hb := (step_becomes hκ h.sane.wf hl.addressed).volume
    rw [Files.step, he]
    refine ⟨h.sane.step hκ hl, fun r hr => ?_⟩
    rw [hb, (Volume.move_run hl).count_eq]
    exact h.refs r hr
  | getBlock r iblock c =>
    by_cases hs : s.Current r
    · have hop : (Op.getBlock r.ino iblock c).Legal s.mount.volume := hs.liveIno
      have hb := (step_becomes hκ h.sane.wf hop.addressed).volume
      refine ⟨h.sane.step hκ hop, fun r hr => ?_⟩
      change ∃ i : ℕ, i < (Sfs.step κ s.mount (.getBlock _ iblock c)).volume.count ∧ _
      rw [hb, (Volume.move_run hop).count_eq]
      exact h.refs r hr
    · obtain ⟨i, m', _, _, he, hb⟩ := h.getBlock_eq hκ hl iblock c
      have hv := (h.getBlock_harmless hκ hl (hq hs)).1
      have hm : (s.step κ (.getBlock r iblock c)).mount = m' := by
        rw [Files.step, he]
      refine ⟨⟨by rw [hm]; exact hb.wf, by rw [hv]; exact h.sane.owned⟩, fun r hr => ?_⟩
      rw [hv]
      exact h.refs r hr
  | writeInode r iSize mtime ctime mode =>
    obtain ⟨i, hi, hino⟩ := h.refs r hl
    rw [step_writeInode]
    split_ifs with hreg
    · have hb := (step_becomes hκ h.sane.wf
        (show (flush r iSize mtime ctime mode).Addressed s.mount.volume from ⟨i, hi, hino⟩)).volume
      refine ⟨?_, fun r hr => ?_⟩
      · rw [flush, hino]
        exact h.sane.update hκ hi _ _ _
      · rw [show Volume.count _ = _ from congrArg Volume.count hb]
        exact h.refs r hr
    · exact h

/-- A call for a block on any slot isolates exactly when it is harmless. -/
theorem getBlock_isolates_iff {r : FileRef} {iblock : ℕ} {c : Bool} (hr : r ∈ s.refs) :
    s.Isolates κ (.getBlock r iblock c) ↔ s.Harmless (.getBlock r iblock c) := by
  constructor
  · rintro hiso j k hj rfl
    obtain ⟨i, m', hi, hino, he, hb⟩ := h.getBlock_eq hκ hr k c
    obtain rfl : j = i := by omega
    rw [Isolates, maps, Files.step, he] at hiso
    simp only [hb.volume] at hiso
    by_cases hz : (s.mount.volume.entry j).blocks k = 0
    · refine ⟨hz, fun hc => ?_⟩
      by_contra hf
      obtain ⟨b, bs, hbs⟩ := List.exists_cons_of_ne_nil hf
      have hgrant : s.mount.volume.getBlock j k c =
          (s.mount.volume.grant j k b, 0, some (UInt32.ofNat b)) := by
        have hbs' : s.mount.volume.used.free s.mount.volume.start = b :: bs := hbs
        simp [Volume.getBlock, hz, hc, hbs']
      rw [hgrant] at hiso
      exact Volume.not_isolated_grant h.sane.owned h.sane.wf.size_lt h.sane.wf.start_pos hi hz hbs
        _ hiso
    · have hmap : s.mount.volume.getBlock j k c =
          (s.mount.volume, 0, some ((s.mount.volume.entry j).blocks k)) := by
        simp [Volume.getBlock, hz]
      rw [hmap] at hiso
      exact absurd hiso (Volume.not_isolated_mapped h.sane.owned hi hz)
  · intro hq
    obtain ⟨hv, hm⟩ := h.getBlock_harmless hκ hr hq
    rw [Isolates, hv, hm]
    exact h.sane.owned.isolated rfl rfl fun _ _ _ => rfl

/-- A write of an inode on any slot isolates exactly when it is harmless. -/
theorem writeInode_isolates_iff {r : FileRef} {iSize mtime ctime : ℤ} {mode : UInt32}
    (hr : r ∈ s.refs) : s.Isolates κ (.writeInode r iSize mtime ctime mode) ↔
      s.Harmless (.writeInode r iSize mtime ctime mode) := by
  obtain ⟨i, hi, hino⟩ := h.refs r hr
  have hstep := s.step_writeInode (κ := κ) r iSize mtime ctime mode
  by_cases hreg : sIsReg mode = true
  · rw [if_pos hreg] at hstep
    have hb := (step_becomes hκ h.sane.wf
      (show (flush r iSize mtime ctime mode).Addressed s.mount.volume from ⟨i, hi, hino⟩)).volume
    rw [flush, hino, Volume.run, v2s_succ, ← hino] at hb
    set t := if mtime > ctime then mtime else ctime with ht
    set fe := (s.mount.volume.entry i).withAttrs (some iSize) (some t)
      (some (permsOfMode mode)) with hfe
    have hv : (s.step κ (.writeInode r iSize mtime ctime mode)).mount.volume =
        s.mount.volume.release i (fe.dropped fe.sizeBlocks) (fe.keep fe.sizeBlocks) := by
      rw [hstep]
      exact hb
    have hiff := rewrite_eq_iff (s.mount.volume.entry i) iSize t mode hfe
    rw [Isolates, hv]
    constructor
    · rintro hiso _ j hj hn
      obtain rfl : j = i := by omega
      have he := hiso.entries j hi hn
      rw [Volume.release_entry, if_pos rfl] at he
      exact hiff.mp he
    · intro hq
      have hdrop : fe.dropped fe.sizeBlocks = [] := by
        refine SfsFileEntry.dropped_eq_nil.mpr fun k hk => ?_
        by_cases hn : (s.mount.volume.entry i).Named
        · have hkeep := congrFun (congrArg SfsFileEntry.blocks (hiff.mpr (hq hreg i hino hn))) k
          rw [Volume.keep_blocks, if_pos hk] at hkeep
          exact hkeep.symm
        · exact h.sane.owned.bare i hi hn k
      rw [hdrop]
      refine h.sane.owned.isolated rfl rfl fun j _ hn => ?_
      rw [Volume.release_entry]
      split_ifs with hji
      · subst hji
        exact hiff.mpr (hq hreg j hino hn)
      · rfl
  · rw [if_neg hreg] at hstep
    rw [Isolates, hstep]
    exact iff_of_true (h.sane.owned.isolated rfl rfl fun _ _ _ => rfl) fun hr => absurd hr hreg

theorem isolates_iff {a : FileAct} (hl : s.Legal a) (hs : s.Stale a) :
    s.Isolates κ a ↔ s.Harmless a := by
  cases a with
  | getBlock r iblock c => exact h.getBlock_isolates_iff hκ hl
  | writeInode r iSize mtime ctime mode => exact h.writeInode_isolates_iff hκ hl
  | _ => exact absurd hs id

end Inv

end Files

/-- Along every run from a formatted image, the calls for unlinked files leave all
files alone exactly when each of them is harmless. -/
theorem unlinked_isolated_iff (hκ : κ.Reliable) {m : Mount} (hm : Mounted κ m)
    (acts : List FileAct)
    (hl : Run.Along (Files.step κ) Files.Legal ⟨m, fun _ => 0, []⟩ acts) :
    Run.Along (Files.step κ) (fun s a => s.Stale a → s.Isolates κ a) ⟨m, fun _ => 0, []⟩ acts ↔
      Run.Along (Files.step κ) (fun s a => s.Stale a → s.Harmless a) ⟨m, fun _ => 0, []⟩ acts := by
  have hinv : Files.Inv ⟨m, fun _ => 0, []⟩ := ⟨(hm.fresh hκ).sane, by simp⟩
  exact Run.along_iff (fun (s : Files) a (h : s.Inv) hl hq => h.step hκ hl hq)
    (fun (s : Files) a (h : s.Inv) hl => imp_congr_right fun hs => h.isolates_iff hκ hl hs) hinv hl

/-- The small device without files. -/
def sampleFiles : Files := ⟨sampleMount, fun _ => 0, []⟩

/-- Reading through the inode of a removed file whose slot is empty is harmless. -/
theorem unlinked_isolated_sample :
    Run.Along (Files.step sampleKernel) (fun s a => s.Stale a → s.Isolates sampleKernel a)
      sampleFiles [.create [97] 0o644 0 true, .unlink [97], .getBlock ⟨1, 1⟩ 0 false] := by
  refine (unlinked_isolated_iff sampleKernel_reliable sampleMount_mounted
    [.create [97] 0o644 0 true, .unlink [97], .getBlock ⟨1, 1⟩ 0 false]
    ⟨trivial, trivial, by change (⟨1, 1⟩ : FileRef) ∈ Files.refs _; decide +kernel,
      trivial⟩).mpr ⟨fun h => absurd h id, fun h => absurd h id,
        fun _ i k hi hk => ⟨?_, fun hc => absurd hc (by decide)⟩, trivial⟩
  obtain rfl : i = 0 := by
    have h1 : (1 : ℤ) = (i : ℤ) + 1 := hi
    omega
  obtain rfl : k = 0 := Fin.ext hk.symm
  decide +kernel

/-- Writing back the inode of the removed file `a` overwrites the time stamp of
`b`, created later in its slot. -/
theorem unlinked_not_isolated :
    Run.Along (Files.step sampleKernel) Files.Legal sampleFiles
      [.create [97] 0o644 0 true, .unlink [97], .create [98] 0o644 3 true,
        .writeInode ⟨1, 1⟩ 0 5 5 0o100644] ∧
    ¬ Run.Along (Files.step sampleKernel) (fun s a => s.Stale a → s.Isolates sampleKernel a)
      sampleFiles [.create [97] 0o644 0 true, .unlink [97], .create [98] 0o644 3 true,
        .writeInode ⟨1, 1⟩ 0 5 5 0o100644] := by
  refine ⟨⟨trivial, trivial, trivial,
    by change (⟨1, 1⟩ : FileRef) ∈ Files.refs _; decide +kernel, trivial⟩, ?_⟩
  rintro ⟨_, _, _, h, _⟩
  have hiso := h (by
    rintro ⟨i, hi, _, hg⟩
    obtain rfl : i = 0 := by
      have h1 : (1 : ℤ) = (i : ℤ) + 1 := hi
      omega
    exact absurd hg (by decide +kernel))
  have he := hiso.entries 0 (by decide +kernel) (by decide +kernel)
  have ht := congrArg SfsFileEntry.timestamp he
  exact absurd ht (by decide +kernel)

end Linuxpedia.Sfs
