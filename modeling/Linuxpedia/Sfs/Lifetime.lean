import Linuxpedia.Sfs.Operations

/-! The lifetime of a mount's private data, from `sfs_fill_super` through the file
operations to `sfs_kill_sb`. The VFS calls `sfs_kill_sb` after a failed
`sfs_fill_super` too, and `kill_block_super` writes dirty inodes back through
`sfs_write_inode`. What happens to `info` and its table is recorded in order; the
record is as it should be exactly when nothing fails after `init_browsing` and no
inode is dirty at the end. -/

namespace Linuxpedia.Sfs

open Lib

/-- What happens to `info` and to the table it points at. -/
inductive Event where
  | kzallocInfo
  | vmallocTable
  | vfreeTable
  | kfreeInfo
  | writeInode (ino : ℤ)
  deriving DecidableEq

/-- The `struct super_block` of a mount, with `*info` and the device as the mount.
`usedBlocks` is whether `info->used_blocks` is set and `sFsInfo` whether
`s_fs_info` is; both stay as they are when `info` is freed. -/
structure SuperBlock where
  mount : Mount
  usedBlocks : Bool
  sFsInfo : Bool
  dirty : List Inode
  log : List Event

namespace SuperBlock

def emit (s : SuperBlock) (e : Event) : SuperBlock := { s with log := s.log ++ [e] }

/-- Freed memory still holds the pointer. -/
def shutBrowsing (s : SuperBlock) : SuperBlock :=
  if s.usedBlocks then s.emit .vfreeTable else s

variable (κ : Kernel)

/-- `init_browsing` with what it does to the heap. -/
def initBrowsing (s : SuperBlock) : SuperBlock × ℤ :=
  match readSbFromRealSfs κ s.mount with
  | (m, .error _) => ({ s with mount := m }, -eio)
  | (m, .ok sb) =>
    let m := { m with sb := sb }
    if sb.type ≠ simulaFsType then ({ s with mount := m }, -einval)
    else
      match κ.vmalloc sb.partitionSize with
      | none => ({ s with mount := m }, -enomem)
      | some mem =>
        match initBrowsingLoop κ sb.entryCount.toNat 0 m
            (freshTable sb.partitionSize.toNat sb.dataBlockStart.toNat mem) with
        | (m, .error e) => (({ s with mount := m }.emit .vmallocTable).emit .vfreeTable, e)
        | (m, .ok t) =>
          ({ s with
              mount := { m with usedBlocks := t }
              usedBlocks := true
              sFsInfo := true }.emit .vmallocTable, 0)

/-- Which of the calls of `sfs_fill_super` succeed. -/
structure Calls where
  kzalloc : Bool
  igetLocked : Bool
  dMakeRoot : Bool

def sfsFillSuper (p : Calls) (s : SuperBlock) : SuperBlock × ℤ :=
  if ¬ p.kzalloc then (s, -enomem)
  else
    match initBrowsing κ ({ s with mount := Sfs.kzallocInfo s.mount.dev }.emit .kzallocInfo) with
    | (s, r) =>
      if r < 0 then (s.emit .kfreeInfo, -eio)
      else if ¬ p.igetLocked then (s.shutBrowsing.emit .kfreeInfo, -eacces)
      else if ¬ p.dMakeRoot then (s.shutBrowsing.emit .kfreeInfo, -enomem)
      else (s, 0)

/-- `sfs_write_inode`, on `s_fs_info` as it is. -/
def writeInode (s : SuperBlock) (inode : Inode) : SuperBlock :=
  { s with mount := (sfsWriteInode κ s.mount inode).1 }.emit (.writeInode inode.iIno)

/-- The writing back of dirty inodes. -/
def killBlockSuper (s : SuperBlock) : SuperBlock :=
  s.dirty.foldl (writeInode κ) { s with dirty := [] }

def sfsKillSb (s : SuperBlock) : SuperBlock :=
  killBlockSuper κ (if s.sFsInfo then s.shutBrowsing.emit .kfreeInfo else s)

/-- What happens while the device is mounted: calls of the driver, inodes that get
dirty and inodes written back. -/
inductive FileAct where
  | call (op : Op)
  | markDirty (inode : Inode)
  | writeBack (inode : Inode)

/-- The dirty inodes after one action. -/
def FileAct.dirty (d : List Inode) : FileAct → List Inode
  | .call _ => d
  | .markDirty inode => inode :: d
  | .writeBack inode => d.filter fun i => i.iIno ≠ inode.iIno

def step (s : SuperBlock) (a : FileAct) : SuperBlock :=
  let s := { s with dirty := a.dirty s.dirty }
  match a with
  | .call op => { s with mount := Sfs.step κ s.mount op }
  | .markDirty _ => s
  | .writeBack inode => s.writeInode κ inode

/-- A fresh `struct super_block` for the device. -/
def alloc (dev : Store) : SuperBlock := ⟨kzallocInfo dev, false, false, [], []⟩

/-- One mount attempt, the actions on the mount if there is one, and `sfs_kill_sb`. -/
def run (p : Calls) (dev : Store) (acts : List FileAct) : SuperBlock :=
  match sfsFillSuper κ p (alloc dev) with
  | (s, r) => sfsKillSb κ (if r = 0 then acts.foldl (step κ) s else s)

end SuperBlock

/-- What the record of a run should be: `info` and the table are freed at most once,
and by the end if they were allocated, and no `sfs_write_inode` runs after `info` was
freed. -/
structure LifetimeOk (log : List Event) : Prop where
  infoOnce : log.count .kfreeInfo ≤ 1
  tableOnce : log.count .vfreeTable ≤ 1
  infoFreed : .kzallocInfo ∈ log → .kfreeInfo ∈ log
  tableFreed : .vmallocTable ∈ log → .vfreeTable ∈ log
  alive : log.Pairwise fun a b => a = .kfreeInfo → ∀ ino, b ≠ .writeInode ino

/-- The inodes that the actions leave dirty. -/
def leftDirty (acts : List SuperBlock.FileAct) : List Inode :=
  acts.foldl SuperBlock.FileAct.dirty []

namespace SuperBlock

variable {κ : Kernel} {s : SuperBlock}

@[simp] theorem emit_mount (s : SuperBlock) (e) : (s.emit e).mount = s.mount := rfl
@[simp] theorem emit_usedBlocks (s : SuperBlock) (e) : (s.emit e).usedBlocks = s.usedBlocks := rfl
@[simp] theorem emit_sFsInfo (s : SuperBlock) (e) : (s.emit e).sFsInfo = s.sFsInfo := rfl
@[simp] theorem emit_dirty (s : SuperBlock) (e) : (s.emit e).dirty = s.dirty := rfl
@[simp] theorem emit_log (s : SuperBlock) (e) : (s.emit e).log = s.log ++ [e] := rfl

/-- The mount and the code are those of `init_browsing`. -/
theorem initBrowsing_mount (s : SuperBlock) :
    ((initBrowsing κ s).1.mount, (initBrowsing κ s).2) = Sfs.initBrowsing κ s.mount := by
  unfold initBrowsing Sfs.initBrowsing
  rcases readSbFromRealSfs κ s.mount with ⟨m, e | sb⟩
  · rfl
  · simp only
    split_ifs with ht
    · rfl
    · cases κ.vmalloc sb.partitionSize with
      | none => rfl
      | some mem =>
        simp only [← freshTable.eq_def]
        rcases initBrowsingLoop κ sb.entryCount.toNat 0 { m with sb := sb }
          (freshTable sb.partitionSize.toNat sb.dataBlockStart.toNat mem) with ⟨m, e | t⟩
        · rfl
        · rfl

/-- `init_browsing` gives up on a slot with `-ENOMEM`. -/
theorem initBrowsingLoop_error (n i : ℕ) {m w : Mount} {t : Buffer} {e : ℤ}
    (h : initBrowsingLoop κ n i m t = (w, .error e)) : e = -enomem := by
  induction n generalizing i m t with
  | zero => cases h
  | succ n ih =>
    unfold initBrowsingLoop at h
    split at h
    · cases h
      rfl
    · exact ih (i + 1) h

/-- On success the table is allocated and `s_fs_info` set; on failure the table, if it
was allocated, is freed. -/
theorem initBrowsing_record (s : SuperBlock) :
    (∃ m, initBrowsing κ s =
      ({ s with mount := m, usedBlocks := true, sFsInfo := true }.emit .vmallocTable, 0)) ∨
    ∃ m X e, e ≠ 0 ∧ (X = [] ∨ X = [.vmallocTable, .vfreeTable]) ∧
      initBrowsing κ s = ({ s with mount := m, log := s.log ++ X }, e) := by
  have heio : -eio ≠ 0 := by decide
  have heinval : -einval ≠ 0 := by decide
  have henomem : -enomem ≠ 0 := by decide
  unfold initBrowsing
  rcases readSbFromRealSfs κ s.mount with ⟨m, e | sb⟩
  · exact Or.inr ⟨m, [], _, heio, Or.inl rfl, by rw [List.append_nil]⟩
  · simp only
    split_ifs with ht
    · exact Or.inr ⟨_, [], _, heinval, Or.inl rfl, by rw [List.append_nil]⟩
    · cases κ.vmalloc sb.partitionSize with
      | none => exact Or.inr ⟨_, [], _, henomem, Or.inl rfl, by rw [List.append_nil]⟩
      | some mem =>
        simp only
        rcases hloop : initBrowsingLoop κ sb.entryCount.toNat 0 { m with sb := sb }
          (freshTable sb.partitionSize.toNat sb.dataBlockStart.toNat mem) with ⟨w, e | t⟩
        · obtain rfl : e = -enomem := initBrowsingLoop_error _ _ hloop
          refine Or.inr ⟨w, _, _, henomem, Or.inr rfl, ?_⟩
          simp [emit]
        · exact Or.inl ⟨_, rfl⟩

theorem initBrowsing_code (s : SuperBlock) : (initBrowsing κ s).2 = (Sfs.initBrowsing κ s.mount).2 :=
  congrArg Prod.snd (initBrowsing_mount s)

/-! ### What each part records -/

theorem foldl_writeInode (l : List Inode) (s : SuperBlock) :
    (l.foldl (writeInode κ) s).log = s.log ++ l.map fun i => .writeInode i.iIno := by
  induction l generalizing s with
  | nil => simp
  | cons inode l ih =>
    rw [List.foldl_cons, ih, writeInode, emit_log, List.map_cons, List.append_assoc]
    rfl

/-- The actions on a mount record writings of inodes only. -/
theorem foldl_step (acts : List FileAct) (s : SuperBlock) : ∃ ws : List ℤ,
    (acts.foldl (step κ) s).log = s.log ++ ws.map .writeInode ∧
      (acts.foldl (step κ) s).usedBlocks = s.usedBlocks ∧
      (acts.foldl (step κ) s).sFsInfo = s.sFsInfo ∧
      (acts.foldl (step κ) s).dirty = acts.foldl FileAct.dirty s.dirty := by
  induction acts generalizing s with
  | nil => exact ⟨[], by simp⟩
  | cons a acts ih =>
    obtain ⟨ws, hlog, hused, hinfo, hdirty⟩ := ih (step κ s a)
    have hone : ∃ us : List ℤ, (step κ s a).log = s.log ++ us.map .writeInode ∧
        (step κ s a).usedBlocks = s.usedBlocks ∧ (step κ s a).sFsInfo = s.sFsInfo ∧
        (step κ s a).dirty = a.dirty s.dirty := by
      cases a with
      | call op => exact ⟨[], by simp [step]⟩
      | markDirty inode => exact ⟨[], by simp [step]⟩
      | writeBack inode => exact ⟨[inode.iIno], by simp [step, writeInode]⟩
    obtain ⟨us, hlog', hused', hinfo', hdirty'⟩ := hone
    refine ⟨us ++ ws, ?_, hused.trans hused', hinfo.trans hinfo', ?_⟩
    · rw [List.foldl_cons, hlog, hlog', List.map_append, List.append_assoc]
    · rw [List.foldl_cons, hdirty, hdirty']
      rfl

theorem sfsKillSb_log (s : SuperBlock) : (sfsKillSb κ s).log =
    s.log ++ (if s.sFsInfo then (if s.usedBlocks then [.vfreeTable, .kfreeInfo] else [.kfreeInfo])
      else []) ++ s.dirty.map fun i => .writeInode i.iIno := by
  unfold sfsKillSb killBlockSuper shutBrowsing
  rw [foldl_writeInode]
  by_cases hinfo : s.sFsInfo = true
  · by_cases hused : s.usedBlocks = true
    · simp [hinfo, hused]
    · simp [hinfo, hused]
  · simp [hinfo]

end SuperBlock

/-! ### The record of a run -/

section Run

open SuperBlock

variable {κ : Kernel} {p : Calls} {dev : Store}

/-- After `kzalloc`. -/
def zeroed (dev : Store) : SuperBlock := ⟨kzallocInfo dev, false, false, [], [.kzallocInfo]⟩

theorem fillSuper_eq (hk : p.kzalloc = true) {s : SuperBlock} {r : ℤ}
    (h : SuperBlock.initBrowsing κ (zeroed dev) = (s, r)) : sfsFillSuper κ p (alloc dev) =
      if r < 0 then (s.emit .kfreeInfo, -eio)
      else if ¬ p.igetLocked then (s.shutBrowsing.emit .kfreeInfo, -eacces)
      else if ¬ p.dMakeRoot then (s.shutBrowsing.emit .kfreeInfo, -enomem)
      else (s, 0) := by
  have hz : ({ alloc dev with mount := kzallocInfo (alloc dev).mount.dev } : SuperBlock).emit
      .kzallocInfo = zeroed dev := rfl
  unfold sfsFillSuper
  rw [if_neg (not_not.mpr hk), hz, h]

/-- Where `kzalloc` or `init_browsing` fails nothing is left allocated. -/
theorem fillSuper_refused (h : ¬ (p.kzalloc = true ∧ Mountable κ (kzallocInfo dev))) :
    ∃ m log e, e ≠ 0 ∧ sfsFillSuper κ p (alloc dev) = (⟨m, false, false, [], log⟩, e) ∧
      (log = [] ∨ ∃ X, (X = [] ∨ X = [.vmallocTable, .vfreeTable]) ∧
        log = [.kzallocInfo] ++ X ++ [.kfreeInfo]) := by
  have heio : -eio ≠ 0 := by decide
  have henomem : -enomem ≠ 0 := by decide
  by_cases hk : p.kzalloc = true
  · have hcode := initBrowsing_code (κ := κ) (zeroed dev)
    have hneg : (Sfs.initBrowsing κ (kzallocInfo dev)).2 < 0 :=
      initBrowsing_fails fun hm => h ⟨hk, hm⟩
    change _ = (Sfs.initBrowsing κ (kzallocInfo dev)).2 at hcode
    rw [← hcode] at hneg
    rcases initBrowsing_record (κ := κ) (zeroed dev) with ⟨m, hs⟩ | ⟨m, X, e, _, hX, hs⟩
    · rw [hs] at hneg
      exact absurd hneg (lt_irrefl 0)
    · rw [hs] at hneg
      refine ⟨m, _, -eio, heio, ?_, Or.inr ⟨X, hX, rfl⟩⟩
      rw [fillSuper_eq hk hs, if_pos hneg]
      rfl
  · refine ⟨kzallocInfo dev, [], -enomem, henomem, ?_, Or.inl rfl⟩
    unfold sfsFillSuper
    rw [if_pos hk]
    rfl

/-- Past `init_browsing` both are freed on a failure, and `s_fs_info` is left set. -/
theorem fillSuper_mountable (hk : p.kzalloc = true) (hm : Mountable κ (kzallocInfo dev)) :
    ∃ m, sfsFillSuper κ p (alloc dev) =
      if ¬ p.igetLocked then (⟨m, true, true, [], [.kzallocInfo, .vmallocTable, .vfreeTable,
        .kfreeInfo]⟩, -eacces)
      else if ¬ p.dMakeRoot then (⟨m, true, true, [], [.kzallocInfo, .vmallocTable, .vfreeTable,
        .kfreeInfo]⟩, -enomem)
      else (⟨m, true, true, [], [.kzallocInfo, .vmallocTable]⟩, 0) := by
  have hcode := initBrowsing_code (κ := κ) (zeroed dev)
  change _ = (Sfs.initBrowsing κ (kzallocInfo dev)).2 at hcode
  rw [mountable_iff.mp hm] at hcode
  rcases initBrowsing_record (κ := κ) (zeroed dev) with ⟨m, hs⟩ | ⟨m, X, e, hne, _, hs⟩
  · refine ⟨m, ?_⟩
    rw [fillSuper_eq hk hs, if_neg (lt_irrefl 0)]
    rfl
  · rw [hs] at hcode
    exact absurd hcode hne

theorem run_refused (h : ¬ (p.kzalloc = true ∧ Mountable κ (kzallocInfo dev)))
    (acts : List FileAct) :
    (run κ p dev acts).log = [] ∨ ∃ X, (X = [] ∨ X = [.vmallocTable, .vfreeTable]) ∧
      (run κ p dev acts).log = [.kzallocInfo] ++ X ++ [.kfreeInfo] := by
  obtain ⟨m, log, e, hne, hs, hlog⟩ := fillSuper_refused h
  have hrun : (run κ p dev acts).log = log := by
    unfold run
    rw [hs]
    simp only [if_neg hne]
    rw [sfsKillSb_log]
    simp
  rw [hrun]
  exact hlog

/-- Where `iget_locked` or `d_make_root` fails both are freed twice. -/
theorem run_torn (hk : p.kzalloc = true) (hm : Mountable κ (kzallocInfo dev))
    (h : ¬ (p.igetLocked = true ∧ p.dMakeRoot = true)) (acts : List FileAct) :
    (run κ p dev acts).log =
      [.kzallocInfo, .vmallocTable, .vfreeTable, .kfreeInfo, .vfreeTable, .kfreeInfo] := by
  have heacces : ¬ -eacces = 0 := by decide
  have henomem : ¬ -enomem = 0 := by decide
  obtain ⟨m, hs⟩ := fillSuper_mountable hk hm
  unfold run
  rw [hs]
  by_cases hi : p.igetLocked = true
  · rw [if_neg (not_not.mpr hi), if_pos fun hd => h ⟨hi, hd⟩]
    simp only [if_neg henomem]
    rw [sfsKillSb_log]
    rfl
  · rw [if_pos hi]
    simp only [if_neg heacces]
    rw [sfsKillSb_log]
    rfl

/-- Where the mount succeeds the dirty inodes are written after both were freed. -/
theorem run_mounted (hk : p.kzalloc = true) (hm : Mountable κ (kzallocInfo dev))
    (hi : p.igetLocked = true) (hd : p.dMakeRoot = true) (acts : List FileAct) : ∃ ws : List ℤ,
    (run κ p dev acts).log = [.kzallocInfo, .vmallocTable] ++ ws.map .writeInode ++
      [.vfreeTable, .kfreeInfo] ++ (leftDirty acts).map fun i => .writeInode i.iIno := by
  obtain ⟨m, hs⟩ := fillSuper_mountable hk hm
  rw [if_neg (not_not.mpr hi), if_neg (not_not.mpr hd)] at hs
  obtain ⟨ws, hlog, hused, hinfo, hdirty⟩ :=
    foldl_step (κ := κ) acts ⟨m, true, true, [], [.kzallocInfo, .vmallocTable]⟩
  refine ⟨ws, ?_⟩
  unfold run
  rw [hs]
  simp only [↓reduceIte]
  rw [sfsKillSb_log, hlog, hused, hinfo, hdirty]
  rfl

/-- With the mount's own frees at the end, what is left dirty decides. -/
theorem lifetimeOk_mounted (ws ds : List ℤ) :
    LifetimeOk ([.kzallocInfo, .vmallocTable] ++ ws.map .writeInode ++
      [.vfreeTable, .kfreeInfo] ++ ds.map .writeInode) ↔ ds = [] := by
  constructor
  · intro h
    by_contra hne
    obtain ⟨d, hd⟩ := List.exists_mem_of_ne_nil ds hne
    have hpair := (List.pairwise_append.mp h.alive).2.2 .kfreeInfo (by simp) (.writeInode d)
      (List.mem_map_of_mem hd)
    exact hpair rfl d rfl
  · rintro rfl
    have hcount : ∀ e, (∀ ino, e ≠ .writeInode ino) → (ws.map Event.writeInode).count e = 0 := by
      intro e he
      apply List.count_eq_zero.mpr
      intro hmem
      obtain ⟨ino, _, hino⟩ := List.mem_map.mp hmem
      exact he ino hino.symm
    have hfree := hcount .vfreeTable (fun _ => by simp)
    have hinfo := hcount .kfreeInfo (fun _ => by simp)
    constructor
    · simp [hinfo]
    · simp [hfree]
    · simp
    · simp
    · have hpair : ws.Pairwise fun _ _ => True := List.pairwise_of_forall fun _ _ => trivial
      simp [List.pairwise_append, List.pairwise_map, hpair]

/-- The private data of a mount live as they should exactly when no call fails after
`init_browsing` and no inode is left dirty. -/
theorem lifetime_ok_iff (κ : Kernel) (p : Calls) (dev : Store) (acts : List FileAct) :
    LifetimeOk (run κ p dev acts).log ↔
      (p.kzalloc = true ∧ Mountable κ (kzallocInfo dev) →
        (p.igetLocked = true ∧ p.dMakeRoot = true) ∧ leftDirty acts = []) := by
  by_cases hm : p.kzalloc = true ∧ Mountable κ (kzallocInfo dev)
  · by_cases hroot : p.igetLocked = true ∧ p.dMakeRoot = true
    · obtain ⟨ws, hlog⟩ := run_mounted hm.1 hm.2 hroot.1 hroot.2 acts
      have hmap : ((leftDirty acts).map fun i => Event.writeInode i.iIno) =
          ((leftDirty acts).map Inode.iIno).map Event.writeInode := by simp
      rw [hlog, hmap, lifetimeOk_mounted, List.map_eq_nil_iff]
      exact ⟨fun h _ => ⟨hroot, h⟩, fun h => (h hm).2⟩
    · rw [run_torn hm.1 hm.2 hroot acts]
      refine iff_of_false (fun h => ?_) fun h => hroot (h hm).1
      exact absurd h.infoOnce (by decide)
  · refine iff_of_true ?_ fun h => absurd h hm
    rcases run_refused hm acts with h | ⟨X, rfl | rfl, h⟩
    · rw [h]
      exact ⟨by decide, by decide, by decide, by decide, by simp⟩
    · rw [h]
      exact ⟨by decide, by decide, by decide, by decide, by simp⟩
    · rw [h]
      exact ⟨by decide, by decide, by decide, by decide, by simp⟩

end Run

/-! ### On the small device -/

/-- A mount left with one dirty inode: it is written back after `info` was freed. -/
theorem dirty_inode_written_late : ¬ LifetimeOk (SuperBlock.run sampleKernel ⟨true, true, true⟩
    (formatRealSfs 5120 (fun _ => 9) fun _ => 5) [.markDirty ⟨1, 0, 0, 0, 0o100644⟩]).log := by
  have hlog : (SuperBlock.run sampleKernel ⟨true, true, true⟩
      (formatRealSfs 5120 (fun _ => 9) fun _ => 5) [.markDirty ⟨1, 0, 0, 0, 0o100644⟩]).log =
      [.kzallocInfo, .vmallocTable, .vfreeTable, .kfreeInfo, .writeInode 1] := by
    decide +kernel
  intro h
  have halive := h.alive
  rw [hlog] at halive
  simp at halive

end Linuxpedia.Sfs
