import Linuxpedia.Sfs.Format
import Linuxpedia.Lib.Buffer

/-! The driver of the RealSFSInAction module, `real_sfs_ops.c` and the operations
of `real_sfs.c` that use it. The state of a mount is the device, `sfs_info_t` and
two counts of what the block layer was asked: how often `sb_bread` was called and
which codes `write_to_real_sfs` returned. Every `sb_bread` may fail. Each loop of
the source is one recursive function. -/

namespace Linuxpedia.Sfs

open Lib

/-! ### Error codes -/

def eio : ℤ := 5
def enomem : ℤ := 12
def eacces : ℤ := 13
def einval : ℤ := 22
def enospc : ℤ := 28

/-- What the driver gets from the rest of the kernel: the soft block size of the
device, whether call number `n` of `sb_bread`, for a block, succeeds, and the
memory `vmalloc` returns. -/
structure Kernel where
  bdBlockSize : UInt32
  bread : ℕ → UInt32 → Bool
  vmalloc : UInt32 → Option Store

/-- The device and the `sfs_info_t` of one mount. `breads` counts the calls of
`sb_bread`, `writes` lists the codes of `write_to_real_sfs`, latest first. -/
structure Mount where
  dev : Store
  sb : SfsSuperBlock
  usedBlocks : Buffer
  breads : ℕ
  writes : List ℤ

variable (κ : Kernel)

/-- `sb_bread(sb, block)`: the buffer's data, or `NULL`. -/
def sbBread (m : Mount) (block : UInt32) : Mount × Option Store :=
  ({ m with breads := m.breads + 1 },
    if κ.bread m.breads block then
      some (m.dev.window (block.toNat * κ.bdBlockSize.toNat))
    else none)

/-! ### Access to the entry table -/

def readSbFromRealSfs (m : Mount) : Mount × Except ℤ SfsSuperBlock :=
  match sbBread κ m 0 with
  | (m, none) => (m, .error (-eio))
  | (m, some data) => (m, .ok (.ofBytes data))

/-- The buffer read, or the negative code returned. -/
def readFromRealSfs (m : Mount) (block offset len : UInt32) : Mount × Except ℤ Store :=
  let abs := block * m.sb.blockSize + offset
  let block := abs / κ.bdBlockSize
  let offset := abs % κ.bdBlockSize
  if offset + len > κ.bdBlockSize then (m, .error (-einval))
  else
    match sbBread κ m block with
    | (m, none) => (m, .error (-eio))
    | (m, some data) => (m, .ok (data.window offset.toNat))

/-- `write_to_real_sfs` without the record of its code. -/
def writeToDevice (m : Mount) (block offset : UInt32) (buf : Store) (len : UInt32) : Mount × ℤ :=
  let abs := block * m.sb.blockSize + offset
  let block := abs / κ.bdBlockSize
  let offset := abs % κ.bdBlockSize
  if offset + len > κ.bdBlockSize then (m, -einval)
  else
    match sbBread κ m block with
    | (m, none) => (m, -eio)
    | (m, some _) =>
      let dst := block.toNat * κ.bdBlockSize.toNat + offset.toNat
      ({ m with dev := m.dev.blit dst len.toNat buf }, 0)

def writeToRealSfs (m : Mount) (block offset : UInt32) (buf : Store) (len : UInt32) : Mount × ℤ :=
  let r := writeToDevice κ m block offset buf len
  ({ r.1 with writes := r.2 :: r.1.writes }, r.2)

/-- `SFS to VFS`. -/
def s2vInodeNum (i : ℤ) : ℤ := i + 1

/-- `VFS to SFS`. -/
def v2sInodeNum (i : ℤ) : ℤ := i - 1

/-- `read_from_real_sfs(info, info->sb.entry_table_block_start,
ino * sizeof(sfs_file_entry_t), fe, sizeof(sfs_file_entry_t))`. -/
def readEntry (m : Mount) (ino : ℤ) : Mount × Except ℤ SfsFileEntry :=
  let r := readFromRealSfs κ m m.sb.entryTableBlockStart (UInt32.ofInt (ino * 64)) 64
  (r.1, r.2.map SfsFileEntry.ofBytes)

/-- The same address for `write_to_real_sfs`. -/
def writeEntry (m : Mount) (ino : ℤ) (fe : SfsFileEntry) : Mount × ℤ :=
  writeToRealSfs κ m m.sb.entryTableBlockStart (UInt32.ofInt (ino * 64)) fe.toBytes 64

/-! ### Mounting -/

/-- The pointers of one entry that `init_browsing` marks, up to the first zero. -/
def markBlocks (fe : SfsFileEntry) (t : Buffer) : Buffer := t.mark fe.prefixPtrs

/-- `for (i = ino; i < entry_count; i++)` of `init_browsing`. -/
def initBrowsingLoop : ℕ → ℕ → Mount → Buffer → Mount × Except ℤ Buffer
  | 0, _, m, t => (m, .ok t)
  | n + 1, i, m, t =>
    match readEntry κ m i with
    | (m, .error _) => (m, .error (-enomem))
    | (m, .ok fe) => initBrowsingLoop n (i + 1) m (if fe.Named then markBlocks fe t else t)

/-- A zeroed `sfs_info_t` for the device. -/
def kzallocInfo (dev : Store) : Mount :=
  { dev := dev, sb := .ofBytes fun _ => 0, usedBlocks := ⟨0, fun _ => 0, false⟩,
    breads := 0, writes := [] }

def initBrowsing (m : Mount) : Mount × ℤ :=
  match readSbFromRealSfs κ m with
  | (m, .error _) => (m, -eio)
  | (m, .ok sb) =>
    let m := { m with sb := sb }
    if sb.type ≠ simulaFsType then (m, -einval)
    else
      match κ.vmalloc sb.partitionSize with
      | none => (m, -enomem)
      | some mem =>
        let t : Buffer := ⟨sb.partitionSize.toNat, mem, false⟩
        let t := Buffer.fill 1 sb.dataBlockStart.toNat 0 t
        let t := Buffer.fill 0 (sb.partitionSize.toNat - sb.dataBlockStart.toNat)
          sb.dataBlockStart.toNat t
        match initBrowsingLoop κ sb.entryCount.toNat 0 m t with
        | (m, .error e) => (m, e)
        | (m, .ok t) => ({ m with usedBlocks := t }, 0)

/-! ### Allocation -/

def sfsGetDataBlock (m : Mount) : Mount × ℤ :=
  let r := Buffer.firstFit (m.sb.partitionSize.toNat - m.sb.dataBlockStart.toNat)
    m.sb.dataBlockStart.toNat m.usedBlocks
  ({ m with usedBlocks := r.1 }, r.2)

def sfsPutDataBlock (m : Mount) (b : UInt32) : Mount :=
  { m with usedBlocks := m.usedBlocks.set (asInt b) 0 }

/-! ### Directory -/

/-- What `filldir` is given. -/
structure Dirent where
  name : List UInt8
  pos : ℕ
  ino : ℤ
  deriving DecidableEq

/-- The loop of `sfs_list`; `filldir` updates its own state and returns a code. -/
def sfsListLoop {δ : Type} (filldir : δ → Dirent → δ × ℤ) :
    ℕ → ℕ → Mount → ℕ → δ → Mount × ℕ × δ × ℤ
  | 0, _, m, fPos, d => (m, fPos, d, 0)
  | n + 1, ino, m, fPos, d =>
    match readEntry κ m ino with
    | (m, .error _) => (m, fPos, d, -1)
    | (m, .ok fe) =>
      if fe.Named then
        let r := filldir d ⟨fe.cname, fPos, s2vInodeNum ino⟩
        if r.2 ≠ 0 then (m, fPos, r.1, 1)
        else sfsListLoop filldir n (ino + 1) m (fPos + 1) r.1
      else sfsListLoop filldir n (ino + 1) m fPos d

def sfsList {δ : Type} (filldir : δ → Dirent → δ × ℤ) (m : Mount) (fPos : ℕ) (d : δ) :
    Mount × ℕ × δ × ℤ :=
  sfsListLoop κ filldir m.sb.entryCount.toNat 0 m fPos d

/-- The scan of `sfs_create`: the first free slot, if the name is in no slot. -/
def sfsCreateLoop (fn : List UInt8) : ℕ → ℕ → Mount → Option ℕ → Mount × Option (Option ℕ)
  | 0, _, m, freeIno => (m, some freeIno)
  | n + 1, ino, m, freeIno =>
    match readEntry κ m ino with
    | (m, .error _) => (m, none)
    | (m, .ok fe) =>
      if ¬ fe.Named then sfsCreateLoop fn n (ino + 1) m (freeIno <|> some ino)
      else if fe.cname = fn then (m, none)
      else sfsCreateLoop fn n (ino + 1) m freeIno

/-- `sfs_create`; `now` is `get_seconds()`. -/
def sfsCreate (m : Mount) (fn : List UInt8) (perms : ℤ) (now : UInt32) : Mount × ℤ :=
  match sfsCreateLoop κ fn m.sb.entryCount.toNat 0 m none with
  | (m, none) => (m, -1)
  | (m, some none) => (m, -1)
  | (m, some (some freeIno)) =>
    match writeEntry κ m freeIno (.fresh fn now (UInt32.ofInt perms)) with
    | (m, r) => if r = -1 then (m, -1) else (m, s2vInodeNum freeIno)

def sfsLookupLoop (fn : List UInt8) : ℕ → ℕ → Mount → Mount × ℤ × SfsFileEntry
  | 0, _, m => (m, -1, .zero)
  | n + 1, ino, m =>
    match readEntry κ m ino with
    | (m, .error _) => (m, -1, .zero)
    | (m, .ok fe) =>
      if ¬ fe.Named then sfsLookupLoop fn n (ino + 1) m
      else if fe.cname = fn then (m, s2vInodeNum ino, fe)
      else sfsLookupLoop fn n (ino + 1) m

/-- `sfs_lookup`: the inode number, or -1, and the entry read last on success. -/
def sfsLookup (m : Mount) (fn : List UInt8) : Mount × ℤ × SfsFileEntry :=
  sfsLookupLoop κ fn m.sb.entryCount.toNat 0 m

/-- The freeing loop of `sfs_remove`, which breaks at a zero pointer. -/
def putBlocks : List UInt32 → Mount → Mount
  | [], m => m
  | b :: bs, m => if b = 0 then m else putBlocks bs (sfsPutDataBlock m b)

def sfsRemove (m : Mount) (fn : List UInt8) : Mount × ℤ :=
  match sfsLookup κ m fn with
  | (m, vfsIno, fe) =>
    if vfsIno = -1 then (m, -1)
    else
      let m := putBlocks (List.ofFn fe.blocks) m
      match writeEntry κ m (v2sInodeNum vfsIno) .zero with
      | (m, r) => if r = -1 then (m, -1) else (m, vfsIno)

def sfsGetFileEntry (m : Mount) (vfsIno : ℤ) : Mount × Except ℤ SfsFileEntry :=
  match readEntry κ m (v2sInodeNum vfsIno) with
  | (m, .error _) => (m, .error (-1))
  | (m, .ok fe) => (m, .ok fe)

def sfsUpdateFileEntry (m : Mount) (vfsIno : ℤ) (fe : SfsFileEntry) : Mount × ℤ :=
  writeEntry κ m (v2sInodeNum vfsIno) fe

/-- The freeing loop of `sfs_update` over the listed indices. -/
def dropBlocks : List (Fin 9) → Mount → SfsFileEntry → Mount × SfsFileEntry
  | [], m, fe => (m, fe)
  | i :: is, m, fe =>
    if fe.blocks i ≠ 0 then
      dropBlocks is (sfsPutDataBlock m (fe.blocks i)) (fe.point i 0)
    else dropBlocks is m fe

/-- A fault that is not an access to the allocation table. -/
def Mount.faulted (m : Mount) : Mount :=
  { m with usedBlocks := { m.usedBlocks with fault := true } }

/-- The division by a zero block size is recorded as a fault of the mount. -/
def divBlockSize (m : Mount) : Mount := if m.sb.blockSize = 0 then m.faulted else m

/-- So is reading `fe.blocks[i]` at a negative index, which frees whatever lies in
front of the array. -/
def firstIndex (m : Mount) (i : ℤ) : Mount := if i < 0 then m.faulted else m

def sfsUpdate (m : Mount) (vfsIno : ℤ) (size timestamp perms : Option ℤ) : Mount × ℤ :=
  match sfsGetFileEntry κ m vfsIno with
  | (m, .error _) => (m, -1)
  | (m, .ok fe) =>
    let fe := fe.withAttrs size timestamp perms
    let m := divBlockSize m
    let i := asInt ((fe.size + m.sb.blockSize - 1) / m.sb.blockSize)
    let m := firstIndex m i
    match dropBlocks ((List.finRange 9).drop i.toNat) m fe with
    | (m, fe) => writeEntry κ m (v2sInodeNum vfsIno) fe

/-! ### `real_sfs.c` -/

/-- `sfs_get_block`: the code and, on success, the block mapped. -/
def sfsGetBlock (m : Mount) (iIno : ℤ) (iblock : ℕ) (create : Bool) :
    Mount × ℤ × Option UInt32 :=
  if h : iblock < 9 then
    match sfsGetFileEntry κ m iIno with
    | (m, .error _) => (m, -eio, none)
    | (m, .ok fe) =>
      if fe.blocks ⟨iblock, h⟩ = 0 then
        if create then
          match sfsGetDataBlock m with
          | (m, r) =>
            let b := UInt32.ofInt r
            if b = UInt32.ofInt (-1) then (m, -enospc, none)
            else
              match sfsUpdateFileEntry κ m iIno (fe.point ⟨iblock, h⟩ b) with
              | (m, r) => if r = -1 then (m, -eio, none) else (m, 0, some b)
        else (m, -eio, none)
      else (m, 0, some (fe.blocks ⟨iblock, h⟩))
  else (m, -enospc, none)

/-- The three permission bits the driver keeps of a mode. -/
def permsOfMode (mode : UInt32) : ℤ :=
  (if mode &&& 0o444 ≠ 0 then 4 else 0) + (if mode &&& 0o222 ≠ 0 then 2 else 0) +
    (if mode &&& 0o111 ≠ 0 then 1 else 0)

/-- What the driver reads of a VFS inode. -/
structure Inode where
  iIno : ℤ
  iSize : ℤ
  iMtime : ℤ
  iCtime : ℤ
  iMode : UInt32

/-- `S_ISREG(mode)`. -/
def sIsReg (mode : UInt32) : Bool := mode &&& 0o170000 = 0o100000

def sfsWriteInode (m : Mount) (inode : Inode) : Mount × ℤ :=
  if ¬ sIsReg inode.iMode then (m, 0)
  else
    let timestamp := if inode.iMtime > inode.iCtime then inode.iMtime else inode.iCtime
    sfsUpdate κ m inode.iIno (some inode.iSize) (some timestamp) (some (permsOfMode inode.iMode))

/-- `sfs_inode_create`, up to the inode it hands to the VFS: the code and the
inode number; `newInode` is whether `new_inode` succeeds. -/
def sfsInodeCreate (m : Mount) (fn : List UInt8) (mode : UInt32) (now : UInt32)
    (newInode : Bool) : Mount × ℤ × Option ℤ :=
  match sfsCreate κ m fn (permsOfMode mode) now with
  | (m, ino) =>
    if ino = -1 then (m, -eio, none)
    else if ¬ newInode then ((sfsRemove κ m fn).1, -eacces, none)
    else (m, 0, some ino)

def sfsInodeUnlink (m : Mount) (fn : List UInt8) : Mount × ℤ :=
  match sfsRemove κ m fn with
  | (m, ino) => if ino = -1 then (m, -eio) else (m, 0)

/-- `sfs_readdir` of the root directory, whose parent has inode `parent`. -/
def sfsReaddir {δ : Type} (filldir : δ → Dirent → δ × ℤ) (root parent : ℤ) (m : Mount)
    (fPos : ℕ) (d : δ) : Mount × ℕ × δ × ℤ :=
  let dot := if fPos = 0 then filldir d ⟨[46], fPos, root⟩ else (d, 0)
  if dot.2 ≠ 0 then (m, fPos, dot.1, 0)
  else
    let fPos := if fPos = 0 then fPos + 1 else fPos
    let dotdot := if fPos = 1 then filldir dot.1 ⟨[46, 46], fPos, parent⟩ else (dot.1, 0)
    if dotdot.2 ≠ 0 then (m, fPos, dotdot.1, 0)
    else
      let fPos := if fPos = 1 then fPos + 1 else fPos
      if fPos = 2 then
        match sfsList κ filldir m fPos dotdot.1 with
        | (m, fPos, d, r) => if r = -1 then (m, fPos, d, 0) else (m, fPos, d, 1)
      else (m, fPos, dotdot.1, 0)

end Linuxpedia.Sfs
