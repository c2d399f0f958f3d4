import Linuxpedia.Sfs.Posix

/-! The v3.0 browsing shell, `RealFS/browse_sfs.c`. The state is the open device
and the globals `sb`, `used_blocks` and `block`. `block` is reused by every read
and write, so what a command leaves in it is kept. A command returns what it
prints. Each loop of the source is one recursive function. -/

namespace Linuxpedia.RealFs

open Lib Sfs

structure Shell extends Handle where
  sb : SfsSuperBlock
  usedBlocks : Buffer
  block : Store

/-- What a command writes to the terminal: `printf` of a format with the file name,
the arguments of a line of the listing, or the bytes of a file. -/
inductive Output where
  | text (format : String) (fn : List UInt8)
  | line (name : List UInt8) (size : ℤ) (perms : List Char) (timestamp : UInt32)
  | data (bytes : List UInt8)
  deriving DecidableEq

variable (o : OffT)

/-- Move the file offset of a shell. -/
def Shell.seekSet (s : Shell) (off : UInt32) : Shell := { s with toHandle := s.toHandle.seekSet o off }

/-- `lseek(sfs_handle, sb.entry_table_block_start * sb.block_size, SEEK_SET)`. -/
def Shell.seekTable (s : Shell) : Shell :=
  s.seekSet o (s.sb.entryTableBlockStart * s.sb.blockSize)

/-- `lseek` to entry `i` of the table. -/
def Shell.seekEntry (s : Shell) (i : ℤ) : Shell :=
  s.seekSet o (s.sb.entryTableBlockStart * s.sb.blockSize + UInt32.ofInt i * s.sb.entrySize)

def Shell.writeEntry (s : Shell) (fe : SfsFileEntry) : Shell :=
  { s with toHandle := s.toHandle.writeEntry fe }

/-! ### `init_browsing` -/

/-- The loop over the entry table. -/
def initBrowsingLoop : ℕ → Handle → Buffer → Handle × Buffer
  | 0, h, t => (h, t)
  | n + 1, h, t =>
    match h.readEntry with
    | (h, fe) => initBrowsingLoop n h (if fe.Named then t.mark fe.prefixPtrs else t)

def initBrowsing (s : Shell) : Shell :=
  let t : Buffer := ⟨s.sb.partitionSize.toNat, fun _ => 0, false⟩
  let t := Buffer.fill 1 s.sb.dataBlockStart.toNat 0 t
  let s := s.seekTable o
  match initBrowsingLoop s.sb.entryCount.toNat s.toHandle t with
  | (h, t) => { s with toHandle := h, usedBlocks := t }

/-- `main` up to the first prompt. -/
def main (dev : Store) : Option Shell :=
  match (⟨dev, 0⟩ : Handle).read 512 with
  | (h, buf) =>
    let sb := SfsSuperBlock.ofBytes buf
    if sb.type ≠ simulaFsType then none
    else some (initBrowsing o ⟨h, sb, ⟨0, fun _ => 0, false⟩, fun _ => 0⟩)

/-! ### Allocation -/

def getDataBlock (s : Shell) : Shell × ℤ :=
  let r := Buffer.firstFit (s.sb.partitionSize.toNat - s.sb.dataBlockStart.toNat)
    s.sb.dataBlockStart.toNat s.usedBlocks
  ({ s with usedBlocks := r.1 }, r.2)

def putDataBlock (s : Shell) (i : ℤ) : Shell := { s with usedBlocks := s.usedBlocks.set i 0 }

/-- The freeing loop of `sfs_remove` and `sfs_write`, which breaks at a zero pointer. -/
def putBlocks : List UInt32 → Shell → Shell
  | [], s => s
  | b :: bs, s => if b = 0 then s else putBlocks bs (putDataBlock s (asInt b))

/-! ### The table -/

/-- `%c%c%c` of the permissions. -/
def permChars (perms : UInt32) : List Char :=
  [if perms &&& 4 ≠ 0 then 'r' else '-', if perms &&& 2 ≠ 0 then 'w' else '-',
    if perms &&& 1 ≠ 0 then 'x' else '-']

def sfsListLoop : ℕ → Handle → List Output → Handle × List Output
  | 0, h, out => (h, out)
  | n + 1, h, out =>
    match h.readEntry with
    | (h, fe) =>
      if fe.Named then
        sfsListLoop n h (out ++ [.line fe.cname (asInt fe.size) (permChars fe.perms) fe.timestamp])
      else sfsListLoop n h out

def sfsList (s : Shell) : Shell × List Output :=
  let s := s.seekTable o
  let r := sfsListLoop s.sb.entryCount.toNat s.toHandle []
  ({ s with toHandle := r.1 }, r.2)

/-- The scan of `sfs_create` stops at the first free slot; `none` means that the
name was found before it, the table size that the table is full. -/
def sfsCreateLoop (fn : List UInt8) : ℕ → ℕ → Handle → Handle × Option ℕ
  | 0, i, h => (h, some i)
  | n + 1, i, h =>
    match h.readEntry with
    | (h, fe) =>
      if ¬ fe.Named then (h, some i)
      else if fe.cname = fn then (h, none)
      else sfsCreateLoop fn n (i + 1) h

/-- `sfs_create`; `now` is `time(NULL)`. -/
def sfsCreate (s : Shell) (fn : List UInt8) (now : UInt32) : Shell × List Output :=
  let s := s.seekTable o
  match sfsCreateLoop fn s.sb.entryCount.toNat 0 s.toHandle with
  | (h, none) => ({ s with toHandle := h }, [.text "File %s already exists\n" fn])
  | (h, some i) =>
    if i = s.sb.entryCount.toNat then ({ s with toHandle := h }, [.text "No entries left\n" fn])
    else
      let h := h.seekCur o (-s.sb.entrySize)
      ({ s with toHandle := h.writeEntry (.fresh fn now 7) }, [])

def sfsLookupLoop (fn : List UInt8) : ℕ → ℕ → Handle → Handle × ℤ × SfsFileEntry
  | 0, _, h => (h, -1, .zero)
  | n + 1, i, h =>
    match h.readEntry with
    | (h, fe) =>
      if ¬ fe.Named then sfsLookupLoop fn n (i + 1) h
      else if fe.cname = fn then (h, i, fe)
      else sfsLookupLoop fn n (i + 1) h

/-- `sfs_lookup`: the slot, or -1, and on success its entry. -/
def sfsLookup (s : Shell) (fn : List UInt8) : Shell × ℤ × SfsFileEntry :=
  let s := s.seekTable o
  let r := sfsLookupLoop fn s.sb.entryCount.toNat 0 s.toHandle
  ({ s with toHandle := r.1 }, r.2)

def sfsRemove (s : Shell) (fn : List UInt8) : Shell × List Output :=
  match sfsLookup o s fn with
  | (s, i, fe) =>
    if i = -1 then (s, [.text "File %s doesn't exist\n" fn])
    else (((putBlocks (List.ofFn fe.blocks) s).seekEntry o i).writeEntry .zero, [])

def sfsUpdate (s : Shell) (fn : List UInt8) (size : Option ℤ) (updateTs : Bool)
    (perms : Option ℤ) (now : UInt32) : Shell × List Output :=
  match sfsLookup o s fn with
  | (s, i, fe) =>
    if i = -1 then (s, [.text "File %s doesn't exist\n" fn])
    else
      let fe := { fe with
        size := size.elim fe.size UInt32.ofInt
        timestamp := if updateTs then now else fe.timestamp
        perms := perms.elim fe.perms fun p => if p ≤ 7 then UInt32.ofInt p else fe.perms }
      ((s.seekEntry o i).writeEntry fe, [])

def sfsChperm (s : Shell) (fn : List UInt8) (perm : ℤ) : Shell × List Output :=
  sfsUpdate o s fn none false (some perm) 0

/-! ### File contents -/

/-- `read(sfs_handle, block, n)`. -/
def Shell.readBlock (s : Shell) (n : ℕ) : Shell :=
  { s with
    toHandle := (s.toHandle.read n).1
    block := s.block.blit 0 n (s.toHandle.read n).2 }

/-- `write(sfs_handle, block, n)`. -/
def Shell.writeBlock (s : Shell) (n : ℕ) : Shell := { s with toHandle := s.toHandle.write s.block n }

/-- The loop of `sfs_read` over the pointers. -/
def sfsReadLoop : List UInt32 → Shell → UInt32 → List UInt8 → Shell × List UInt8
  | [], s, _, out => (s, out)
  | b :: bs, s, remToRead, out =>
    if b = 0 then (s, out)
    else
      let toRead := if remToRead ≥ s.sb.blockSize then s.sb.blockSize else remToRead
      let s := (s.seekSet o (b * s.sb.blockSize)).readBlock toRead.toNat
      let out := out ++ s.block.bytes toRead.toNat
      if remToRead - toRead = 0 then (s, out) else sfsReadLoop bs s (remToRead - toRead) out

def sfsRead (s : Shell) (fn : List UInt8) : Shell × List Output :=
  match sfsLookup o s fn with
  | (s, i, fe) =>
    if i = -1 then (s, [.text "File %s doesn't exist\n" fn])
    else if fe.perms &&& 4 = 0 then (s, [.text "File %s doesn't have read permissions\n" fn])
    else
      let r := sfsReadLoop o (List.ofFn fe.blocks) s fe.size []
      (r.1, [.data r.2])

/-- The variables of the loop of `sfs_write`. A `read` that fails or meets the end
of the file leaves 0 in `curRead`. -/
structure WriteVars where
  stdin : Stdin
  fe : SfsFileEntry
  curRead : ℕ
  curReadI : ℕ
  toRead : ℕ
  totalSize : ℕ
  blockI : ℕ

/-- The loop of `sfs_write`, for at most so many calls of `read`. -/
def sfsWriteLoop : ℕ → Shell → WriteVars → Shell × WriteVars
  | 0, s, w => (s, w)
  | n + 1, s, w =>
    match readStdin s.block w.curReadI w.toRead w.stdin with
    | (block, curRead, stdin) =>
      let s := { s with block := block }
      let w := { w with curRead := curRead, stdin := stdin }
      if curRead = 0 then (s, w)
      else if curRead = w.toRead then
        if hk : w.blockI < 9 then
          match getDataBlock s with
          | (s, freeI) =>
            if freeI = -1 then (s, w)
            else
              let s := (s.seekSet o (UInt32.ofInt freeI * s.sb.blockSize)).writeBlock
                s.sb.blockSize.toNat
              sfsWriteLoop n s { w with
                fe := w.fe.point ⟨w.blockI, hk⟩ (UInt32.ofInt freeI)
                blockI := w.blockI + 1
                totalSize := w.totalSize + s.sb.blockSize.toNat
                curReadI := 0
                toRead := s.sb.blockSize.toNat }
        -- the file size limit: block_i is SIMULA_FS_DATA_BLOCK_CNT
        else (s, w)
      else sfsWriteLoop n s { w with
        curReadI := w.curReadI + curRead
        toRead := w.toRead - curRead }

/-- `Write this partial block`, after the loop. -/
def writePartial (s : Shell) (w : WriteVars) : Shell × WriteVars :=
  if w.curRead = 0 ∧ w.curReadI ≠ 0 then
    if hk : w.blockI < 9 then
      match getDataBlock s with
      | (s, b) =>
        let b := UInt32.ofInt b
        let w := { w with fe := w.fe.point ⟨w.blockI, hk⟩ b }
        if b = UInt32.ofInt (-1) then (s, w)
        else ((s.seekSet o (b * s.sb.blockSize)).writeBlock w.curReadI,
          { w with totalSize := w.totalSize + w.curReadI })
    else (s, w)
  else (s, w)

/-- `sfs_write`. Every call of `read` but the last takes a byte, so the loop ends
before its bound. -/
def sfsWrite (s : Shell) (fn : List UInt8) (stdin : Stdin) (now : UInt32) :
    Shell × List Output :=
  match sfsLookup o s fn with
  | (s, i, fe) =>
    if i = -1 then (s, [.text "File %s doesn't exist\n" fn])
    else if fe.perms &&& 2 = 0 then (s, [.text "File %s doesn't have write permissions\n" fn])
    else
      let s := putBlocks (List.ofFn fe.blocks) s
      match sfsWriteLoop o (stdin.flatten.length + 1) s
        ⟨stdin, fe, 0, 0, s.sb.blockSize.toNat, 0, 0⟩ with
      | (s, w) =>
        match writePartial o s w with
        | (s, w) =>
          let fe := { w.fe with size := UInt32.ofNat w.totalSize, timestamp := now }
          ((s.seekEntry o i).writeEntry fe, [])

/-! ### Commands -/

/-- The commands of the shell, with what is typed for a `write` and the clock. -/
inductive Command where
  | list
  | create (fn : List UInt8) (now : UInt32)
  | remove (fn : List UInt8)
  | chperm (perm : ℤ) (fn : List UInt8)
  | read (fn : List UInt8)
  | write (fn : List UInt8) (stdin : Stdin) (now : UInt32)

def Command.run (s : Shell) : Command → Shell × List Output
  | .list => sfsList o s
  | .create fn now => sfsCreate o s fn now
  | .remove fn => sfsRemove o s fn
  | .chperm perm fn => sfsChperm o s fn perm
  | .read fn => sfsRead o s fn
  | .write fn stdin now => sfsWrite o s fn stdin now

def step (s : Shell) (c : Command) : Shell := (c.run o s).1

/-- `quit`, and `main` on the same device. -/
def restart (s : Shell) : Shell := (main o s.dev).getD s

end Linuxpedia.RealFs
