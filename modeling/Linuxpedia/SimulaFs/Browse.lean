import Linuxpedia.RealFs.Contents

/-! The browsing shells before v3.0: v1.0, `device-part19/part19.c`, which lists,
creates and removes files, and v2.0, `SimulaFS/browse_sfs.c`, which also keeps an
allocation table. The functions that are not defined here have the same text in
the v3.0 shell and are taken from there. A command is the same for all three. -/

namespace Linuxpedia.SimulaFs

open Lib Sfs RealFs

variable (o : OffT)

/-! ### v1.0 -/

namespace Part19

/-- `main` up to the first prompt. This shell has no allocation table; the one of
its state stays empty. -/
def main (dev : Store) : Option Shell :=
  match (⟨dev, 0⟩ : Handle).read 512 with
  | (h, buf) =>
    let sb := SfsSuperBlock.ofBytes buf
    if sb.type ≠ simulaFsType then none else some ⟨h, sb, ⟨0, fun _ => 0, false⟩, fun _ => 0⟩

/-- `sfs_remove`: the scan is the one of `sfs_lookup`, and the entry it stopped behind
is overwritten. -/
def sfsRemove (s : Shell) (fn : List UInt8) : Shell × List Output :=
  let s := s.seekTable o
  match sfsLookupLoop fn s.sb.entryCount.toNat 0 s.toHandle with
  | (h, i, _) =>
    if i = -1 then ({ s with toHandle := h }, [.text "File %s doesn't exist\n" fn])
    else
      let h := h.seekCur o (-s.sb.entrySize)
      ({ s with toHandle := h.writeEntry .zero }, [])

/-- Another command gets the list of the commands as its answer, which is left out. -/
def run (s : Shell) : Command → Shell × List Output
  | .list => sfsList o s
  | .create fn now => sfsCreate o s fn now
  | .remove fn => sfsRemove o s fn
  | .chperm _ _ => (s, [])
  | .read _ => (s, [])
  | .write _ _ _ => (s, [])

end Part19

/-! ### v2.0 -/

/-- `sfs_remove`: the blocks of the file stay marked. -/
def sfsRemove (s : Shell) (fn : List UInt8) : Shell × List Output :=
  match sfsLookup o s fn with
  | (s, i, _) =>
    if i = -1 then (s, [.text "File %s doesn't exist\n" fn])
    else ((s.seekEntry o i).writeEntry .zero, [])

/-- `sfs_read`: permissions are not checked. -/
def sfsRead (s : Shell) (fn : List UInt8) : Shell × List Output :=
  match sfsLookup o s fn with
  | (s, i, fe) =>
    if i = -1 then (s, [.text "File %s doesn't exist\n" fn])
    else
      let r := sfsReadLoop o (List.ofFn fe.blocks) s fe.size []
      (r.1, [.data r.2])

/-- `sfs_write`: permissions are not checked and the old blocks stay marked. -/
def sfsWrite (s : Shell) (fn : List UInt8) (stdin : Stdin) (now : UInt32) :
    Shell × List Output :=
  match sfsLookup o s fn with
  | (s, i, fe) =>
    if i = -1 then (s, [.text "File %s doesn't exist\n" fn])
    else
      match sfsWriteLoop o (stdin.flatten.length + 1) s
        ⟨stdin, fe, 0, 0, s.sb.blockSize.toNat, 0, 0⟩ with
      | (s, w) =>
        match writePartial o s w with
        | (s, w) =>
          let fe := { w.fe with size := UInt32.ofNat w.totalSize, timestamp := now }
          ((s.seekEntry o i).writeEntry fe, [])

def run (s : Shell) : Command → Shell × List Output
  | .list => sfsList o s
  | .create fn now => sfsCreate o s fn now
  | .remove fn => sfsRemove o s fn
  | .chperm perm fn => sfsChperm o s fn perm
  | .read fn => sfsRead o s fn
  | .write fn stdin now => sfsWrite o s fn stdin now

/-! ### The three shells -/

inductive Version where
  | v1
  | v2
  | v3
  deriving DecidableEq

namespace Version

def main : Version → Store → Option Shell
  | .v1 => Part19.main
  | .v2 => RealFs.main o
  | .v3 => RealFs.main o

def run : Version → Shell → Command → Shell × List Output
  | .v1 => Part19.run o
  | .v2 => SimulaFs.run o
  | .v3 => fun s c => c.run o s

def step (v : Version) (s : Shell) (c : Command) : Shell := (v.run o s c).1

/-- `quit`, and `main` on the same device. -/
def restart (v : Version) (s : Shell) : Shell := (v.main o s.dev).getD s

/-- The shell was just started on a partition of `bytes` bytes that the formatter
made, large enough for its super block. -/
def Started (v : Version) (bytes : ℕ) (s : Shell) : Prop :=
  512 ≤ bytes ∧ ∃ dev stack, v.main o (formatRealSfs bytes dev stack) = some s

end Version

end Linuxpedia.SimulaFs
