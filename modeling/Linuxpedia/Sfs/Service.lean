import Linuxpedia.Sfs.Directory
import Linuxpedia.Sfs.Inodes
import Linuxpedia.Sfs.Remount
import Linuxpedia.Lib.Simulation

/-! The file system as a service. A request names a file; the VFS looks the name up, maps
blocks of the inode through `sfs_get_block`, moves them, and writes the inode back. What
is served is a bounded store of named files: each has a size, a mode, a time and up to
nine blocks of data. Unmounting and mounting again are not seen. -/

namespace Linuxpedia.Sfs

open Lib

/-! ### Requests -/

/-- What a process asks for. Data and size of a file change with its time. -/
inductive FileCall where
  | create (fn : List UInt8) (mode now : UInt32)
  | unlink (fn : List UInt8)
  | stat (fn : List UInt8)
  | truncate (fn : List UInt8) (size : ℕ) (now : UInt32)
  | write (fn : List UInt8) (iblock : ℕ) (data : Store) (now : UInt32)
  | read (fn : List UInt8) (iblock : ℕ)
  | remount

inductive FileReply where
  | code (r : ℤ)
  | attrs (size : ℤ) (mode : UInt32) (time : ℤ)
  | data (bytes : List UInt8)
  deriving DecidableEq

/-- The inode of a name in the root directory, which is in no cache, and what is done
with it. -/
def withInode (κ : Kernel) (m : Mount) (fn : List UInt8) (act : Mount → Inode → Mount × FileReply) :
    Mount × FileReply :=
  match sfsInodeLookup κ m 0 0 (fun _ => some none) fn with
  | (m, .error r) => (m, .code r)
  | (m, .ok none) => (m, .code (-enoent))
  | (m, .ok (some inode)) => act m inode

/-- An inode with a new size and time. -/
def Inode.touch (inode : Inode) (size : ℤ) (now : UInt32) : Inode :=
  { inode with iSize := size, iMtime := now.toNat, iCtime := now.toNat }

/-- `sfs_write_begin` and `generic_write_end` of one block, then the writing back of the
block and of the inode. -/
def writeBlock (κ : Kernel) (m : Mount) (inode : Inode) (iblock : ℕ) (data : Store)
    (now : UInt32) : Mount × FileReply :=
  match sfsGetBlock κ m inode.iIno iblock true with
  | (m, r, none) => (m, .code r)
  | (m, _, some phys) =>
    let m := m.submitWrite phys data
    let size := max inode.iSize ((m.sBlocksize : ℤ) * (iblock + 1))
    let r := sfsWriteInode κ m (inode.touch size now)
    (r.1, .code r.2)

/-- `sfs_readpage` of one block. -/
def readBlock (κ : Kernel) (m : Mount) (inode : Inode) (iblock : ℕ) : Mount × FileReply :=
  match sfsGetBlock κ m inode.iIno iblock false with
  | (m, r, none) => (m, .code r)
  | (m, _, some phys) => (m, .data (m.submitRead phys))

def serve (κ : Kernel) (m : Mount) : FileCall → Mount × FileReply
  | .create fn mode now =>
    let r := sfsInodeCreate κ m fn mode now true
    (r.1, .code r.2.1)
  | .unlink fn =>
    let r := sfsInodeUnlink κ m fn
    (r.1, .code r.2)
  | .stat fn => withInode κ m fn fun m inode => (m, .attrs inode.iSize inode.iMode inode.iMtime)
  | .truncate fn size now => withInode κ m fn fun m inode =>
    let r := sfsWriteInode κ m (inode.touch size now)
    (r.1, .code r.2)
  | .write fn iblock data now =>
    withInode κ m fn fun m inode => writeBlock κ m inode iblock data now
  | .read fn iblock => withInode κ m fn fun m inode => readBlock κ m inode iblock
  | .remount =>
    let r := Sfs.remount κ m
    (r.1, .code r.2)

/-! ### The store of named files -/

/-- A file as its users see it. -/
@[ext] structure Node where
  size : ℕ
  mode : UInt32
  time : UInt32
  block : ℕ → Option (List UInt8)

/-- Nodes by name. -/
abbrev Nodes := List UInt8 → Option Node

/-- How many names and how many blocks there is room for. -/
structure Capacity where
  names : ℕ
  blocks : ℕ

namespace Nodes

/-- The blocks in use, each by its file and index. -/
def stored (F : Nodes) : Set (List UInt8 × ℕ) := {p | ∃ f, F p.1 = some f ∧ f.block p.2 ≠ none}

/-- The store with another file under a name. -/
def put (F : Nodes) (fn : List UInt8) (f : Node) : Nodes := Function.update F fn (some f)

open Classical in
/-- What a request does to the files, and its answer. -/
noncomputable def step (cap : Capacity) (F : Nodes) : FileCall → Nodes × FileReply
  | .create fn mode now =>
    if F fn = none ∧ (SlotMap.keys F).ncard < cap.names then
      (F.put fn ⟨0, widen mode, now, fun _ => none⟩, .code 0)
    else (F, .code (-eio))
  | .unlink fn =>
    match F fn with
    | none => (F, .code (-eio))
    | some _ => (Function.update F fn none, .code 0)
  | .stat fn =>
    match F fn with
    | none => (F, .code (-enoent))
    | some f => (F, .attrs f.size f.mode f.time.toNat)
  | .truncate fn size now =>
    match F fn with
    | none => (F, .code (-enoent))
    | some f => (F.put fn { f with
        size := size
        time := now
        block := fun k => if 512 * k < size then f.block k else none }, .code 0)
  | .write fn k data now =>
    match F fn with
    | none => (F, .code (-enoent))
    | some f =>
      if k < 9 ∧ (f.block k ≠ none ∨ F.stored.ncard < cap.blocks) then
        (F.put fn { f with
          size := max f.size (512 * (k + 1))
          time := now
          block := Function.update f.block k (some (data.bytes 512)) }, .code 0)
      else (F, .code (-enospc))
  | .read fn k =>
    match F fn with
    | none => (F, .code (-enoent))
    | some f =>
      match f.block k with
      | none => (F, .code (if k < 9 then -eio else -enospc))
      | some bytes => (F, .data bytes)
  | .remount => (F, .code 0)

/-- Names given to new files are NUL-free strings of 1 to 15 bytes, sizes are those of an
`int`, and a block is written after the blocks in front of it. -/
def Allowed (F : Nodes) : FileCall → Prop
  | .create fn _ _ => SfsFileEntry.NameOk fn
  | .truncate _ size _ => size < 2 ^ 31
  | .write fn k _ _ => ∀ f, F fn = some f → ∀ j < k, f.block j ≠ none
  | _ => True

/-- Sizes are those of an `int`, and no block lies behind the size of its file. -/
def Tidy (F : Nodes) : Prop := ∀ fn f, F fn = some f →
  f.size < 2 ^ 31 ∧ ∀ k, f.block k ≠ none → k < 9 ∧ 512 * k < f.size

end Nodes

/-! ### Volumes that are alike -/

namespace Volume

/-- Two volumes with the same slots and the same marks, whatever lies behind the tables. -/
structure Same (v v' : Volume) : Prop where
  count : v'.count = v.count
  start : v'.start = v.start
  entry : ∀ i < v.count, v'.entry i = v.entry i
  size : v'.used.size = v.used.size
  cell : ∀ b < v.used.size, v'.used.cell b = v.used.cell b

namespace Same

variable {v v' : Volume} (h : v.Same v')

include h

theorem held (p : ℕ × Fin 9) (b : ℕ) : v'.Held p b ↔ v.Held p b := by
  unfold Held
  rw [h.count]
  refine and_congr_right fun hp => ?_
  rw [h.entry p.1 hp]

theorem marked : v'.marked = v.marked := by
  ext b
  unfold Volume.marked
  rw [Set.mem_ofPred_eq, Set.mem_ofPred_eq, h.size]
  refine and_congr_right fun hb => ?_
  rw [h.cell b hb]

theorem settled (hs : v.Settled) : v'.Settled := by
  refine ⟨⟨⟨?_, ?_⟩, ?_, ?_⟩, ?_, ?_, ?_⟩
  · intro p q b hp hq
    exact hs.owned.ledger.inj ((h.held p b).mp hp) ((h.held q b).mp hq)
  · intro p b hp
    rw [h.marked]
    exact hs.owned.ledger.marked ((h.held p b).mp hp)
  · intro p b hp
    rw [h.start]
    exact hs.owned.data ((h.held p b).mp hp)
  · intro i hi hn k
    rw [h.count] at hi
    rw [h.entry i hi] at hn ⊢
    exact hs.owned.bare i hi hn k
  · intro i hi k hk j hj
    rw [h.count] at hi
    rw [h.entry i hi] at hk ⊢
    exact hs.packed i hi k hk j hj
  · intro b
    rw [h.marked, h.start, hs.exact.tight b]
    exact or_congr_right (exists_congr fun p => (h.held p b).symm)
  · intro b hb hlt
    rw [h.size] at hlt
    rw [h.cell b hlt] at hb ⊢
    exact hs.exact.bit b hb hlt

theorem catalog (hc : v.Catalog) : v'.Catalog := by
  refine ⟨?_, ?_⟩
  · intro i hi j hj
    rw [h.count] at hi hj
    rw [h.entry i hi, h.entry j hj]
    exact hc.unique i hi j hj
  · intro i hi
    rw [h.count] at hi
    rw [h.entry i hi]
    exact hc.terminated i hi

theorem slotOf (fn : List UInt8) : v'.slotOf fn = v.slotOf fn :=
  slotOf_congr h.count fun i hi => by rw [h.entry i hi]

theorem dir : v'.dir = v.dir := by
  funext fn
  unfold Volume.dir
  rw [h.slotOf]
  cases hs : v.slotOf fn with
  | none => rfl
  | some i =>
    have hi := (live_of_slotOf hs).1
    simp only [Option.map_some, file, h.entry i hi]

end Same

end Volume

end Linuxpedia.Sfs
