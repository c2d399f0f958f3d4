import Linuxpedia.Sfs.Operations
import Linuxpedia.Lib.ByteFile

/-! What `real_sfs.c` hands to the VFS: the inode that `sfs_inode_lookup` fills in from a
file entry, the block size that `sfs_fill_super` sets, and the block of the device that a
mapped buffer stands for. An entry keeps three permission bits of a mode; a mode made from
them gives them back. -/

namespace Linuxpedia.Sfs

open Lib

def enoent : ℤ := 2

/-! ### `sfs_fill_super` -/

/-- The loop of `get_bit_pos` from `i` on, over the bits of `val`. -/
def getBitPosLoop : ℕ → UInt32 → ℤ → ℤ
  | 0, _, i => i
  | n + 1, val, i => if val = 0 then i else getBitPosLoop n (val >>> 1) (i + 1)

/-- `get_bit_pos`; 32 rounds leave nothing of an `unsigned int`. -/
def getBitPos (val : UInt32) : ℤ := getBitPosLoop 32 val 0 - 1

namespace Mount

/-- `sb->s_blocksize`. -/
def sBlocksize (m : Mount) : ℕ := m.sb.blockSize.toNat

/-- `sb->s_blocksize_bits`, the `i_blkbits` of every inode. -/
def sBlocksizeBits (m : Mount) : ℕ := (getBitPos m.sb.blockSize).toNat

/-- `block_write_full_page`: `map_bh` gave the buffer the block `phys` and the size
`s_blocksize`, and both go to the device. -/
def submitWrite (m : Mount) (phys : UInt32) (data : Store) : Mount :=
  { m with dev := m.dev.blit (phys.toNat * m.sBlocksize) m.sBlocksize data }

/-- `mpage_readpage`, which finds the sectors of the block `phys` by `i_blkbits`. -/
def submitRead (m : Mount) (phys : UInt32) : List UInt8 :=
  m.dev.slice (phys.toNat * 2 ^ m.sBlocksizeBits) (2 ^ m.sBlocksizeBits)

end Mount

/-! ### `sfs_inode_lookup` -/

/-- `S_IFREG` and, for each permission bit, that permission for everyone. -/
def modeOfPerms (perms : UInt32) : UInt32 :=
  0o100000 ||| (if perms &&& 4 ≠ 0 then 0o444 else 0) ||| (if perms &&& 2 ≠ 0 then 0o222 else 0) |||
    (if perms &&& 1 ≠ 0 then 0o111 else 0)

/-- A new inode, as it is filled in from its entry. -/
def fillInode (ino : ℤ) (fe : SfsFileEntry) : Inode where
  iIno := ino
  iSize := fe.size.toNat
  iMtime := fe.timestamp.toNat
  iCtime := fe.timestamp.toNat
  iMode := modeOfPerms fe.perms

/-- `sfs_inode_lookup` in the directory `parent`: an error, no inode, or an inode.
`iget_locked` may fail, and it knows the inode or makes a new one. -/
def sfsInodeLookup (κ : Kernel) (m : Mount) (root parent : ℤ) (igetLocked : ℤ → Option (Option Inode))
    (fn : List UInt8) : Mount × Except ℤ (Option Inode) :=
  if parent ≠ root then (m, .error (-enoent))
  else
    match sfsLookup κ m fn with
    | (m, ino, fe) =>
      if ino = -1 then (m, .ok none)
      else
        match igetLocked ino with
        | none => (m, .error (-eacces))
        | some none => (m, .ok (some (fillInode ino fe)))
        | some (some inode) => (m, .ok (some inode))

/-! ### Bits -/

/-- The loop counts the bits that `val` has. -/
theorem getBitPosLoop_eq (n : ℕ) (val : UInt32) (i : ℤ) (h0 : val ≠ 0) (h : val.toNat < 2 ^ n) :
    getBitPosLoop n val i = i + (Nat.log2 val.toNat + 1) := by
  induction n generalizing val i with
  | zero =>
    have hz : val.toNat = 0 := by omega
    exact absurd (UInt32.toNat_inj.mp hz) h0
  | succ n ih =>
    have hshift : (val >>> 1).toNat = val.toNat / 2 := by
      rw [UInt32.toNat_shiftRight, show (1 : UInt32).toNat % 32 = 1 from rfl, Nat.shiftRight_one]
    rw [getBitPosLoop, if_neg h0]
    by_cases hs : val >>> 1 = 0
    · have hone : val.toNat < 2 := by
        have hz := congrArg UInt32.toNat hs
        rw [hshift, UInt32.toNat_zero] at hz
        omega
      have hlog : Nat.log2 val.toNat = 0 := by rw [Nat.log2_def, if_neg (by omega)]
      rw [hs, hlog]
      cases n <;> simp [getBitPosLoop]
    · have htwo : 2 ≤ val.toNat := by
        by_contra hlt
        refine hs (UInt32.toNat_inj.mp ?_)
        rw [hshift, UInt32.toNat_zero]
        omega
      rw [ih _ _ hs (by rw [hshift]; omega), hshift, Nat.log2_def val.toNat, if_pos htwo]
      push_cast
      omega

/-- `get_bit_pos` finds the highest bit. -/
theorem getBitPos_eq {val : UInt32} (h0 : val ≠ 0) : getBitPos val = Nat.log2 val.toNat := by
  rw [getBitPos, getBitPosLoop_eq 32 val 0 h0 val.toNat_lt]
  omega

/-- A block size that is a power of two is found from its bits. -/
theorem Mount.two_pow_sBlocksizeBits {m : Mount} {n : ℕ} (h : m.sBlocksize = 2 ^ n) :
    2 ^ m.sBlocksizeBits = m.sBlocksize := by
  have h0 : m.sb.blockSize ≠ 0 := by
    intro hz
    have hpos := Nat.two_pow_pos n
    rw [← h, sBlocksize, hz, UInt32.toNat_zero] at hpos
    exact Nat.lt_irrefl 0 hpos
  rw [sBlocksizeBits, getBitPos_eq h0, Int.toNat_natCast, show m.sb.blockSize.toNat = 2 ^ n from h,
    Nat.log2_two_pow, h]

/-! ### Modes -/

/-- What an entry keeps of a mode and gives back: a permission is for everyone as soon as
it is for someone. -/
def widen (mode : UInt32) : UInt32 :=
  0o100000 ||| (if mode &&& 0o444 ≠ 0 then 0o444 else 0) |||
    (if mode &&& 0o222 ≠ 0 then 0o222 else 0) ||| (if mode &&& 0o111 ≠ 0 then 0o111 else 0)

theorem modeOfPerms_permsOfMode (mode : UInt32) :
    modeOfPerms (UInt32.ofInt (permsOfMode mode)) = widen mode := by
  unfold permsOfMode widen
  split_ifs <;> decide

/-- A mode that was stored once is stored again as it is. -/
theorem widen_modeOfPerms (perms : UInt32) : widen (modeOfPerms perms) = modeOfPerms perms := by
  unfold modeOfPerms
  split_ifs <;> decide

theorem sIsReg_modeOfPerms (perms : UInt32) : sIsReg (modeOfPerms perms) = true := by
  unfold modeOfPerms
  split_ifs <;> decide

end Linuxpedia.Sfs
