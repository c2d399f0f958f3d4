import Linuxpedia.Lib.ByteFile

/-! The memory of the RAM disk, `ram_device.c`, and the partition tables that it starts
with, `partition.c`. The device is the `vmalloc` area `dev_data`; what lies behind it in
memory is kept too, so an access out of range is seen. The tables hold `unsigned long`
words, whose width depends on the machine. -/

namespace Linuxpedia.RamDisk

open Lib

/-- `RB_SECTOR_SIZE`. -/
def rbSectorSize : ℕ := 512

/-- `RB_DEVICE_SIZE`, in sectors. -/
def rbDeviceSize : ℕ := 1024

def enomem : ℤ := 12

/-! ### `partition.c` -/

/-- The machine: `unsigned long` has four or eight bytes. -/
inductive Abi where
  | ilp32
  | lp64
  deriving DecidableEq

def Abi.sizeofLong : Abi → ℕ
  | .ilp32 => 4
  | .lp64 => 8

/-- The bytes of an `unsigned long`, least significant first. -/
def Abi.long (abi : Abi) (v : ℕ) : List UInt8 :=
  (List.range abi.sizeofLong).map fun k => UInt8.ofNat (v / 256 ^ k)

/-- `PartEntry`. -/
structure PartEntry where
  bootType : UInt8
  startHead : UInt8
  startSec : UInt8
  startCylHi : UInt8
  startCyl : UInt8
  partType : UInt8
  endHead : UInt8
  endSec : UInt8
  endCylHi : UInt8
  endCyl : UInt8
  absStartSec : ℕ
  secInPart : ℕ

/-- The structure in memory; a sector number shares its byte with the high bits of its
cylinder. -/
def PartEntry.toBytes (abi : Abi) (e : PartEntry) : List UInt8 :=
  [e.bootType, e.startHead, e.startSec % 64 + 64 * e.startCylHi, e.startCyl, e.partType, e.endHead,
    e.endSec % 64 + 64 * e.endCylHi, e.endCyl] ++ abi.long e.absStartSec ++ abi.long e.secInPart

/-- An entry that the tables leave out. -/
def PartEntry.none : PartEntry := ⟨0, 0, 0, 0, 0, 0, 0, 0, 0, 0, 0, 0⟩

/-- `PartTable`, four entries. -/
abbrev PartTable := List PartEntry

def defPartTable : PartTable :=
  [⟨0x00, 0x00, 0x02, 0, 0x00, 0x83, 0x00, 0x20, 0, 0x09, 0x00000001, 0x0000013F⟩,
    ⟨0x00, 0x00, 0x01, 0, 0x0A, 0x05, 0x00, 0x20, 0, 0x13, 0x00000140, 0x00000140⟩,
    ⟨0x00, 0x00, 0x01, 0, 0x14, 0x83, 0x00, 0x20, 0, 0x1F, 0x00000280, 0x00000180⟩,
    .none]

def defLogPartBrCyl : List ℕ := [0x0A, 0x0E, 0x12]

def defLogPartTable : List PartTable :=
  [[⟨0x00, 0x00, 0x02, 0, 0x0A, 0x83, 0x00, 0x20, 0, 0x0D, 0x00000001, 0x0000007F⟩,
      ⟨0x00, 0x00, 0x01, 0, 0x0E, 0x05, 0x00, 0x20, 0, 0x11, 0x00000080, 0x00000080⟩, .none, .none],
    [⟨0x00, 0x00, 0x02, 0, 0x0E, 0x83, 0x00, 0x20, 0, 0x11, 0x00000001, 0x0000007F⟩,
      ⟨0x00, 0x00, 0x01, 0, 0x12, 0x05, 0x00, 0x20, 0, 0x13, 0x00000100, 0x00000040⟩, .none, .none],
    [⟨0x00, 0x00, 0x02, 0, 0x12, 0x83, 0x00, 0x20, 0, 0x13, 0x00000001, 0x0000003F⟩, .none, .none,
      .none]]

/-- `memcpy` of `PARTITION_TABLE_SIZE` bytes, which on a 64-bit machine is less than the
table. -/
def tableBytes (abi : Abi) (table : PartTable) : List UInt8 :=
  (table.flatMap (PartEntry.toBytes abi)).take 64

def copyMbr (abi : Abi) (disk : Store) : Store :=
  (((disk.blit 0 512 fun _ => 0).put 440 (abi.long 0x36E5756D)).put 446
    (tableBytes abi defPartTable)).put 510 [0x55, 0xAA]

def copyBr (abi : Abi) (disk : Store) (startCylinder : ℕ) (table : PartTable) : Store :=
  let o := startCylinder * 32 * 512
  ((disk.blit o 512 fun _ => 0).put (o + 446) (tableBytes abi table)).put (o + 510) [0x55, 0xAA]

def copyMbrNBr (abi : Abi) (disk : Store) : Store :=
  (defLogPartBrCyl.zip defLogPartTable).foldl (fun disk p => copyBr abi disk p.1 p.2)
    (copyMbr abi disk)

/-! ### `ram_device.c` -/

/-- The code, and `dev_data` if there is memory. -/
def ramdeviceInit (abi : Abi) (vmalloc : Option Store) : ℤ × Option Store :=
  match vmalloc with
  | none => (-enomem, none)
  | some mem => (rbDeviceSize, some (copyMbrNBr abi mem))

def ramdeviceWrite (devData : Store) (sectorOff : ℕ) (buffer : List UInt8) (sectors : ℕ) : Store :=
  devData.put (sectorOff * rbSectorSize) (buffer.take (sectors * rbSectorSize))

/-- The buffer after the copy. -/
def ramdeviceRead (devData : Store) (sectorOff : ℕ) (buffer : List UInt8) (sectors : ℕ) :
    List UInt8 :=
  devData.slice (sectorOff * rbSectorSize) (sectors * rbSectorSize) ++
    buffer.drop (sectors * rbSectorSize)

/-! ### What the tables occupy -/

theorem length_tableBytes_le (abi : Abi) (table : PartTable) : (tableBytes abi table).length ≤ 64 :=
  List.length_take_le _ _

theorem copyMbr_outside (abi : Abi) (disk : Store) {a : ℕ} (h : 512 ≤ a) :
    copyMbr abi disk a = disk a := by
  have ht := length_tableBytes_le abi defPartTable
  have hl : (abi.long 0x36E5756D).length ≤ 8 := by cases abi <;> decide
  unfold copyMbr
  rw [Store.put_outside _ (Or.inr (by simp; omega)), Store.put_outside _ (Or.inr (by omega)),
    Store.put_outside _ (Or.inr (by omega)), Store.blit_outside _ _ (Or.inr (by omega))]

/-- A boot record takes the first sector of its cylinder. -/
theorem copyBr_outside (abi : Abi) (disk : Store) (cyl : ℕ) (table : PartTable) {a : ℕ}
    (h : a < 512 * (32 * cyl) ∨ 512 * (32 * cyl) + 512 ≤ a) :
    copyBr abi disk cyl table a = disk a := by
  have ht := length_tableBytes_le abi table
  unfold copyBr
  rw [Store.put_outside _ (by simp only [List.length_cons, List.length_nil]; omega),
    Store.put_outside _ (by omega), Store.blit_outside _ _ (by omega)]

/-- A boot record ends with the signature. -/
theorem copyBr_signature (abi : Abi) (disk : Store) (cyl : ℕ) (table : PartTable) :
    (copyBr abi disk cyl table).slice (512 * (32 * cyl) + 510) 2 = [0x55, 0xAA] := by
  have ho : 512 * (32 * cyl) = cyl * 32 * 512 := by omega
  rw [ho]
  exact Store.slice_put_self _ _ [0x55, 0xAA]

/-- The sectors with a partition table. -/
def tableSectors : List ℕ := 0 :: defLogPartBrCyl.map (32 * ·)

/-- `ramdevice_init` leaves every sector without a table as `vmalloc` returned it, and
touches nothing behind the device. -/
theorem copyMbrNBr_outside (abi : Abi) (disk : Store) {a : ℕ} (h : a / 512 ∉ tableSectors) :
    copyMbrNBr abi disk a = disk a := by
  have hs : ∀ s ∈ tableSectors, a < 512 * s ∨ 512 * s + 512 ≤ a := by
    intro s hs
    have hne : a / 512 ≠ s := fun he => h (he ▸ hs)
    omega
  have h0 := hs 0 (by decide)
  have h1 := hs (32 * 0x0A) (by decide)
  have h2 := hs (32 * 0x0E) (by decide)
  have h3 := hs (32 * 0x12) (by decide)
  simp only [copyMbrNBr, defLogPartBrCyl, defLogPartTable, List.zip_cons_cons, List.zip_nil_right,
    List.foldl_cons, List.foldl_nil]
  rw [copyBr_outside abi _ _ _ h3, copyBr_outside abi _ _ _ h2, copyBr_outside abi _ _ _ h1,
    copyMbr_outside abi _ (by omega)]

end Linuxpedia.RamDisk
