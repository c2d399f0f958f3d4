import Linuxpedia.RamDisk.RamDevice
import Linuxpedia.Lib.DosPartition

/-! The partition tables of `partition.c` as the format has them. Where an `unsigned long`
has four bytes, a record that `copy_br` puts in a sector is read back, for every table and
whatever was on the disk, so the records of the RAM disk describe three primary partitions,
one of them extended, and three logical ones. Where it has eight, an entry is longer than
the 16 bytes of the format and the first sector is no boot record. -/

namespace Linuxpedia.RamDisk

open Lib

/-- What is read of an entry. -/
def PartEntry.view (e : PartEntry) : Dos.Entry :=
  ⟨e.bootType, e.partType, UInt32.ofNat e.absStartSec, UInt32.ofNat e.secInPart⟩

/-- The sector of the boot record of a cylinder. -/
def brSector (cyl : ℕ) : ℕ := 32 * cyl

/-! ### A record is read back -/

theorem wordByte_ofNat (v : ℕ) {k : ℕ} (hk : k < 4) :
    Store.wordByte (UInt32.ofNat v) k = UInt8.ofNat (v / 256 ^ k) := by
  apply UInt8.toNat_inj.mp
  rw [Store.wordByte, UInt32.toNat_ofNat', UInt8.toNat_ofNat', UInt8.toNat_ofNat']
  obtain rfl | rfl | rfl | rfl : k = 0 ∨ k = 1 ∨ k = 2 ∨ k = 3 := by omega
  all_goals omega

theorem length_toBytes (e : PartEntry) : (e.toBytes .ilp32).length = 16 := rfl

/-- A word of four bytes is read back. -/
theorem word_put (f : Store) {o : ℕ} {l : List UInt8} {j : ℕ} (v : ℕ)
    (h : ∀ k < 4, l[j + k]? = some (UInt8.ofNat (v / 256 ^ k))) :
    (f.put o l).word (o + j) = UInt32.ofNat v := by
  refine Store.word_of_bytes _ _ fun k hk => ?_
  rw [Store.put_apply, if_pos (by omega), show o + j + k - o = j + k by omega, h k hk,
    wordByte_ofNat v hk]
  rfl

theorem entryAt_put (f : Store) (o : ℕ) (e : PartEntry) :
    Dos.entryAt (f.put o (e.toBytes .ilp32)) o = e.view := by
  have hstart : ∀ k < 4,
      (e.toBytes .ilp32)[8 + k]? = some (UInt8.ofNat (e.absStartSec / 256 ^ k)) := by
    intro k hk
    obtain rfl | rfl | rfl | rfl : k = 0 ∨ k = 1 ∨ k = 2 ∨ k = 3 := by omega
    all_goals rfl
  have hsectors : ∀ k < 4,
      (e.toBytes .ilp32)[12 + k]? = some (UInt8.ofNat (e.secInPart / 256 ^ k)) := by
    intro k hk
    obtain rfl | rfl | rfl | rfl : k = 0 ∨ k = 1 ∨ k = 2 ∨ k = 3 := by omega
    all_goals rfl
  have hboot : f.put o (e.toBytes .ilp32) o = e.bootType := by
    rw [Store.put_apply, if_pos le_rfl, Nat.sub_self]
    rfl
  have htype : f.put o (e.toBytes .ilp32) (o + 4) = e.partType := by
    rw [Store.put_apply, if_pos (Nat.le_add_right _ _), Nat.add_sub_cancel_left]
    rfl
  rw [Dos.entryAt, hboot, htype, word_put f _ hstart, word_put f _ hsectors]
  rfl

/-- The entries of a table are read back. -/
theorem entries_put (f : Store) (o : ℕ) (table : PartTable) :
    Dos.entries (f.put o (table.flatMap (PartEntry.toBytes .ilp32))) o table.length =
      table.map PartEntry.view := by
  induction table generalizing f o with
  | nil => rfl
  | cons e table ih =>
    rw [List.flatMap_cons, Store.put_append, length_toBytes, List.length_cons, Dos.entries,
      ih, List.map_cons, ← entryAt_put f o e]
    congr 1
    exact Dos.entryAt_congr fun i hi => Store.put_outside _ (Or.inl (by omega))

/-- A sector with a table and the signature is a boot record if the format knows its boot
types. -/
theorem record_sealed (disk : Store) (s : ℕ) {table : PartTable} (h4 : table.length = 4) :
    Dos.record ((disk.put (512 * s + 446) (tableBytes .ilp32 table)).put (512 * s + 510)
      [0x55, 0xAA]) s =
      if ∀ e ∈ table, e.view.Valid then some (table.map PartEntry.view) else none := by
  have hbytes : tableBytes .ilp32 table = table.flatMap (PartEntry.toBytes .ilp32) := by
    refine List.take_of_length_le ?_
    rw [List.length_flatMap, List.map_congr_left fun e _ => length_toBytes e, List.map_const',
      List.sum_replicate, h4]
    rfl
  set d := (disk.put (512 * s + 446) (tableBytes .ilp32 table)).put (512 * s + 510) [0x55, 0xAA]
    with hd
  have hes : Dos.entries d (512 * s + 446) 4 = table.map PartEntry.view := by
    rw [← entries_put disk (512 * s + 446) table, ← hbytes, h4]
    exact Dos.entries_congr fun i hi => Store.put_outside _ (Or.inl (by omega))
  have hfirst : d (512 * s + 510) = 0x55 := by
    rw [hd, Store.put_apply, if_pos le_rfl, Nat.sub_self]
    rfl
  have hsecond : d (512 * s + 511) = 0xAA := by
    rw [hd, Store.put_apply, if_pos (by omega), show 512 * s + 511 - (512 * s + 510) = 1 by omega]
    rfl
  have hall : (∀ e ∈ table.map PartEntry.view, e.Valid) ↔ ∀ e ∈ table, e.view.Valid :=
    List.forall_mem_map
  unfold Dos.record
  simp only [hes, hfirst, hsecond, true_and, hall]

/-- What `copy_br` puts on a 32-bit machine is read back from its sector. -/
theorem record_copyBr (disk : Store) (cyl : ℕ) {table : PartTable} (h4 : table.length = 4) :
    Dos.record (copyBr .ilp32 disk cyl table) (brSector cyl) =
      if ∀ e ∈ table, e.view.Valid then some (table.map PartEntry.view) else none := by
  have ho : cyl * 32 * 512 = 512 * brSector cyl := by
    unfold brSector
    omega
  unfold copyBr
  simp only [ho]
  exact record_sealed _ _ h4

/-- Other sectors keep their records. -/
theorem record_copyBr_of_ne (abi : Abi) (disk : Store) {cyl : ℕ} (table : PartTable) {s : ℕ}
    (hs : s ≠ brSector cyl) :
    Dos.record (copyBr abi disk cyl table) s = Dos.record disk s := by
  refine Dos.record_congr fun i hi => copyBr_outside abi disk cyl table ?_
  unfold brSector at hs
  omega

theorem record_copyMbr (disk : Store) : Dos.record (copyMbr .ilp32 disk) 0 =
    some (defPartTable.map PartEntry.view) := by
  have hvalid : ∀ e ∈ defPartTable, e.view.Valid := by decide
  have h := record_sealed ((disk.blit 0 512 fun _ => 0).put 440 (Abi.ilp32.long 0x36E5756D)) 0
    (show defPartTable.length = 4 from rfl)
  rwa [if_pos hvalid] at h

/-! ### The records of the RAM disk -/

/-- The records that `copy_mbr_n_br` leaves. -/
def Records (dev : Store) : Prop :=
  Dos.record dev 0 = some (defPartTable.map PartEntry.view) ∧
    ∀ p ∈ defLogPartBrCyl.zip defLogPartTable,
      Dos.record dev (brSector p.1) = some (p.2.map PartEntry.view)

/-- Each record is put in a sector of its own. -/
theorem record_foldl {ps : List (ℕ × PartTable)} (hps : (ps.map Prod.fst).Nodup)
    (h4 : ∀ p ∈ ps, p.2.length = 4) (hvalid : ∀ p ∈ ps, ∀ e ∈ p.2, e.view.Valid) (disk : Store) :
    (∀ s, (∀ p ∈ ps, s ≠ brSector p.1) →
      Dos.record (ps.foldl (fun d p => copyBr .ilp32 d p.1 p.2) disk) s = Dos.record disk s) ∧
    ∀ p ∈ ps, Dos.record (ps.foldl (fun d p => copyBr .ilp32 d p.1 p.2) disk) (brSector p.1) =
      some (p.2.map PartEntry.view) := by
  induction ps generalizing disk with
  | nil => exact ⟨fun _ _ => rfl, fun p hp => absurd hp List.not_mem_nil⟩
  | cons q ps ih =>
    obtain ⟨hq, hnodup⟩ := List.nodup_cons.mp hps
    obtain ⟨h4q, h4s⟩ := List.forall_mem_cons.mp h4
    obtain ⟨hvq, hvs⟩ := List.forall_mem_cons.mp hvalid
    obtain ⟨hother, hhere⟩ := ih hnodup h4s hvs (copyBr .ilp32 disk q.1 q.2)
    refine ⟨fun s hs => ?_, List.forall_mem_cons.mpr ⟨?_, hhere⟩⟩
    · obtain ⟨hsq, hss⟩ := List.forall_mem_cons.mp hs
      exact (hother s hss).trans (record_copyBr_of_ne .ilp32 disk q.2 hsq)
    · have hne : ∀ p ∈ ps, brSector q.1 ≠ brSector p.1 := by
        intro p hp he
        have hfst : q.1 = p.1 := by
          unfold brSector at he
          omega
        exact hq (hfst ▸ List.mem_map_of_mem hp)
      rw [List.foldl_cons, hother _ hne, record_copyBr _ _ h4q, if_pos hvq]

theorem records_copyMbrNBr (mem : Store) : Records (copyMbrNBr .ilp32 mem) := by
  have hcyls : ((defLogPartBrCyl.zip defLogPartTable).map Prod.fst).Nodup := by decide
  obtain ⟨hother, hhere⟩ := record_foldl hcyls (by decide) (by decide) (copyMbr .ilp32 mem)
  refine ⟨?_, hhere⟩
  rw [← record_copyMbr mem]
  exact hother 0 (by decide)

/-- The partitions of the RAM disk with data: `rb1`, `rb3` and, in the extended `rb2`, `rb5`
to `rb7`. -/
def rbPartitions : List Dos.Part :=
  [⟨1, 1, 319⟩, ⟨3, 640, 384⟩, ⟨5, 321, 127⟩, ⟨6, 449, 127⟩, ⟨7, 577, 63⟩]

/-- All of them, of `rb2` the first `lead` sectors. -/
def rbDevices (lead : ℕ) : List Dos.Part :=
  [⟨1, 1, 319⟩, ⟨2, 320, min lead 320⟩, ⟨3, 640, 384⟩, ⟨5, 321, 127⟩, ⟨6, 449, 127⟩, ⟨7, 577, 63⟩]

/-- The records describe these partitions. -/
theorem Records.described {dev : Store} (h : Records dev) (lead : ℕ) :
    Dos.Describes lead dev (rbDevices lead) := by
  obtain ⟨h0, hbr⟩ := h
  simp only [defLogPartBrCyl, defLogPartTable, List.zip_cons_cons, List.zip_nil_right,
    List.forall_mem_cons] at hbr
  obtain ⟨h1, h2, h3, -⟩ := hbr
  have h7 : Dos.Chain dev 320 576 7 [⟨7, 577, 63⟩] :=
    .last h3 (by decide) (by decide) (by decide) (by decide)
  have h6 : Dos.Chain dev 320 448 6 [⟨6, 449, 127⟩, ⟨7, 577, 63⟩] :=
    .link h2 (by decide) (by decide) (by decide) (by decide) h7
  have h5 : Dos.Chain dev 320 320 5 [⟨5, 321, 127⟩, ⟨6, 449, 127⟩, ⟨7, 577, 63⟩] :=
    .link h1 (by decide) (by decide) (by decide) (by decide) h6
  exact .extended h0 (by decide) rfl h5

/-- A reader as documented finds them. -/
theorem Records.read_eq {dev : Store} (h : Records dev) {lead minors : ℕ}
    {read : Store → Option (List Dos.Part)} (hread : Dos.Reads lead minors rbDeviceSize read)
    (hminors : 7 < minors) : read dev = some (rbDevices lead) := by
  refine hread.described dev _ (h.described lead) ?_
  simp only [rbDevices, rbDeviceSize, List.forall_mem_cons]
  refine ⟨?_, ?_, ?_, ?_, ?_, ?_, by simp⟩ <;> omega

/-- On a 64-bit machine the second entry is read in the middle of the first one, so there
is no boot record. -/
theorem record_lp64 (mem : Store) : Dos.record (copyMbrNBr .lp64 mem) 0 = none := by
  have hbyte : copyMbrNBr .lp64 mem 462 = 0x3F := by
    simp only [copyMbrNBr, defLogPartBrCyl, defLogPartTable, List.zip_cons_cons,
      List.zip_nil_right, List.foldl_cons, List.foldl_nil]
    rw [copyBr_outside _ _ _ _ (by omega), copyBr_outside _ _ _ _ (by omega),
      copyBr_outside _ _ _ _ (by omega), copyMbr, Store.put_outside _ (by decide), Store.put_apply]
    rfl
  unfold Dos.record
  refine if_neg fun h => ?_
  have hvalid := h.2.2 (Dos.entryAt (copyMbrNBr .lp64 mem) 462)
    (List.mem_cons_of_mem _ List.mem_cons_self)
  have hboot : (0x3F : UInt8) = 0 ∨ (0x3F : UInt8) = 0x80 := hbyte ▸ hvalid
  exact absurd hboot (by decide)

end Linuxpedia.RamDisk
