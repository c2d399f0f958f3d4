import Linuxpedia.RealFs.Start
import Linuxpedia.Sfs.Listing

/-! A formatted device is an empty file system to both of its readers, the driver and
the shell, and formatting changes nothing behind the entry table. -/

namespace Linuxpedia.RealFs

open Lib Sfs

/-- The allocation table of an empty file system: one cell for each block, nothing out
of range so far, and only the blocks in front of the data are marked. -/
structure EmptyTable (sb : SfsSuperBlock) (t : Buffer) : Prop where
  size : t.size = sb.partitionSize.toNat
  fault : t.fault = false
  cell : ∀ b < sb.partitionSize.toNat, t.cell b = if b < sb.dataBlockStart.toNat then 1 else 0

theorem emptyTable {v : Volume} (h : v.Fresh) {sb : SfsSuperBlock}
    (hsize : v.used.size = sb.partitionSize.toNat) (hstart : v.start = sb.dataBlockStart.toNat) :
    EmptyTable sb v.used := by
  obtain ⟨hfault, hlow, hhigh⟩ := h.table
  refine ⟨hsize, hfault, fun b hb => ?_⟩
  rw [← hstart]
  split_ifs with hlt
  · exact hlow b hlt
  · exact hhigh b (hsize ▸ hb) (Nat.not_lt.mp hlt)

theorem slotOf_empty {v : Volume} (h : ∀ i < v.count, v.entry i = .zero) (fn : List UInt8) :
    v.slotOf fn = none := by
  apply Volume.first_eq_none.mpr
  intro i hi hm
  rw [h i hi] at hm
  exact SfsFileEntry.zero_not_named hm.1

/-! ### The driver -/

theorem listing_empty {entry : ℕ → SfsFileEntry} (n i fPos : ℕ)
    (h : ∀ j, i ≤ j → j < i + n → entry j = .zero) : listing entry n i fPos = [] := by
  induction n generalizing i with
  | zero => rfl
  | succ n ih =>
    unfold listing
    rw [h i (Nat.le_refl i) (by omega), if_neg SfsFileEntry.zero_not_named]
    apply ih
    intro j hij hj
    exact h j (by omega) (by omega)

/-- The driver mounts the device and finds no file. -/
structure DriverEmpty (κ : Kernel) (dev : Store) (m : Mount) : Prop where
  mounted : Sfs.initBrowsing κ (kzallocInfo dev) = (m, 0)
  table : EmptyTable m.sb m.usedBlocks
  lookup : ∀ fn, (Sfs.sfsLookup κ m fn).2.1 = -1
  list : ∀ {δ : Type} (filldir : δ → Dirent → δ × ℤ) (fPos : ℕ) (d : δ),
    (Sfs.sfsList κ filldir m fPos d).2 = (fPos, d, 0)

theorem driverEmpty_of_mounted {κ : Kernel} (hκ : κ.Reliable) {dev : Store} {m : Mount}
    (hm : Mounted κ m) (h0 : Sfs.initBrowsing κ (kzallocInfo dev) = (m, 0)) :
    DriverEmpty κ dev m := by
  have hf := hm.fresh hκ
  refine ⟨h0, emptyTable hf.volume hf.wf.size rfl, fun fn => ?_, fun filldir fPos d => ?_⟩
  · have hnone := slotOf_empty hf.empty fn
    have hfail : ¬ ∃ i, m.volume.slotOf fn = some i ∧ κ.Scans m (i + 1) := by simp [hnone]
    obtain ⟨c, hc⟩ := Sfs.sfsLookup_fails hκ.toSound hf.wf.geometry hfail
    rw [hc]
  · obtain ⟨c, hc⟩ := sfsList_eq filldir hκ hf.wf.geometry fPos d
    have hnil : listing (entryAt m.dev) m.sb.entryCount.toNat 0 fPos = [] := by
      apply listing_empty
      intro j _ hj
      rw [Nat.zero_add] at hj
      exact hf.empty j hj
    rw [hc, hnil]
    rfl

/-! ### The shell -/

/-- The shell starts on the device and finds no file. -/
structure ShellEmpty (o : OffT) (dev : Store) (s : Shell) : Prop where
  started : main o dev = some s
  table : EmptyTable s.sb s.usedBlocks
  lookup : ∀ fn, (sfsLookup o s fn).2.1 = -1
  list : (sfsList o s).2 = []

theorem sfsListLoop_empty (dev : Store) (n i : ℕ) (out : List Output)
    (h : ∀ j, i ≤ j → j < i + n → entryAt dev j = .zero) :
    (sfsListLoop n ⟨dev, 512 + 64 * i⟩ out).2 = out := by
  induction n generalizing i with
  | zero => rfl
  | succ n ih =>
    unfold sfsListLoop
    rw [readEntry_slot]
    simp only [h i (Nat.le_refl i) (by omega), SfsFileEntry.zero_not_named, ↓reduceIte]
    apply ih
    intro j hij hj
    exact h j (by omega) (by omega)

theorem shellEmpty_of_fresh {o : OffT} {bytes : ℕ} {dev : Store} {s : Shell} (hf : Fresh bytes s)
    (h0 : main o dev = some s) : ShellEmpty o dev s := by
  refine ⟨h0, emptyTable hf.volume hf.size rfl, fun fn => ?_, ?_⟩
  · rw [sfsLookup_absent hf.geometry (slotOf_empty hf.empty fn)]
  · unfold sfsList
    rw [seekTable_eq hf.geometry]
    exact sfsListLoop_empty s.dev _ 0 [] fun j _ hj => hf.empty j (by
      rw [Nat.zero_add] at hj
      exact hj)

/-! ### Formatting -/

/-- Formatting a device of less than `2 ^ 40` bytes. -/
theorem format_empty {size : ℕ} (h512 : 512 ≤ size) (hsize : size < 2 ^ 40) (dev stack : Store) :
    (∀ κ : Kernel, κ.Reliable → ∃ m, DriverEmpty κ (formatRealSfs size dev stack) m) ∧
    (∀ o : OffT, ∃ s, ShellEmpty o (formatRealSfs size dev stack) s) ∧
    ∀ a, 512 * (formatSb size).dataBlockStart.toNat ≤ a →
      formatRealSfs size dev stack a = dev a := by
  have hlt : size / 512 < 2 ^ 31 := by omega
  have hP := formatSb_partitionSize hlt
  have h0 : (formatSb size).partitionSize ≠ 0 := by
    intro hz
    rw [hz, UInt32.toNat_zero] at hP
    omega
  have hP31 : (formatSb size).partitionSize.toNat < 2 ^ 31 := by
    rw [hP]
    exact hlt
  have hg := formatSb_geometry h0 hP31
  have hsb := formatRealSfs_sb size dev stack
  refine ⟨fun κ hκ => ?_, fun o => ?_, (formatRealSfs_dev size dev stack).2.2⟩
  · obtain ⟨mem, hmem⟩ := Option.isSome_iff_exists.mp (hκ.vmalloc _ h0)
    have hinit := Sfs.initBrowsing_eq (m := kzallocInfo (formatRealSfs size dev stack)) hκ hsb hg hmem
    exact ⟨_, driverEmpty_of_mounted hκ ⟨size, dev, stack, hP31, hinit⟩ hinit⟩
  · obtain ⟨s, hmain, _⟩ := main_eq (o := o) hsb hg
    have hstart : Started o size s := ⟨h512, dev, stack, hmain⟩
    exact ⟨s, shellEmpty_of_fresh (hstart.fresh hlt) hmain⟩

/-- A device of ten blocks with arbitrary contents. -/
theorem format_empty_sample :
    (∀ κ : Kernel, κ.Reliable → ∃ m, DriverEmpty κ (formatRealSfs 5120 (fun _ => 9) fun _ => 5) m) ∧
    (∀ o : OffT, ∃ s, ShellEmpty o (formatRealSfs 5120 (fun _ => 9) fun _ => 5) s) ∧
    ∀ a, 512 * (formatSb 5120).dataBlockStart.toNat ≤ a →
      formatRealSfs 5120 (fun _ => 9) (fun _ => 5) a = 9 :=
  format_empty (by decide) (by decide) (fun _ => 9) fun _ => 5

end Linuxpedia.RealFs
