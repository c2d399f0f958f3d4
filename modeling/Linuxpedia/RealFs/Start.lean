import Linuxpedia.RealFs.Frame

/-! Starting the shell. `init_browsing` rebuilds the allocation table from the
entry table, so quitting and starting again replaces the table by the rebuilt one
and changes nothing else. -/

namespace Linuxpedia.RealFs

open Lib Sfs

variable {o : OffT} {s : Shell}

theorem initBrowsingLoop_eq (dev : Store) (n i : ℕ) (t : Buffer) :
    initBrowsingLoop n ⟨dev, 512 + 64 * i⟩ t =
      (⟨dev, 512 + 64 * (i + n)⟩, markSlots (entryAt dev) n i t) := by
  induction n generalizing i t with
  | zero => rfl
  | succ n ih =>
    unfold initBrowsingLoop
    rw [readEntry_slot]
    simp only
    rw [ih (i + 1), Nat.add_assoc i 1 n, Nat.add_comm 1 n]
    rfl

/-- The memory of `calloc` with the blocks in front of the data marked. -/
theorem calloc_eq {size start : ℕ} (h : start ≤ size) (hs : size ≤ 2 ^ 31) :
    Buffer.fill 1 start 0 ⟨size, fun _ => 0, false⟩ = freshTable size start fun _ => 0 := by
  rw [freshTable_ok h hs, Buffer.fill_ok _ 1 _ _ (by simpa using h) hs]
  congr 1
  funext j
  by_cases hj : j < start
  · simp [hj]
  · simp [hj]

/-- The allocation table that `init_browsing` makes for the device. -/
def Shell.rebuilt (s : Shell) : Buffer :=
  markSlots (entryAt s.dev) s.sb.entryCount.toNat 0
    (freshTable s.sb.partitionSize.toNat s.sb.dataBlockStart.toNat fun _ => 0)

theorem Shell.Wf.rebuilt_eq (h : s.Wf) : s.rebuilt = s.volume.rebuild fun _ => 0 := by
  unfold Shell.rebuilt
  rw [← h.size]
  rfl

theorem Shell.size_rebuilt (s : Shell) : s.rebuilt.size = s.sb.partitionSize.toNat := by
  unfold Shell.rebuilt
  rw [size_markSlots, size_freshTable]

theorem initBrowsing_moves (hg : Geometry s.sb) :
    (s.withUsed s.rebuilt).Moves (initBrowsing o s) := by
  have hloop := initBrowsingLoop_eq s.dev s.sb.entryCount.toNat 0
    (freshTable s.sb.partitionSize.toNat s.sb.dataBlockStart.toNat fun _ => 0)
  rw [Nat.mul_zero, Nat.add_zero] at hloop
  unfold initBrowsing
  rw [seekTable_eq hg]
  simp only [Shell.moved, calloc_eq hg.start_le hg.small.le]
  rw [hloop]
  exact ⟨_, s.block, rfl⟩

/-- Starting on a device with the formatter's layout. -/
theorem main_eq {dev : Store} {sb : SfsSuperBlock} (hsb : SfsSuperBlock.ofBytes dev = sb)
    (hg : Geometry sb) :
    ∃ s, main o dev = some s ∧ s.dev = dev ∧ s.sb = sb ∧ s.usedBlocks = s.rebuilt := by
  have hread : SfsSuperBlock.ofBytes (dev.window 0) = sb := by
    rw [← hsb]
    exact Shell.ofBytes_congr fun a _ => by rw [Store.window_apply, Nat.zero_add]
  set s₀ : Shell := ⟨⟨dev, 512⟩, sb, ⟨0, fun _ => 0, false⟩, fun _ => 0⟩
  obtain ⟨p, block, hinit⟩ := initBrowsing_moves (o := o) (s := s₀) hg
  refine ⟨(s₀.withUsed s₀.rebuilt).moved p block, ?_, rfl, rfl, rfl⟩
  rw [← hinit]
  unfold main
  simp only [Handle.read, hread, hg.type_eq, ne_eq, not_true_eq_false, ↓reduceIte]
  rfl

theorem Shell.moves_of {s s' : Shell} (hdev : s'.dev = s.dev) (hsb : s'.sb = s.sb)
    (hused : s'.usedBlocks = s.usedBlocks) : s.Moves s' := by
  refine ⟨s'.pos, s'.block, ?_⟩
  unfold Shell.moved
  rw [← hdev, ← hsb, ← hused]

/-- Quitting and starting again. -/
theorem restart_moves (hs : s.Sound) : (s.withUsed s.rebuilt).Moves (restart o s) := by
  obtain ⟨s', hmain, hdev, hsb, hused⟩ := main_eq (o := o) hs.onDevice hs.geometry
  have hr : restart o s = s' := by
    unfold restart
    rw [hmain]
    rfl
  have hrebuilt : s'.rebuilt = s.rebuilt := by
    unfold Shell.rebuilt
    rw [hdev, hsb]
  rw [hr]
  exact Shell.moves_of hdev hsb (hused.trans hrebuilt)

/-! ### A formatted partition -/

/-- The shell was just started on a partition of `bytes` bytes that the formatter
made, large enough for its super block. -/
def Started (o : OffT) (bytes : ℕ) (s : Shell) : Prop :=
  512 ≤ bytes ∧ ∃ dev stack, main o (formatRealSfs bytes dev stack) = some s

theorem formatSb_partitionSize {bytes : ℕ} (h : bytes / 512 < 2 ^ 31) :
    (formatSb bytes).partitionSize.toNat = bytes / 512 := by
  change (UInt32.ofNat (bytes / 512)).toNat = _
  rw [UInt32.toNat_ofNat', Nat.mod_eq_of_lt (by omega)]

theorem formatSb_small {bytes : ℕ} (h512 : 512 ≤ bytes) (hsize : bytes / 512 < 2 ^ 31) :
    (formatSb bytes).partitionSize ≠ 0 ∧ (formatSb bytes).partitionSize.toNat < 2 ^ 31 := by
  have hP := formatSb_partitionSize hsize
  constructor
  · intro hz
    rw [hz] at hP
    change 0 = bytes / 512 at hP
    omega
  · rw [hP]
    exact hsize

/-- A started shell has the formatter's layout and an empty table. -/
structure Fresh (bytes : ℕ) (s : Shell) : Prop extends s.Sound where
  partition : s.sb.partitionSize.toNat = bytes / 512
  empty : ∀ i < s.volume.count, entryAt s.dev i = .zero
  used : s.usedBlocks = s.rebuilt

theorem Fresh.volume {bytes : ℕ} (h : Fresh bytes s) : s.volume.Fresh where
  start_le := h.toWf.start_le
  small := h.toWf.size_le
  empty := h.empty
  used := ⟨fun _ => 0, h.used.trans h.toWf.rebuilt_eq⟩

theorem Started.fresh {bytes : ℕ} (hsize : bytes / 512 < 2 ^ 31) (h : Started o bytes s) :
    Fresh bytes s := by
  obtain ⟨h512, dev, stack, hmain⟩ := h
  have hP := formatSb_partitionSize hsize
  obtain ⟨h0, hP31⟩ := formatSb_small h512 hsize
  have hg := formatSb_geometry h0 hP31
  obtain ⟨s', hmain', hdev, hsb, hused⟩ := main_eq (o := o) (formatRealSfs_sb bytes dev stack) hg
  obtain rfl : s' = s := Option.some.inj (hmain'.symm.trans hmain)
  have hempty : ∀ i < s'.volume.count, entryAt s'.dev i = .zero := by
    intro i hi
    change i < s'.sb.entryCount.toNat at hi
    rw [hsb] at hi
    rw [hdev]
    exact entryAt_formatRealSfs bytes dev stack h0 hP31 hi
  refine ⟨⟨⟨?_, ?_⟩, ?_⟩, ?_, hempty, hused⟩
  · rw [hsb]
    exact hg
  · rw [hused]
    exact s'.size_rebuilt
  · rw [hdev, hsb]
    exact formatRealSfs_sb bytes dev stack
  · rw [hsb]
    exact hP

/-! ### A small partition -/

/-- The shell started on ten blocks: eight slots, data blocks 2 to 9. -/
def sampleShell : Shell :=
  (main .bits32 (formatRealSfs 5120 (fun _ => 9) fun _ => 5)).getD
    ⟨⟨fun _ => 0, 0⟩, .ofBytes fun _ => 0, ⟨0, fun _ => 0, false⟩, fun _ => 0⟩

theorem sampleShell_started : Started .bits32 5120 sampleShell := by
  have hg : Geometry (formatSb 5120) := formatSb_geometry (by decide) (by decide)
  obtain ⟨s, hmain, _⟩ := main_eq (o := .bits32)
    (formatRealSfs_sb 5120 (fun _ => 9) fun _ => 5) hg
  have hs : sampleShell = s := by
    unfold sampleShell
    rw [hmain]
    rfl
  exact ⟨by decide, fun _ => 9, fun _ => 5, hmain.trans (congrArg some hs.symm)⟩

end Linuxpedia.RealFs
