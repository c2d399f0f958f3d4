import Linuxpedia.RealFs.BrowseSpec

/-! What the commands leave alone. A rewritten slot touches no other slot and no
data block, and stored data stay in the blocks taken for them, which lie behind
the entry table. -/

namespace Linuxpedia.RealFs

open Lib Sfs

/-! ### Stored data -/

theorem putData_outside {a : ℕ} (bs : List ℕ) (dev : Store) (input : List UInt8)
    (h : ∀ b ∈ bs, a < 512 * b ∨ 512 * b + 512 ≤ a) : putData dev bs input a = dev a := by
  induction bs generalizing dev input with
  | nil => rfl
  | cons b bs ih =>
    have hb := h b List.mem_cons_self
    unfold putData
    rw [ih _ _ fun c hc => h c (List.mem_cons_of_mem b hc)]
    apply Store.blit_outside
    omega

section Gets

variable {s : Shell} {input : List UInt8} {b : ℕ}

/-- The blocks that a write takes are free data blocks. -/
theorem gets_range (h : b ∈ s.gets input) :
    s.volume.start ≤ b ∧ b < s.usedBlocks.size ∧ s.usedBlocks.cell b = 0 :=
  (Buffer.mem_free _).mp (List.mem_of_mem_take h)

theorem gets_nodup : (s.gets input).Nodup :=
  (s.usedBlocks.free_nodup _).sublist (List.take_sublist _ _)

theorem length_gets : (s.gets input).length = (storedSize 0 s.free input + 511) / 512 :=
  length_storedBlocks

theorem size_filled (i : ℕ) (now : UInt32) :
    (s.filled i input now).size.toNat = storedSize 0 s.free input := by
  have hle : storedSize 0 s.free input ≤ 512 * 9 := storedSize_le
  change (UInt32.ofNat _).toNat = _
  rw [UInt32.toNat_ofNat', Nat.mod_eq_of_lt (by omega)]

/-- The pointers of the entry written: the blocks taken, a torn pointer, old pointers. -/
theorem filled_blocks_cases (i : ℕ) (now : UInt32) (k : Fin 9) :
    (s.filled i input now).blocks k = match (s.gets input)[k.val]? with
      | some b => UInt32.ofNat b
      | none => if Torn 0 s.free input ∧ k.val = s.free.length then UInt32.ofInt (-1)
          else (entryAt s.dev i).blocks k := by
  change (storedEntry _ 0 _ _).blocks k = _
  rw [storedEntry_blocks, if_neg (Nat.not_lt_zero _), Nat.sub_zero, Nat.zero_add]
  rfl

/-- The pointers that the new size covers are the blocks taken. -/
theorem filled_blocks (i : ℕ) (now : UInt32) {k : Fin 9} (hk : k.val < (s.gets input).length) :
    (s.filled i input now).blocks k = UInt32.ofNat ((s.gets input).get ⟨k.val, hk⟩) := by
  rw [filled_blocks_cases, List.getElem?_eq_getElem hk]
  rfl

end Gets

section Taken

variable {s : Shell} {i : ℕ} {input : List UInt8} {b : ℕ}

/-- The blocks taken are free data blocks. -/
theorem taken_range (h : b ∈ s.taken i input) :
    s.volume.start ≤ b ∧ b < s.usedBlocks.size ∧ (s.cleared i).cell b = 0 := by
  have hb := gets_range (s := s.withUsed (s.cleared i)) h
  rw [Shell.withUsed_usedBlocks, Shell.cleared, Buffer.size_clear] at hb
  exact hb

theorem taken_nodup : (s.taken i input).Nodup :=
  gets_nodup (s := s.withUsed (s.cleared i))

theorem length_taken : (s.taken i input).length =
    (storedSize 0 (s.freeFor i) input + 511) / 512 :=
  length_gets (s := s.withUsed (s.cleared i))

theorem size_written (now : UInt32) :
    (s.written i input now).size.toNat = storedSize 0 (s.freeFor i) input :=
  size_filled (s := s.withUsed (s.cleared i)) i now

/-- The pointers that the new size covers are the blocks taken. -/
theorem written_blocks (now : UInt32) {k : Fin 9} (hk : k.val < (s.taken i input).length) :
    (s.written i input now).blocks k = UInt32.ofNat ((s.taken i input).get ⟨k.val, hk⟩) :=
  filled_blocks (s := s.withUsed (s.cleared i)) i now hk

end Taken

/-! ### The device -/

variable {s : Shell}

theorem putSlot_outside (i : ℕ) (fe : SfsFileEntry) {a : ℕ}
    (h : a < 512 + 64 * i ∨ 512 + 64 * i + 64 ≤ a) : (s.putSlot i fe).dev a = s.dev a :=
  Store.blit_outside _ _ h

theorem putSlot_entryAt (i j : ℕ) (fe : SfsFileEntry) :
    entryAt (s.putSlot i fe).dev j = if j = i then fe else entryAt s.dev j :=
  entryAt_blit s.dev i j fe

@[simp] theorem putSlot_entry_self (i : ℕ) (fe : SfsFileEntry) :
    (s.putSlot i fe).volume.entry i = fe :=
  (putSlot_entryAt i i fe).trans (if_pos rfl)

theorem putSlot_entry_ne {i j : ℕ} (hj : j ≠ i) (fe : SfsFileEntry) :
    (s.putSlot i fe).volume.entry j = s.volume.entry j :=
  (putSlot_entryAt i j fe).trans (if_neg hj)

/-- A slot of the table lies in front of the data blocks. -/
theorem slot_lt_start (hg : Geometry s.sb) {j : ℕ} (hj : j < s.volume.count) :
    512 + 64 * j + 64 ≤ 512 * s.volume.start := by
  have ht := hg.table_fits
  have hlt : j < s.sb.entryCount.toNat := hj
  change _ ≤ 512 * s.sb.dataBlockStart.toNat
  omega

theorem fill_entryAt (hg : Geometry s.sb) (i : ℕ) (input : List UInt8) (now : UInt32) {j : ℕ}
    (hj : j < s.volume.count) : entryAt (s.fill i input now).dev j =
      if j = i then s.filled i input now else entryAt s.dev j := by
  have hslot := slot_lt_start hg hj
  rw [Shell.fill, putSlot_entryAt]
  congr 1
  apply SfsFileEntry.ofBytes_congr
  intro l hl
  rw [Store.window_apply, Store.window_apply]
  apply putData_outside
  intro b hb
  have hb := (gets_range hb).1
  omega

/-- A data block that is not taken keeps its bytes. -/
theorem fill_block (hg : Geometry s.sb) {i : ℕ} (hi : i < s.volume.count) (input : List UInt8)
    (now : UInt32) {b r : ℕ} (hb : s.volume.start ≤ b) (hr : r < 512) (hn : b ∉ s.gets input) :
    (s.fill i input now).dev (512 * b + r) = s.dev (512 * b + r) := by
  have hslot := slot_lt_start hg hi
  rw [Shell.fill, putSlot_outside i _ (by omega)]
  apply putData_outside
  intro c hc
  have hne : c ≠ b := by
    rintro rfl
    exact hn hc
  omega

/-- The bytes of the super block stay. -/
theorem fill_superBlock (hg : Geometry s.sb) (i : ℕ) (input : List UInt8) (now : UInt32) {a : ℕ}
    (ha : a < 512) : (s.fill i input now).dev a = s.dev a := by
  have ht := hg.table_fits
  rw [Shell.fill, putSlot_outside i _ (by omega)]
  apply putData_outside
  intro b hb
  have hb : s.sb.dataBlockStart.toNat ≤ b := (gets_range hb).1
  omega

theorem store_entryAt (hg : Geometry s.sb) (i : ℕ) (input : List UInt8) (now : UInt32) {j : ℕ}
    (hj : j < s.volume.count) : entryAt (s.store i input now).dev j =
      if j = i then s.written i input now else entryAt s.dev j :=
  fill_entryAt (s := s.withUsed (s.cleared i)) hg i input now hj

theorem store_entry_self (hg : Geometry s.sb) {i : ℕ} (hi : i < s.volume.count)
    (input : List UInt8) (now : UInt32) :
    (s.store i input now).volume.entry i = s.written i input now :=
  (store_entryAt hg i input now hi).trans (if_pos rfl)

theorem store_entry_ne (hg : Geometry s.sb) {i j : ℕ} (hj : j < s.volume.count) (hne : j ≠ i)
    (input : List UInt8) (now : UInt32) :
    (s.store i input now).volume.entry j = s.volume.entry j :=
  (store_entryAt hg i input now hj).trans (if_neg hne)

theorem store_block (hg : Geometry s.sb) {i : ℕ} (hi : i < s.volume.count) (input : List UInt8)
    (now : UInt32) {b r : ℕ} (hb : s.volume.start ≤ b) (hr : r < 512) (hn : b ∉ s.taken i input) :
    (s.store i input now).dev (512 * b + r) = s.dev (512 * b + r) :=
  fill_block (s := s.withUsed (s.cleared i)) hg hi input now hb hr hn

theorem putSlot_block (hg : Geometry s.sb) {i : ℕ} (hi : i < s.volume.count) (fe : SfsFileEntry)
    {b : ℕ} (r : ℕ) (hb : s.volume.start ≤ b) :
    (s.putSlot i fe).dev (512 * b + r) = s.dev (512 * b + r) := by
  have hslot := slot_lt_start hg hi
  exact putSlot_outside i fe (by omega)

theorem store_superBlock (hg : Geometry s.sb) (i : ℕ) (input : List UInt8) (now : UInt32) {a : ℕ}
    (ha : a < 512) : (s.store i input now).dev a = s.dev a :=
  fill_superBlock (s := s.withUsed (s.cleared i)) hg i input now ha

/-! ### Well-formed shells -/

namespace Shell

/-- A shell on a device that still has the super block the shell read. -/
structure Sound (s : Shell) : Prop extends s.Wf where
  onDevice : SfsSuperBlock.ofBytes s.dev = s.sb

theorem Sound.of_moves {s s' : Shell} (h : s.Sound) (hm : s.Moves s') : s'.Sound := by
  obtain ⟨p, block, rfl⟩ := hm
  exact ⟨⟨h.geometry, h.size⟩, h.onDevice⟩

theorem ofBytes_congr {f g : Store} (h : ∀ a < 512, f a = g a) :
    SfsSuperBlock.ofBytes f = SfsSuperBlock.ofBytes g := by
  have hw : ∀ p, p + 4 ≤ 512 → f.word p = g.word p :=
    fun p hp => Store.word_congr fun k hk => h _ (by omega)
  simp only [SfsSuperBlock.ofBytes, SfsSuperBlock.mk.injEq]
  exact ⟨hw 0 (by omega), hw 4 (by omega), hw 8 (by omega), hw 12 (by omega), hw 16 (by omega),
    hw 20 (by omega), hw 24 (by omega), hw 28 (by omega)⟩

end Shell

theorem Effect.sb_eq {c : Command} {s' : Shell} (h : Effect s c s') : s'.sb = s.sb := by
  cases h <;> rfl

theorem Effect.size_eq {c : Command} {s' : Shell} (h : Effect s c s') :
    s'.usedBlocks.size = s.usedBlocks.size := by
  cases h with
  | stay => rfl
  | create => rfl
  | remove fn i hi => exact s.usedBlocks.size_clear _
  | chperm => rfl
  | write fn stdin now i hi hw =>
    exact ((s.cleared i).size_takes _).trans (s.usedBlocks.size_clear _)

theorem Effect.superBlock (hg : Geometry s.sb) {c : Command} {s' : Shell} (h : Effect s c s')
    {a : ℕ} (ha : a < 512) : s'.dev a = s.dev a := by
  cases h with
  | stay => rfl
  | create fn now i hi hfree hpre => exact putSlot_outside i _ (by omega)
  | remove fn i hi => exact putSlot_outside (s := s.withUsed (s.cleared i)) i _ (by omega)
  | chperm perm fn i perms hi => exact putSlot_outside i _ (by omega)
  | write fn stdin now i hi hw => exact store_superBlock hg i _ now ha

/-- Every command keeps the shell on its device. -/
theorem Effect.sound (hs : s.Sound) {c : Command} {s' : Shell} (h : Effect s c s') :
    s'.Sound := by
  refine ⟨⟨?_, ?_⟩, ?_⟩
  · rw [h.sb_eq]
    exact hs.geometry
  · rw [h.size_eq, h.sb_eq]
    exact hs.size
  · rw [h.sb_eq, ← hs.onDevice]
    exact Shell.ofBytes_congr fun a ha => h.superBlock hs.geometry ha

end Linuxpedia.RealFs
