import Linuxpedia.RealFs.Start

/-! What `sfs_read` prints. As long as the pointers that a size covers are data
blocks, it prints the bytes of these blocks cut to the size. Every write of the
shell leaves an entry of this kind, whatever is left of the old pointers behind. -/

namespace Linuxpedia.RealFs

open Lib Sfs

variable {o : OffT} {s : Shell}

/-- `n` bytes from the listed blocks. -/
def contents (dev : Store) : List UInt32 → ℕ → List UInt8
  | [], _ => []
  | b :: bs, n => (dev.window (512 * b.toNat)).bytes (min 512 n) ++ contents dev bs (n - 512)

@[simp] theorem contents_zero (dev : Store) (bs : List UInt32) : contents dev bs 0 = [] := by
  induction bs with
  | nil => rfl
  | cons b bs ih =>
    unfold contents
    rw [Nat.zero_sub, ih]
    rfl

/-- They are the bytes of whole blocks cut to `n`. -/
theorem contents_eq_take (dev : Store) (bs : List UInt32) (n : ℕ)
    (h : (n + 511) / 512 ≤ bs.length) : contents dev bs n =
      ((bs.take ((n + 511) / 512)).flatMap
        fun b => (dev.window (512 * b.toNat)).bytes 512).take n := by
  induction bs generalizing n with
  | nil =>
    rw [List.length_nil] at h
    obtain rfl : n = 0 := by omega
    rfl
  | cons b bs ih =>
    by_cases hn : n = 0
    · subst hn
      simp
    · have hcount : (n + 511) / 512 = (n - 512 + 511) / 512 + 1 := by omega
      rw [List.length_cons] at h
      unfold contents
      rw [hcount, List.take_succ_cons, List.flatMap_cons, ih (n - 512) (by omega),
        List.take_append, Store.length_bytes]
      congr 1
      simp only [Store.bytes, ← List.map_take, List.take_range]
      rw [Nat.min_comm]

theorem contents_congr {dev dev' : Store} (bs : List UInt32) (n : ℕ)
    (h : ∀ b ∈ bs.take ((n + 511) / 512), ∀ r < 512,
      dev' (512 * b.toNat + r) = dev (512 * b.toNat + r)) :
    contents dev' bs n = contents dev bs n := by
  induction bs generalizing n with
  | nil => rfl
  | cons b bs ih =>
    by_cases hn : n = 0
    · subst hn
      rw [contents_zero, contents_zero]
    · have hcount : (n + 511) / 512 = (n - 512 + 511) / 512 + 1 := by omega
      rw [hcount, List.take_succ_cons] at h
      unfold contents
      rw [ih (n - 512) fun c hc => h c (List.mem_cons_of_mem b hc)]
      congr 1
      apply Store.bytes_congr
      intro r hr
      exact h b List.mem_cons_self r (by omega)

/-- One turn of the loop of `sfs_read`. -/
theorem readBlock_bytes (hg : Geometry s.sb) {b : UInt32} (n : ℕ) (hb : n ≠ 0 → b.toNat < 2 ^ 22) :
    ((s.seekSet o (b * s.sb.blockSize)).readBlock n).block.bytes n =
      (s.dev.window (512 * b.toNat)).bytes n := by
  by_cases hn : n = 0
  · subst hn
    rfl
  · rw [seekBlock_eq hg (hb hn)]
    apply Store.bytes_congr
    intro i hi
    have hblit := Store.blit_inside s.block (s.dev.window (512 * b.toNat)) (o := 0) hi
    rw [Nat.zero_add] at hblit
    exact hblit

/-- The loop prints the contents of the blocks that the size covers. -/
theorem sfsReadLoop_out (bs : List UInt32) (s : Shell) (remToRead : UInt32) (out : List UInt8)
    (hg : Geometry s.sb)
    (hb : ∀ b ∈ bs.take ((remToRead.toNat + 511) / 512), b ≠ 0 ∧ b.toNat < 2 ^ 22) :
    (sfsReadLoop o bs s remToRead out).2 = out ++ contents s.dev bs remToRead.toNat := by
  induction bs generalizing s remToRead out with
  | nil => exact (List.append_nil out).symm
  | cons b bs ih =>
    have hbs : s.sb.blockSize = 512 := hg.blockSize_eq
    set toRead : UInt32 := if remToRead ≥ s.sb.blockSize then s.sb.blockSize else remToRead
      with htoRead
    have hmin : toRead.toNat = min 512 remToRead.toNat := by
      rw [htoRead, hbs]
      split_ifs with h
      · have h512 : (512 : ℕ) ≤ remToRead.toNat := UInt32.le_iff_toNat_le.mp h
        exact (Nat.min_eq_left h512).symm
      · have h512 : ¬ (512 : ℕ) ≤ remToRead.toNat := fun hle => h (UInt32.le_iff_toNat_le.mpr hle)
        exact (Nat.min_eq_right (by omega)).symm
    have hrem : (remToRead - toRead).toNat = remToRead.toNat - 512 := by
      rw [UInt32.toNat_sub_of_le _ _ (UInt32.le_iff_toNat_le.mpr (by omega)), hmin]
      omega
    have hhead : remToRead.toNat ≠ 0 → b ≠ 0 ∧ b.toNat < 2 ^ 22 := by
      intro hne
      apply hb
      rw [show (remToRead.toNat + 511) / 512 = (remToRead.toNat - 1) / 512 + 1 by omega,
        List.take_succ_cons]
      exact List.mem_cons_self
    by_cases hz : b = 0
    · have h0 : remToRead.toNat = 0 := by
        by_contra hne
        exact (hhead hne).1 hz
      unfold sfsReadLoop
      rw [if_pos hz, h0, contents_zero, List.append_nil]
    · have hbytes := readBlock_bytes (o := o) hg toRead.toNat fun hne => (hhead (by omega)).2
      unfold sfsReadLoop
      rw [if_neg hz]
      simp only [← htoRead]
      rw [hbytes, hmin, contents, ← hrem, ← List.append_assoc]
      split_ifs with hdone
      · rw [hdone]
        exact (List.append_nil _).symm.trans (by rw [UInt32.toNat_zero, contents_zero])
      · have hdev : ((s.seekSet o (b * s.sb.blockSize)).readBlock (min 512 remToRead.toNat)).dev =
            s.dev := s.toHandle.seekSet_dev o _
        rw [← hdev]
        apply ih
        · exact hg
        · intro c hc
          apply hb
          by_cases h0 : remToRead.toNat ≤ 512
          · rw [hrem, show (remToRead.toNat - 512 + 511) / 512 = 0 by omega] at hc
            exact absurd hc (by simp)
          · rw [hrem] at hc
            rw [show (remToRead.toNat + 511) / 512 = (remToRead.toNat - 512 + 511) / 512 + 1 by omega,
              List.take_succ_cons]
            exact List.mem_cons_of_mem b hc

/-! ### Files -/

/-- The pointers of a file that its size covers. -/
theorem mem_take_blocks {fe : SfsFileEntry} {b : UInt32}
    (h : b ∈ (List.ofFn fe.blocks).take ((fe.size.toNat + 511) / 512)) :
    ∃ k : Fin 9, 512 * k.val < fe.size.toNat ∧ fe.blocks k = b := by
  obtain ⟨j, hj, rfl⟩ := List.mem_take_iff_getElem.mp h
  rw [List.length_ofFn] at hj
  exact ⟨⟨j, by omega⟩, by simp only; omega, by rw [List.getElem_ofFn]⟩

/-- What `sfs_read` prints. -/
def Shell.reading (s : Shell) (fn : List UInt8) : List Output :=
  match s.volume.slotOf fn with
  | none => [.text "File %s doesn't exist\n" fn]
  | some i =>
    if (s.volume.entry i).perms &&& 4 = 0 then
      [.text "File %s doesn't have read permissions\n" fn]
    else [.data (contents s.dev (List.ofFn (s.volume.entry i).blocks)
      (s.volume.entry i).size.toNat)]

/-- Reading a readable file whose size covers blocks below `2 ^ 22`. -/
theorem sfsRead_data (hg : Geometry s.sb) {fn : List UInt8} {i : ℕ}
    (hi : s.volume.slotOf fn = some i) (hp : (s.volume.entry i).perms &&& 4 ≠ 0)
    (hb : ∀ k : Fin 9, 512 * k.val < (s.volume.entry i).size.toNat →
      (s.volume.entry i).blocks k ≠ 0 ∧ ((s.volume.entry i).blocks k).toNat < 2 ^ 22) :
    (sfsRead o s fn).2 = [.data (contents s.dev (List.ofFn (s.volume.entry i).blocks)
      (s.volume.entry i).size.toNat)] := by
  have hp : ¬ (entryAt s.dev i).perms &&& 4 = 0 := hp
  unfold sfsRead
  rw [sfsLookup_found hg hi]
  simp only [show ¬ (i : ℤ) = -1 by omega, ↓reduceIte]
  rw [if_neg hp]
  have hout := sfsReadLoop_out (o := o) (List.ofFn (entryAt s.dev i).blocks)
    (s.moved (512 + 64 * (i + 1)) s.block) (entryAt s.dev i).size [] hg (by
      intro b hmem
      obtain ⟨k, hk, rfl⟩ := mem_take_blocks hmem
      exact hb k hk)
  rw [List.nil_append] at hout
  exact congrArg (fun out => [Output.data out]) hout

theorem sfsRead_out (hs : s.Wf) (hP : s.sb.partitionSize.toNat ≤ 2 ^ 22) (hz : s.volume.Sized)
    (fn : List UInt8) : (sfsRead o s fn).2 = s.reading fn := by
  unfold Shell.reading
  cases hi : s.volume.slotOf fn with
  | none =>
    unfold sfsRead
    rw [sfsLookup_absent hs.geometry hi]
    rfl
  | some i =>
    by_cases hp : (s.volume.entry i).perms &&& 4 = 0
    · have hp' : (entryAt s.dev i).perms &&& 4 = 0 := hp
      unfold sfsRead
      rw [sfsLookup_found hs.geometry hi]
      simp only [show ¬ (i : ℤ) = -1 by omega, ↓reduceIte]
      rw [if_pos hp', if_pos hp]
    · simp only
      rw [if_neg hp]
      apply sfsRead_data hs.geometry hi hp
      intro k hk
      obtain ⟨hlo, hhi⟩ := (hz i (Volume.live_of_slotOf hi)).2 k hk
      have hstart := hs.start_pos
      have hsize : s.volume.used.size = s.sb.partitionSize.toNat := hs.size
      constructor
      · intro h0
        rw [h0, UInt32.toNat_zero] at hlo
        omega
      · omega

/-- On a small partition every seek arrives. -/
theorem reaches_of_small (hs : s.Wf) (hP : s.sb.partitionSize.toNat ≤ 2 ^ 22) (c : Command) :
    c.Reaches s := by
  have hslot : ∀ fn i, s.volume.slotOf fn = some i → 512 + 64 * i < 2 ^ 31 := by
    intro fn i hi
    have hlt := slot_lt_start hs.geometry (Volume.slotOf_eq_some.mp hi).1
    have hle := hs.geometry.start_le
    change _ ≤ 512 * s.sb.dataBlockStart.toNat at hlt
    omega
  cases c with
  | remove fn => exact hslot fn
  | chperm perm fn => exact hslot fn
  | write fn stdin now =>
    intro i hi _
    refine ⟨hslot fn i hi, fun b hb => ?_⟩
    have hlt := (taken_range hb).2.1
    rw [hs.size] at hlt
    omega
  | list => trivial
  | create fn now => trivial
  | read fn => trivial

/-! ### Sizes -/

theorem Effect.count_eq {c : Command} {s' : Shell} (h : Effect s c s') :
    s'.volume.count = s.volume.count := by
  change s'.sb.entryCount.toNat = s.sb.entryCount.toNat
  rw [h.sb_eq]

theorem Effect.start_eq {c : Command} {s' : Shell} (h : Effect s c s') :
    s'.volume.start = s.volume.start := by
  change s'.sb.dataBlockStart.toNat = s.sb.dataBlockStart.toNat
  rw [h.sb_eq]

/-- The entry of slot `i` covers data blocks only. -/
def Shell.SizedSlot (s : Shell) (fe : SfsFileEntry) : Prop := fe.size.toNat ≤ 512 * 9 ∧
  ∀ k : Fin 9, 512 * k.val < fe.size.toNat →
    s.volume.start ≤ (fe.blocks k).toNat ∧ (fe.blocks k).toNat < s.usedBlocks.size

theorem sizedSlot_fresh (fn : List UInt8) (now perms : UInt32) :
    s.SizedSlot (.fresh fn now perms) := by
  refine ⟨Nat.zero_le _, fun k hk => ?_⟩
  exact absurd hk (Nat.not_lt_zero _)

/-- What a write leaves covers the blocks it took. -/
theorem covered_lt_gets {i : ℕ} {input : List UInt8} {now : UInt32} {k : Fin 9}
    (hk : 512 * k.val < (s.filled i input now).size.toNat) : k.val < (s.gets input).length := by
  rw [size_filled] at hk
  rw [length_gets]
  omega

/-- The pointers covered after a write, as block numbers. -/
theorem filled_block_toNat (hs : s.Wf) {i : ℕ} {input : List UInt8} {now : UInt32} {k : Fin 9}
    (hk : 512 * k.val < (s.filled i input now).size.toNat) :
    ((s.filled i input now).blocks k).toNat = (s.gets input).get ⟨k.val, covered_lt_gets hk⟩ := by
  have hlt := (gets_range ((s.gets input).get_mem ⟨k.val, covered_lt_gets hk⟩)).2.1
  have hle := hs.size_le
  rw [filled_blocks i now (covered_lt_gets hk), UInt32.toNat_ofNat', Nat.mod_eq_of_lt (by omega)]

theorem sizedSlot_filled (hs : s.Wf) (i : ℕ) (input : List UInt8) (now : UInt32) :
    s.SizedSlot (s.filled i input now) := by
  constructor
  · rw [size_filled]
    exact storedSize_le
  · intro k hk
    have hr := gets_range ((s.gets input).get_mem ⟨k.val, covered_lt_gets hk⟩)
    rw [filled_block_toNat hs hk]
    exact ⟨hr.1, hr.2.1⟩

theorem covered_lt_taken {i : ℕ} {input : List UInt8} {now : UInt32} {k : Fin 9}
    (hk : 512 * k.val < (s.written i input now).size.toNat) :
    k.val < (s.taken i input).length :=
  covered_lt_gets (s := s.withUsed (s.cleared i)) hk

theorem written_block_toNat (hs : s.Wf) {i : ℕ} {input : List UInt8} {now : UInt32} {k : Fin 9}
    (hk : 512 * k.val < (s.written i input now).size.toNat) :
    ((s.written i input now).blocks k).toNat =
      (s.taken i input).get ⟨k.val, covered_lt_taken hk⟩ :=
  filled_block_toNat (hs.cleared i) hk

theorem sizedSlot_written (hs : s.Wf) (i : ℕ) (input : List UInt8) (now : UInt32) :
    s.SizedSlot (s.written i input now) := by
  have h := sizedSlot_filled (hs.cleared i) i input now
  unfold Shell.SizedSlot at h
  rw [Shell.withUsed_usedBlocks, Shell.cleared, Buffer.size_clear] at h
  exact h

/-- Every command leaves files whose sizes cover data blocks. -/
theorem Effect.sized (hs : s.Wf) (hz : s.volume.Sized) {c : Command} {s' : Shell}
    (h : Effect s c s') : s'.volume.Sized := by
  have hput : ∀ (i : ℕ) (fe : SfsFileEntry), (fe.Named → s.SizedSlot fe) →
      (∀ j < s.volume.count, s'.volume.entry j = if j = i then fe else s.volume.entry j) →
      s'.volume.Sized := by
    intro i fe hfe he j hj
    have hlt : j < s.volume.count := h.count_eq ▸ hj.1
    have hsize : s'.volume.used.size = s.volume.used.size := h.size_eq
    have hn := hj.2
    rw [he j hlt] at hn
    rw [he j hlt, h.start_eq, hsize]
    split_ifs at hn ⊢ with hji
    · exact hfe hn
    · exact hz j ⟨hlt, hn⟩
  cases h with
  | stay => exact hz
  | create fn now i hi hfree hpre =>
    exact hput i _ (fun _ => sizedSlot_fresh fn now 7) fun j _ => putSlot_entryAt i j _
  | remove fn i hi =>
    exact hput i _ (fun hn => absurd hn SfsFileEntry.zero_not_named) fun j _ =>
      putSlot_entryAt (s := s.withUsed (s.cleared i)) i j _
  | chperm perm fn i perms hi =>
    exact hput i { s.volume.entry i with perms := perms }
      (fun _ => hz i (Volume.live_of_slotOf hi)) fun j _ => putSlot_entryAt i j _
  | write fn stdin now i hi hw =>
    exact hput i _ (fun _ => sizedSlot_written hs i _ now) fun j hj =>
      store_entryAt hs.geometry i _ now hj

theorem Fresh.sized {bytes : ℕ} (h : Fresh bytes s) : s.volume.Sized := by
  intro i hi
  have hn := hi.2
  change (entryAt s.dev i).Named at hn
  rw [h.empty i hi.1] at hn
  exact absurd hn SfsFileEntry.zero_not_named

/-- The invariant of every run: the layout, a small partition, and sizes that cover
data blocks. -/
structure Orderly (s : Shell) : Prop extends s.Sound where
  small : s.sb.partitionSize.toNat ≤ 2 ^ 22
  sized : s.volume.Sized

theorem Orderly.of_moves {s' : Shell} (h : Orderly s) (hm : s.Moves s') : Orderly s' := by
  have hs := h.toSound.of_moves hm
  obtain ⟨p, block, rfl⟩ := hm
  exact ⟨hs, h.small, h.sized⟩

theorem Orderly.command (h : Orderly s) (c : Command) : Orderly (step .bits32 s c) := by
  obtain ⟨s', he, hm⟩ := step_effect h.toWf c (reaches_of_small h.toWf h.small c)
  refine Orderly.of_moves ⟨he.sound h.toSound, ?_, he.sized h.toWf h.sized⟩ hm
  rw [he.sb_eq]
  exact h.small

/-- The table that a start builds has the same size. -/
theorem Orderly.rebuilt (h : Orderly s) : Orderly (s.withUsed s.rebuilt) := by
  refine ⟨⟨⟨h.geometry, s.size_rebuilt⟩, h.onDevice⟩, h.small, ?_⟩
  have hsize : s.rebuilt.size = s.usedBlocks.size := s.size_rebuilt.trans h.size.symm
  intro i hi
  obtain ⟨hle, hb⟩ := h.sized i hi
  refine ⟨hle, fun k hk => ⟨(hb k hk).1, ?_⟩⟩
  change _ < s.rebuilt.size
  rw [hsize]
  exact (hb k hk).2

theorem Orderly.restart (h : Orderly s) : Orderly (restart .bits32 s) :=
  h.rebuilt.of_moves (restart_moves h.toSound)

theorem Fresh.orderly {bytes : ℕ} (h : Fresh bytes s) (hP : bytes / 512 ≤ 2 ^ 22) : Orderly s :=
  ⟨h.toSound, h.partition ▸ hP, h.sized⟩

end Linuxpedia.RealFs
