import Linuxpedia.RealFs.Contents

/-! Writing a file and reading it again. The number of bytes stored is bounded by
the nine pointers and by the blocks that are free once the old ones of the file
are released, and `sfs_read` prints just these bytes, in whatever pieces they
arrived. Searches compare strings, so this needs a name that ends within its 16
bytes: another one runs on into the size that the write changes. -/

namespace Linuxpedia.RealFs

open Lib Sfs

variable {o : OffT} {s : Shell}

/-- The data stored in distinct blocks are read back. -/
theorem contents_putData (bs : List ℕ) (rest : List UInt32) (dev : Store) (input : List UInt8)
    (n : ℕ) (hnd : bs.Nodup) (hb : ∀ b ∈ bs, b < 2 ^ 32) (hn : n ≤ input.length)
    (hlen : n ≤ 512 * bs.length) :
    contents (putData dev bs input) (bs.map UInt32.ofNat ++ rest) n = input.take n := by
  induction bs generalizing dev input n with
  | nil =>
    obtain rfl : n = 0 := by simpa using hlen
    rw [contents_zero, List.take_zero]
  | cons b bs ih =>
    obtain ⟨hb', hnd'⟩ := List.nodup_cons.mp hnd
    have hw : (UInt32.ofNat b).toNat = b := by
      rw [UInt32.toNat_ofNat', Nat.mod_eq_of_lt (hb b List.mem_cons_self)]
    rw [List.length_cons] at hlen
    have hhead : ((putData dev (b :: bs) input).window (512 * b)).bytes (min 512 n) =
        input.take (min 512 n) := by
      apply Store.bytes_of_list _ _ (by omega)
      intro r hr
      unfold putData
      rw [Store.window_apply, putData_outside]
      · exact Store.blit_inside _ _ (by omega)
      · intro c hc
        have hne : c ≠ b := fun h => hb' (h ▸ hc)
        omega
    have htail : contents (putData dev (b :: bs) input) (bs.map UInt32.ofNat ++ rest) (n - 512) =
        (input.drop 512).take (n - 512) := by
      apply ih _ _ _ hnd' fun c hc => hb c (List.mem_cons_of_mem b hc)
      · rw [List.length_drop]
        omega
      · omega
    rw [List.map_cons, List.cons_append, contents, hw, hhead, htail]
    by_cases h : n ≤ 512
    · rw [Nat.sub_eq_zero_of_le h, List.take_zero, List.append_nil, Nat.min_eq_right h]
    · rw [Nat.min_eq_left (by omega), ← List.take_add, Nat.add_sub_cancel' (by omega)]

/-- The data blocks that are free once the pointers of the entry are released. -/
def Shell.freeWithout (s : Shell) (fe : SfsFileEntry) : ℕ :=
  ((List.range' s.sb.dataBlockStart.toNat
    (s.sb.partitionSize.toNat - s.sb.dataBlockStart.toNat)).filter fun b =>
      s.usedBlocks.cell b = 0 ∨ b ∈ fe.prefixPtrs.map UInt32.toNat).length

theorem length_freeFor (hs : s.Wf) {i : ℕ}
    (hp : ∀ b ∈ (entryAt s.dev i).prefixPtrs, b.toNat < s.usedBlocks.size) :
    (s.freeFor i).length = s.freeWithout (entryAt s.dev i) := by
  unfold Shell.freeFor Shell.cleared Shell.freeWithout Buffer.free
  rw [s.usedBlocks.clear_ok _ hs.size_le hp, hs.size]
  congr 1
  apply List.filter_congr
  intro b _
  by_cases hb : b ∈ (entryAt s.dev i).prefixPtrs.map UInt32.toNat
  · simp only [hb, if_true, or_true]
  · simp only [hb, if_false, or_false]

/-- A terminated name is found in the slot it was in after a write. -/
theorem slotOf_store (hs : s.Wf) {fn : List UInt8} {i : ℕ} (hi : s.volume.slotOf fn = some i)
    {l : Fin 16} (h0 : (entryAt s.dev i).name l = 0) (input : List UInt8) (now : UInt32) :
    (s.store i input now).volume.slotOf fn = some i := by
  have hname : (s.written i input now).cname = (entryAt s.dev i).cname :=
    SfsFileEntry.cname_congr rfl h0
  have hcount : (s.store i input now).volume.count = s.volume.count := rfl
  rw [← hi]
  apply Volume.slotOf_congr hcount
  intro j hj
  rw [show (s.store i input now).volume.entry j = _ from store_entryAt hs.geometry i input now hj]
  split_ifs with hji
  · subst hji
    rw [hname]
    exact Iff.rfl
  · exact Iff.rfl

/-- The pointers of the entry written begin with the blocks taken. -/
theorem take_written_blocks (i : ℕ) (input : List UInt8) (now : UInt32) :
    (List.ofFn (s.written i input now).blocks).take (s.taken i input).length =
      (s.taken i input).map UInt32.ofNat := by
  have hle : storedSize 0 (s.freeFor i) input ≤ 512 * 9 := storedSize_le
  have hlen : (s.taken i input).length = (storedSize 0 (s.freeFor i) input + 511) / 512 :=
    length_taken
  apply List.ext_getElem
  · rw [List.length_take, List.length_ofFn, List.length_map]
    omega
  · intro k hk hk'
    rw [List.length_map] at hk'
    rw [List.getElem_take, List.getElem_ofFn, List.getElem_map]
    exact written_blocks now (k := ⟨k, by omega⟩) hk'

/-- What is read from the blocks of the entry written. -/
theorem contents_store (hs : s.Wf) {i : ℕ} (hi : i < s.volume.count) (input : List UInt8)
    (now : UInt32) : contents (s.store i input now).dev
      (List.ofFn (s.written i input now).blocks) (storedSize 0 (s.freeFor i) input) =
        input.take (storedSize 0 (s.freeFor i) input) := by
  have hlen : (s.taken i input).length = (storedSize 0 (s.freeFor i) input + 511) / 512 :=
    length_taken
  have hsplit := List.take_append_drop (s.taken i input).length
    (List.ofFn (s.written i input now).blocks)
  rw [take_written_blocks] at hsplit
  have hslot := slot_lt_start hs.geometry hi
  have hrange : ∀ b ∈ s.taken i input, s.volume.start ≤ b ∧ b < 2 ^ 32 := by
    intro b hb
    have hr := taken_range hb
    have hle := hs.size_le
    exact ⟨hr.1, by omega⟩
  have hdata : contents (s.store i input now).dev (List.ofFn (s.written i input now).blocks)
      (storedSize 0 (s.freeFor i) input) =
      contents (putData s.dev (s.taken i input) input)
        (List.ofFn (s.written i input now).blocks) (storedSize 0 (s.freeFor i) input) := by
    apply contents_congr
    intro b hb r hr
    rw [← hlen, take_written_blocks] at hb
    obtain ⟨c, hc, rfl⟩ := List.mem_map.mp hb
    have hw : (UInt32.ofNat c).toNat = c := by
      rw [UInt32.toNat_ofNat', Nat.mod_eq_of_lt (hrange c hc).2]
    have hstart := (hrange c hc).1
    rw [hw]
    exact putSlot_outside i _ (by omega)
  rw [hdata, ← hsplit]
  apply contents_putData _ _ _ _ _ taken_nodup fun b hb => (hrange b hb).2
  · unfold storedSize
    omega
  · omega

/-- The next `sfs_read` prints the bytes stored. -/
theorem sfsRead_store (hs : s.Wf) (hP : s.sb.partitionSize.toNat ≤ 2 ^ 22) {fn : List UInt8}
    {i : ℕ} (hi : s.volume.slotOf fn = some i) (hr : (s.volume.entry i).perms &&& 4 ≠ 0)
    {l : Fin 16} (h0 : (s.volume.entry i).name l = 0) (input : List UInt8) (now : UInt32)
    {t : Shell} (hm : (s.store i input now).Moves t) :
    (sfsRead o t fn).2 = [.data (input.take (storedSize 0 (s.freeFor i) input))] := by
  obtain ⟨p, block, rfl⟩ := hm
  have hlt := (Volume.slotOf_eq_some.mp hi).1
  have hentry : ((s.store i input now).moved p block).volume.entry i = s.written i input now :=
    store_entry_self hs.geometry hlt input now
  have hread := sfsRead_data (o := o) (s := (s.store i input now).moved p block) hs.geometry
    (slotOf_store hs hi h0 input now)
  rw [hentry, size_written] at hread
  rw [← contents_store hs hlt input now]
  apply hread hr
  intro k hk
  rw [← size_written now] at hk
  have hval := written_block_toNat hs hk
  have hrange := taken_range ((s.taken i input).get_mem ⟨k.val, covered_lt_taken hk⟩)
  have hpos := hs.start_pos
  have hlen := hs.size
  constructor
  · intro hz
    rw [hz, UInt32.toNat_zero] at hval
    omega
  · omega

/-- `sfs_write` stores as much of the input as there is room for, the same for every
way the input is split, and `sfs_read` prints it. -/
def Shell.RoundTrips (o : OffT) (s : Shell) (fn : List UInt8) (i : ℕ) (input : List UInt8)
    (now : UInt32) : Prop :=
  ∃ dev used size, size = min input.length (512 * min 9 (s.freeWithout (entryAt s.dev i))) ∧
    (entryAt dev i).size.toNat = size ∧
    ∀ stdin : Stdin, stdin.input = input →
      (sfsWrite o s fn stdin now).1.dev = dev ∧
      (sfsWrite o s fn stdin now).1.usedBlocks = used ∧
      (sfsRead o (sfsWrite o s fn stdin now).1 fn).2 = [.data (input.take size)]

/-- On a formatted partition of at most `2 ^ 22` blocks every file with a terminated
name, both permissions and pointers into the partition makes the round trip. -/
theorem sfsWrite_roundTrips (hs : s.Wf) (hP : s.sb.partitionSize.toNat ≤ 2 ^ 22)
    {fn : List UInt8} {i : ℕ} (hi : (sfsLookup o s fn).2.1 = i)
    (hr : (entryAt s.dev i).perms &&& 4 ≠ 0) (hw : (entryAt s.dev i).perms &&& 2 ≠ 0)
    (hp : ∀ k, (entryAt s.dev i).blocks k ≠ 0 →
      ((entryAt s.dev i).blocks k).toNat < s.sb.partitionSize.toNat)
    (h0 : ∃ l, (entryAt s.dev i).name l = 0) (input : List UInt8) (now : UInt32) :
    s.RoundTrips o fn i input now := by
  obtain ⟨l, h0⟩ := h0
  have hlookup : sfsLookup o s fn = ((sfsLookup o s fn).1, (i : ℤ), (sfsLookup o s fn).2.2) := by
    rw [← hi]
  have hslot := (sfsLookup_inv hs.geometry hlookup).1
  have hroom : (s.freeFor i).length = s.freeWithout (entryAt s.dev i) := by
    apply length_freeFor hs
    intro b hb
    obtain ⟨k, rfl, hk⟩ := Volume.mem_prefixPtrs_iff.mp hb
    rw [hs.size]
    exact hp k (hk k (Nat.le_refl k))
  have hsize : storedSize 0 (s.freeFor i) input =
      min input.length (512 * min 9 (s.freeWithout (entryAt s.dev i))) := by
    unfold storedSize
    rw [hroom]
  refine ⟨(s.store i input now).dev, (s.store i input now).usedBlocks, _, rfl, ?_, ?_⟩
  · rw [store_entryAt hs.geometry i input now (Volume.slotOf_eq_some.mp hslot).1, if_pos rfl,
      size_written, hsize]
  · rintro stdin rfl
    obtain ⟨hreach, hblocks⟩ := reaches_of_small hs hP (.write fn stdin now) i hslot hw
    have hm := sfsWrite_moves (o := o) hs hslot hw stdin now hreach hblocks
    have hread := sfsRead_store (o := o) hs hP hslot hr h0 stdin.input now hm
    obtain ⟨p, block, hshell⟩ := hm
    rw [hsize] at hread
    refine ⟨?_, ?_, hread⟩
    · rw [hshell, Shell.moved_dev]
    · rw [hshell, Shell.moved_usedBlocks]

/-- A new file on ten blocks. -/
theorem sfsWrite_roundTrips_sample :
    (step .bits32 sampleShell (.create [97] 0)).RoundTrips .bits32 [97] 0 [1, 2, 3] 5 := by
  have ho := ((sampleShell_started.fresh (by decide)).orderly (by decide)).command (.create [97] 0)
  exact sfsWrite_roundTrips ho.toWf ho.small (by decide +kernel) (by decide +kernel)
    (by decide +kernel) (by decide +kernel) ⟨1, by decide +kernel⟩ [1, 2, 3] 5

/-- A name of 16 bytes without NUL ends at the low byte of the size; after a write of
one byte it is another name. -/
def unterminatedShell : Shell := sampleShell.putSlot 0 ⟨fun _ => 97, 0, 0, 7, fun _ => 0⟩

theorem sfsWrite_not_roundTrips : unterminatedShell.Wf ∧
    unterminatedShell.sb.partitionSize.toNat ≤ 2 ^ 22 ∧
    (sfsLookup .bits32 unterminatedShell (List.replicate 16 97)).2.1 = 0 ∧
    (entryAt unterminatedShell.dev 0).perms &&& 4 ≠ 0 ∧
    (entryAt unterminatedShell.dev 0).perms &&& 2 ≠ 0 ∧
    (∀ k, (entryAt unterminatedShell.dev 0).blocks k = 0) ∧
    ¬ unterminatedShell.RoundTrips .bits32 (List.replicate 16 97) 0 [1] 5 := by
  have ho := (sampleShell_started.fresh (by decide)).orderly (by decide)
  refine ⟨⟨ho.geometry, ho.size⟩, ho.small, by decide +kernel, by decide +kernel,
    by decide +kernel, by decide +kernel, ?_⟩
  rintro ⟨dev, used, size, _, _, h⟩
  obtain ⟨_, _, hread⟩ := h [[1]] rfl
  have hmissing : (sfsRead .bits32 (sfsWrite .bits32 unterminatedShell (List.replicate 16 97) [[1]]
      5).1 (List.replicate 16 97)).2 =
        [.text "File %s doesn't exist\n" (List.replicate 16 97)] := by decide +kernel
  rw [hmissing] at hread
  exact absurd hread (by simp)

end Linuxpedia.RealFs
