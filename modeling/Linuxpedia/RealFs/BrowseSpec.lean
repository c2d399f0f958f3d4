import Linuxpedia.RealFs.Browse
import Linuxpedia.RealFs.Stored
import Linuxpedia.Sfs.DriverSpec
import Linuxpedia.Sfs.Mounting

/-! The commands of the v3.0 shell without their loops. On a device with the
formatter's layout each of them scans the slots of a volume, frees and takes
blocks of it and rewrites at most one slot. Only the file offset and the contents
of `block` are left out of the picture: every command seeks before it reads. -/

namespace Linuxpedia.RealFs

open Lib Sfs

namespace Shell

/-- The volume of a shell. -/
def volume (s : Shell) : Volume where
  count := s.sb.entryCount.toNat
  start := s.sb.dataBlockStart.toNat
  entry := entryAt s.dev
  used := s.usedBlocks

/-- The layout is the formatter's and the allocation table has a byte per block. -/
structure Wf (s : Shell) : Prop where
  geometry : Geometry s.sb
  size : s.usedBlocks.size = s.sb.partitionSize.toNat

/-- The shell with another file offset and other contents of `block`. -/
def moved (s : Shell) (p : ℕ) (block : Store) : Shell :=
  { s with toHandle := ⟨s.dev, p⟩, block := block }

/-- The shell with another allocation table. -/
def withUsed (s : Shell) (t : Buffer) : Shell := { s with usedBlocks := t }

/-- The shell with other contents of `block`. -/
def withBlock (s : Shell) (block : Store) : Shell := { s with block := block }

/-- The shell with another device. -/
def withDev (s : Shell) (dev : Store) : Shell := { s with toHandle := ⟨dev, s.pos⟩ }

@[simp] theorem moved_dev (s : Shell) (p block) : (s.moved p block).dev = s.dev := rfl
@[simp] theorem moved_sb (s : Shell) (p block) : (s.moved p block).sb = s.sb := rfl
@[simp] theorem moved_usedBlocks (s : Shell) (p block) :
    (s.moved p block).usedBlocks = s.usedBlocks := rfl
@[simp] theorem moved_block (s : Shell) (p block) : (s.moved p block).block = block := rfl
@[simp] theorem moved_moved (s : Shell) (p q block block') :
    (s.moved p block).moved q block' = s.moved q block' := rfl
@[simp] theorem moved_volume (s : Shell) (p block) : (s.moved p block).volume = s.volume := rfl

@[simp] theorem withUsed_dev (s : Shell) (t) : (s.withUsed t).dev = s.dev := rfl
@[simp] theorem withUsed_sb (s : Shell) (t) : (s.withUsed t).sb = s.sb := rfl
@[simp] theorem withUsed_usedBlocks (s : Shell) (t) : (s.withUsed t).usedBlocks = t := rfl
@[simp] theorem withUsed_block (s : Shell) (t) : (s.withUsed t).block = s.block := rfl
@[simp] theorem withUsed_volume (s : Shell) (t : Buffer) :
    (s.withUsed t).volume = s.volume.withUsed t := rfl

@[simp] theorem withBlock_sb (s : Shell) (block) : (s.withBlock block).sb = s.sb := rfl
@[simp] theorem withBlock_usedBlocks (s : Shell) (block) :
    (s.withBlock block).usedBlocks = s.usedBlocks := rfl

@[simp] theorem withDev_dev (s : Shell) (dev) : (s.withDev dev).dev = dev := rfl
@[simp] theorem withDev_sb (s : Shell) (dev) : (s.withDev dev).sb = s.sb := rfl
@[simp] theorem withDev_usedBlocks (s : Shell) (dev) :
    (s.withDev dev).usedBlocks = s.usedBlocks := rfl
@[simp] theorem withDev_block (s : Shell) (dev) : (s.withDev dev).block = s.block := rfl

namespace Wf

variable {s : Shell}

theorem size_le (h : s.Wf) : s.usedBlocks.size ≤ 2 ^ 31 := by
  have hs := h.geometry.small
  rw [h.size]
  omega

theorem start_le (h : s.Wf) : s.volume.start ≤ s.volume.used.size := by
  have hs := h.geometry.start_le
  rw [← h.size] at hs
  exact hs

theorem start_pos (h : s.Wf) : 0 < s.volume.start := by
  have ht := h.geometry.table_fits
  change 0 < s.sb.dataBlockStart.toNat
  omega

end Wf

end Shell

variable {o : OffT} {s : Shell}

/-! ### Addresses -/

theorem tableStart_eq {sb : SfsSuperBlock} (hg : Geometry sb) :
    sb.entryTableBlockStart * sb.blockSize = 512 := by
  rw [hg.tableStart_eq, hg.blockSize_eq]
  rfl

theorem seekTable_eq (hg : Geometry s.sb) : s.seekTable o = s.moved 512 s.block := by
  unfold Shell.seekTable Shell.seekSet
  rw [tableStart_eq hg, Handle.seekSet_of_lt o (by decide)]
  rfl

theorem slotOffset_eq {sb : SfsSuperBlock} (hg : Geometry sb) {i : ℕ}
    (hi : 512 + 64 * i < 2 ^ 31) :
    (sb.entryTableBlockStart * sb.blockSize + UInt32.ofInt i * sb.entrySize).toNat =
      512 + 64 * i := by
  rw [tableStart_eq hg, hg.entrySize_eq, UInt32.toNat_add, UInt32.toNat_mul,
    toNat_ofInt_natCast (by omega)]
  change (512 + i * 64 % 2 ^ 32) % 2 ^ 32 = _
  omega

theorem seekEntry_eq (hg : Geometry s.sb) {i : ℕ} (hi : 512 + 64 * i < 2 ^ 31) :
    s.seekEntry o i = s.moved (512 + 64 * i) s.block := by
  have ha := slotOffset_eq hg hi
  unfold Shell.seekEntry Shell.seekSet
  rw [Handle.seekSet_of_lt o (by rw [ha]; exact hi), ha]
  rfl

/-- The offset of a block below `2 ^ 22` does not wrap. -/
theorem blockOffset_eq {sb : SfsSuperBlock} (hg : Geometry sb) {b : UInt32}
    (hb : b.toNat < 2 ^ 22) : (b * sb.blockSize).toNat = 512 * b.toNat := by
  rw [hg.blockSize_eq, UInt32.toNat_mul]
  change b.toNat * 512 % 2 ^ 32 = _
  omega

theorem seekBlock_eq (hg : Geometry s.sb) {b : UInt32} (hb : b.toNat < 2 ^ 22) :
    s.seekSet o (b * s.sb.blockSize) = s.moved (512 * b.toNat) s.block := by
  have ha := blockOffset_eq hg hb
  unfold Shell.seekSet
  rw [Handle.seekSet_of_lt o (by rw [ha]; omega), ha]
  rfl

/-- The shell with slot `i` rewritten. -/
def Shell.putSlot (s : Shell) (i : ℕ) (fe : SfsFileEntry) : Shell :=
  s.withDev (s.dev.blit (512 + 64 * i) 64 fe.toBytes)

/-- `s'` is `s` up to the file offset and `block`. -/
def Shell.Moves (s s' : Shell) : Prop := ∃ p block, s' = s.moved p block

theorem Shell.Moves.refl (s : Shell) : s.Moves s := ⟨s.pos, s.block, rfl⟩

theorem Shell.Moves.trans {s s' s'' : Shell} (h : s.Moves s') (h' : s'.Moves s'') :
    s.Moves s'' := by
  obtain ⟨p, block, rfl⟩ := h
  obtain ⟨q, block', rfl⟩ := h'
  exact ⟨q, block', rfl⟩

theorem seekSet_moves (o : OffT) (s : Shell) (off : UInt32) : s.Moves (s.seekSet o off) := by
  unfold Shell.seekSet Handle.seekSet
  split_ifs
  · exact ⟨_, s.block, rfl⟩
  · exact Shell.Moves.refl s

/-- Rewriting slot `i`. -/
theorem writeEntry_moves {s s' : Shell} (o : OffT) (h : s.Moves s') (hg : Geometry s.sb) {i : ℕ}
    (hi : 512 + 64 * i < 2 ^ 31) (fe : SfsFileEntry) :
    (s.putSlot i fe).Moves ((s'.seekEntry o i).writeEntry fe) := by
  obtain ⟨p, block, rfl⟩ := h
  rw [seekEntry_eq (s := s.moved p block) hg hi]
  exact ⟨512 + 64 * i + 64, block, rfl⟩

/-! ### Scans -/

theorem readEntry_slot (dev : Store) (i : ℕ) :
    Handle.readEntry ⟨dev, 512 + 64 * i⟩ = (⟨dev, 512 + 64 * (i + 1)⟩, entryAt dev i) := rfl

theorem sfsLookupLoop_succ (fn : List UInt8) (dev : Store) (n i : ℕ) :
    sfsLookupLoop fn (n + 1) i ⟨dev, 512 + 64 * i⟩ =
      if ¬ (entryAt dev i).Named then sfsLookupLoop fn n (i + 1) ⟨dev, 512 + 64 * (i + 1)⟩
      else if (entryAt dev i).cname = fn then (⟨dev, 512 + 64 * (i + 1)⟩, i, entryAt dev i)
      else sfsLookupLoop fn n (i + 1) ⟨dev, 512 + 64 * (i + 1)⟩ := rfl

/-- The scan goes on behind slot `i` unless it finds the name there. -/
theorem sfsLookupLoop_next {fn : List UInt8} {dev : Store} {i : ℕ} (n : ℕ)
    (h : ¬ ((entryAt dev i).Named ∧ (entryAt dev i).cname = fn)) :
    sfsLookupLoop fn (n + 1) i ⟨dev, 512 + 64 * i⟩ =
      sfsLookupLoop fn n (i + 1) ⟨dev, 512 + 64 * (i + 1)⟩ := by
  rw [sfsLookupLoop_succ]
  by_cases hn : (entryAt dev i).Named
  · rw [if_neg (not_not_intro hn), if_neg fun hc => h ⟨hn, hc⟩]
  · rw [if_pos hn]

theorem sfsLookupLoop_found {fn : List UInt8} {dev : Store} {j : ℕ}
    (hm : (entryAt dev j).Named ∧ (entryAt dev j).cname = fn) (n i : ℕ) (hi : i ≤ j)
    (hj : j < i + n)
    (hpre : ∀ l, i ≤ l → l < j → ¬ ((entryAt dev l).Named ∧ (entryAt dev l).cname = fn)) :
    sfsLookupLoop fn n i ⟨dev, 512 + 64 * i⟩ =
      ((⟨dev, 512 + 64 * (j + 1)⟩ : Handle), (j : ℤ), entryAt dev j) := by
  induction n generalizing i with
  | zero => omega
  | succ n ih =>
    rcases Nat.eq_or_lt_of_le hi with rfl | hlt
    · rw [sfsLookupLoop_succ, if_neg (not_not_intro hm.1), if_pos hm.2]
    · rw [sfsLookupLoop_next n (hpre i (Nat.le_refl i) hlt)]
      apply ih (i + 1) hlt (by omega)
      intro l hl
      exact hpre l (by omega)

theorem sfsLookupLoop_absent {fn : List UInt8} {dev : Store} (n i : ℕ)
    (hpre : ∀ l, i ≤ l → l < i + n → ¬ ((entryAt dev l).Named ∧ (entryAt dev l).cname = fn)) :
    sfsLookupLoop fn n i ⟨dev, 512 + 64 * i⟩ =
      ((⟨dev, 512 + 64 * (i + n)⟩ : Handle), -1, SfsFileEntry.zero) := by
  induction n generalizing i with
  | zero => rfl
  | succ n ih =>
    rw [sfsLookupLoop_next n (hpre i (Nat.le_refl i) (by omega)), ih (i + 1) (by
      intro l hl hln
      exact hpre l (by omega) (by omega)), Nat.add_assoc i 1 n, Nat.add_comm 1 n]

theorem sfsLookup_of_loop (hg : Geometry s.sb) {fn : List UInt8} {p : ℕ} {i : ℤ}
    {fe : SfsFileEntry}
    (hloop : sfsLookupLoop fn s.sb.entryCount.toNat 0 ⟨s.dev, 512⟩ = (⟨s.dev, p⟩, i, fe)) :
    sfsLookup o s fn = (s.moved p s.block, i, fe) := by
  unfold sfsLookup
  rw [seekTable_eq hg]
  change (let r := sfsLookupLoop fn s.sb.entryCount.toNat 0 ⟨s.dev, 512⟩;
    (({ s.moved 512 s.block with toHandle := r.1 } : Shell), r.2)) = _
  rw [hloop]
  rfl

/-- `sfs_lookup` finds the first slot of a name. -/
theorem sfsLookup_found (hg : Geometry s.sb) {fn : List UInt8} {i : ℕ}
    (hi : s.volume.slotOf fn = some i) :
    sfsLookup o s fn = (s.moved (512 + 64 * (i + 1)) s.block, (i : ℤ), entryAt s.dev i) := by
  obtain ⟨hlt, hm, hpre⟩ := Volume.slotOf_eq_some.mp hi
  have hloop := sfsLookupLoop_found hm s.sb.entryCount.toNat 0 (Nat.zero_le i)
    (by rw [Nat.zero_add]; exact hlt) fun l _ hl => hpre l hl
  exact sfsLookup_of_loop hg hloop

theorem sfsLookup_absent (hg : Geometry s.sb) {fn : List UInt8}
    (hi : s.volume.slotOf fn = none) :
    sfsLookup o s fn = (s.moved (512 + 64 * s.sb.entryCount.toNat) s.block, -1, .zero) := by
  have hpre : ∀ l, 0 ≤ l → l < 0 + s.sb.entryCount.toNat →
      ¬ ((entryAt s.dev l).Named ∧ (entryAt s.dev l).cname = fn) := by
    intro l _ hl
    rw [Nat.zero_add] at hl
    exact Volume.first_eq_none.mp hi l hl
  have hloop := sfsLookupLoop_absent s.sb.entryCount.toNat 0 hpre
  rw [Nat.zero_add] at hloop
  exact sfsLookup_of_loop hg hloop

/-- A lookup that returns a slot found the name there. -/
theorem sfsLookup_inv (hg : Geometry s.sb) {fn : List UInt8} {t : Shell} {i : ℕ}
    {fe : SfsFileEntry} (h : sfsLookup o s fn = (t, (i : ℤ), fe)) :
    s.volume.slotOf fn = some i ∧ fe = s.volume.entry i := by
  cases hi : s.volume.slotOf fn with
  | none =>
    rw [sfsLookup_absent hg hi] at h
    have hneg : (-1 : ℤ) = i := congrArg (fun r => r.2.1) h
    omega
  | some j =>
    rw [sfsLookup_found hg hi] at h
    have hij : (j : ℤ) = i := congrArg (fun r => r.2.1) h
    have hfe : entryAt s.dev j = fe := congrArg (fun r => r.2.2) h
    obtain rfl : j = i := by omega
    exact ⟨rfl, hfe.symm⟩

/-! ### Blocks -/

theorem getDataBlock_eq (hs : s.Wf) : getDataBlock s =
    match s.usedBlocks.free s.sb.dataBlockStart.toNat with
    | [] => (s, -1)
    | b :: _ => (s.withUsed (s.usedBlocks.take b), b) := by
  have hle := hs.geometry.start_le
  have hfit := s.usedBlocks.firstFit_ok (s.sb.partitionSize.toNat - s.sb.dataBlockStart.toNat)
    s.sb.dataBlockStart.toNat (by rw [hs.size]; omega) hs.size_le
  unfold getDataBlock
  rw [hfit]
  cases s.usedBlocks.free s.sb.dataBlockStart.toNat with
  | nil => rfl
  | cons b bs => rfl

theorem putBlocks_takeWhile (bs : List UInt32) (s : Shell) :
    putBlocks bs s = s.withUsed (s.usedBlocks.clear (bs.takeWhile (· != 0))) := by
  induction bs generalizing s with
  | nil => rfl
  | cons b bs ih =>
    unfold putBlocks
    rw [List.takeWhile_cons]
    by_cases hb : b = 0
    · simp [hb, Shell.withUsed]
    · rw [if_neg hb, ih]
      simp [hb, putDataBlock, Shell.withUsed]

/-- The freeing loop clears the pointers before the first zero one. -/
theorem putBlocks_eq (fe : SfsFileEntry) (s : Shell) :
    putBlocks (List.ofFn fe.blocks) s = s.withUsed (s.usedBlocks.clear fe.prefixPtrs) :=
  putBlocks_takeWhile _ s

/-- Writing the first bytes of `block` to a block of the device. -/
theorem writeBlock_eq (hg : Geometry s.sb) {b : ℕ} (hb : b < 2 ^ 22) (n : ℕ)
    {input : List UInt8} (hblock : s.block.bytes n = input.take n) (hn : n ≤ input.length) :
    (s.seekSet o (UInt32.ofNat b * s.sb.blockSize)).writeBlock n =
      (s.withDev (s.dev.blit (512 * b) n fun i => input.getD i 0)).moved (512 * b + n) s.block := by
  have hw : (UInt32.ofNat b).toNat = b := by
    rw [UInt32.toNat_ofNat', Nat.mod_eq_of_lt (by omega)]
  have hdev : s.dev.blit (512 * b) n s.block = s.dev.blit (512 * b) n fun i => input.getD i 0 := by
    apply Store.blit_congr
    intro i hi
    rw [s.block.apply_of_bytes hblock hi, List.getD_eq_getElem _ _ (by
      rw [List.length_take]; omega), List.getD_eq_getElem _ _ (by omega), List.getElem_take]
  rw [seekBlock_eq hg (by rw [hw]; exact hb), hw, ← hdev]
  rfl

/-! ### The loop of `sfs_write` -/

/-- The free data blocks, in the order in which they are taken. -/
def Shell.free (s : Shell) : List ℕ := s.usedBlocks.free s.sb.dataBlockStart.toNat

/-- `input` is what `block` holds so far and what is still to come. -/
structure Filling (s : Shell) (w : WriteVars) (input : List UInt8) : Prop where
  wf : s.Wf
  room : w.curReadI + w.toRead = 512
  pos : 0 < w.toRead
  data : s.block.bytes w.curReadI ++ w.stdin.input = input

/-- The state and the variables after `input` was stored. -/
structure Writes (s : Shell) (w : WriteVars) (input : List UInt8) (r : Shell × WriteVars) :
    Prop where
  shell : ∃ p block, r.1 = ((s.withDev (putData s.dev (storedBlocks w.blockI s.free input)
    input)).withUsed (s.usedBlocks.takes (storedBlocks w.blockI s.free input))).moved p block
  fe : r.2.fe = storedEntry w.fe w.blockI s.free input
  totalSize : r.2.totalSize = w.totalSize + storedSize w.blockI s.free input

/-- Nothing is stored. -/
theorem Writes.none {w w' : WriteVars} {input : List UInt8} {p : ℕ} {block : Store}
    (h : storedSize w.blockI s.free input = 0 ∧ storedBlocks w.blockI s.free input = [] ∧
      storedEntry w.fe w.blockI s.free input = w'.fe) (ht : w'.totalSize = w.totalSize) :
    Writes s w input (s.moved p block, w') := by
  obtain ⟨hsize, hblocks, hentry⟩ := h
  refine ⟨⟨p, block, ?_⟩, hentry.symm, ?_⟩
  · rw [hblocks]
    rfl
  · rw [hsize]
    exact ht

theorem free_lt_size (hs : s.Wf) {b : ℕ} {bs : List ℕ} (h : s.free = b :: bs) : b < 2 ^ 31 := by
  have hb : b ∈ s.free := by rw [h]; exact List.mem_cons_self
  have hlt := (s.usedBlocks.mem_free.mp hb).2.1
  have hle := hs.size_le
  omega

theorem getDataBlock_none (hs : s.Wf) (h : s.free = []) : getDataBlock s = (s, -1) := by
  rw [getDataBlock_eq hs]
  change (match s.free with | [] => _ | b :: _ => _) = _
  rw [h]

theorem getDataBlock_some (hs : s.Wf) {b : ℕ} {bs : List ℕ} (h : s.free = b :: bs) :
    getDataBlock s = (s.withUsed (s.usedBlocks.take b), (b : ℤ)) := by
  rw [getDataBlock_eq hs]
  change (match s.free with | [] => _ | b :: _ => _) = _
  rw [h]

/-- The partial block after the loop. -/
theorem writePartial_writes {w : WriteVars} {input : List UInt8} (hs : s.Wf)
    (hcur : w.curRead = 0) (hdata : s.block.bytes w.curReadI = input) (hlt : w.curReadI < 512)
    (hb : ∀ b ∈ storedBlocks w.blockI s.free input, b < 2 ^ 22) :
    Writes s w input (writePartial o s w) := by
  have hlen : input.length = w.curReadI := by rw [← hdata, Store.length_bytes]
  unfold writePartial
  by_cases h0 : w.curReadI = 0
  · have hnil : input = [] := List.eq_nil_of_length_eq_zero (by omega)
    rw [if_neg fun h => h.2 h0, hnil]
    exact Writes.none (stored_nil w.fe) rfl
  · have hne : input ≠ [] := by
      rintro rfl
      exact h0 hlen.symm
    rw [if_pos ⟨hcur, h0⟩]
    by_cases hk : w.blockI < 9
    · rw [dif_pos hk]
      cases hf : s.free with
      | nil =>
        rw [getDataBlock_none hs hf]
        exact Writes.none (stored_torn w.fe hf hk hne (by omega)) rfl
      | cons b bs =>
        have hst := stored_partial w.fe b bs hk hne (by omega)
        rw [← hf] at hst
        obtain ⟨hsize, hblocks, hentry⟩ := hst
        have hb22 : b < 2 ^ 22 := hb b (by rw [hblocks]; exact List.mem_singleton_self b)
        have hne1 : UInt32.ofNat b ≠ UInt32.ofInt (-1) := ofNat_ne_neg_one (free_lt_size hs hf)
        have hwrite := writeBlock_eq (o := o) (s := s.withUsed (s.usedBlocks.take b))
          hs.geometry hb22 w.curReadI
          (by rw [← hlen, List.take_length, hlen]; exact hdata) (by omega)
        rw [getDataBlock_some hs hf]
        simp only [ofInt_natCast, if_neg hne1]
        refine ⟨⟨512 * b + w.curReadI, s.block, ?_⟩, hentry.symm, ?_⟩
        · rw [hwrite, hblocks, putData, Nat.min_eq_right (by omega : input.length ≤ 512), hlen]
          rfl
        · rw [hsize, hlen]
    · rw [dif_neg hk]
      exact Writes.none (stored_stop w.fe (Or.inl (by omega))) rfl

theorem writePartial_stop {w : WriteVars} (h : w.curRead ≠ 0) : writePartial o s w = (s, w) := by
  unfold writePartial
  rw [if_neg fun hc => h hc.1]

section Loop

variable {w : WriteVars} {block : Store} {got : ℕ} {rest : Stdin} (n : ℕ)

/-- At the end of the file the loop ends. -/
theorem sfsWriteLoop_eof
    (hread : readStdin s.block w.curReadI w.toRead w.stdin = (block, 0, rest)) :
    sfsWriteLoop o (n + 1) s w =
      (s.withBlock block, { w with curRead := 0, stdin := rest }) := by
  rw [sfsWriteLoop, hread]
  rfl

/-- Less than a block so far. -/
theorem sfsWriteLoop_part
    (hread : readStdin s.block w.curReadI w.toRead w.stdin = (block, got, rest)) (h0 : got ≠ 0)
    (hpart : got ≠ w.toRead) : sfsWriteLoop o (n + 1) s w =
      sfsWriteLoop o n (s.withBlock block) { w with
        curRead := got
        stdin := rest
        curReadI := w.curReadI + got
        toRead := w.toRead - got } := by
  rw [sfsWriteLoop, hread]
  simp only [if_neg h0, if_neg hpart, Shell.withBlock]

variable (hread : readStdin s.block w.curReadI w.toRead w.stdin = (block, w.toRead, rest))
  (h0 : w.toRead ≠ 0)

include hread h0

/-- A full block, but no index for it. -/
theorem sfsWriteLoop_limit (hk : ¬ w.blockI < 9) : sfsWriteLoop o (n + 1) s w =
    (s.withBlock block, { w with curRead := w.toRead, stdin := rest }) := by
  rw [sfsWriteLoop, hread]
  simp only [if_neg h0, if_true, dif_neg hk, Shell.withBlock]

/-- A full block, but no block for it. -/
theorem sfsWriteLoop_full (hk : w.blockI < 9) {s' : Shell}
    (hget : getDataBlock (s.withBlock block) = (s', -1)) : sfsWriteLoop o (n + 1) s w =
      (s', { w with curRead := w.toRead, stdin := rest }) := by
  unfold Shell.withBlock at hget
  rw [sfsWriteLoop, hread]
  simp only [if_neg h0, if_true, dif_pos hk, hget]

/-- A full block that is written. -/
theorem sfsWriteLoop_block (hk : w.blockI < 9) {s' : Shell} {freeI : ℤ}
    (hget : getDataBlock (s.withBlock block) = (s', freeI)) (hfree : freeI ≠ -1) :
    sfsWriteLoop o (n + 1) s w = sfsWriteLoop o n
      ((s'.seekSet o (UInt32.ofInt freeI * s'.sb.blockSize)).writeBlock s'.sb.blockSize.toNat)
      { stdin := rest
        fe := w.fe.point ⟨w.blockI, hk⟩ (UInt32.ofInt freeI)
        curRead := w.toRead
        curReadI := 0
        toRead := s'.sb.blockSize.toNat
        totalSize := w.totalSize + s'.sb.blockSize.toNat
        blockI := w.blockI + 1 } := by
  unfold Shell.withBlock at hget
  rw [sfsWriteLoop, hread]
  simp only [if_neg h0, if_true, dif_pos hk, hget, if_neg hfree]
  rfl

end Loop

/-- Storing the rest behind a first block that was taken and written. -/
theorem Writes.cons {w : WriteVars} {input : List UInt8} {b : ℕ} {bs : List ℕ}
    (hk : w.blockI < 9) (hlen : 512 ≤ input.length) (hf : s.free = b :: bs) {p : ℕ}
    {block : Store} (stdin : Stdin) {r : Shell × WriteVars}
    (h : Writes (((s.withUsed (s.usedBlocks.take b)).withDev
      (s.dev.blit (512 * b) 512 fun i => input.getD i 0)).moved p block)
      { stdin := stdin
        fe := w.fe.point ⟨w.blockI, hk⟩ (UInt32.ofNat b)
        curRead := w.toRead
        curReadI := 0
        toRead := 512
        totalSize := w.totalSize + 512
        blockI := w.blockI + 1 } (input.drop 512) r) : Writes s w input r := by
  obtain ⟨hsize, hblocks, hentry⟩ := stored_cons w.fe b bs hk hlen
  rw [← hf] at hsize hblocks hentry
  obtain ⟨⟨q, block', hshell⟩, hfe, htotal⟩ := h
  have hfree : Shell.free (((s.withUsed (s.usedBlocks.take b)).withDev
      (s.dev.blit (512 * b) 512 fun i => input.getD i 0)).moved p block) = bs :=
    s.usedBlocks.free_take hf
  rw [hfree] at hshell hfe htotal
  constructor
  · refine ⟨q, block', ?_⟩
    rw [hblocks, putData, Nat.min_eq_left hlen]
    exact hshell
  · rw [hentry]
    exact hfe
  · rw [hsize, ← Nat.add_assoc]
    exact htotal

/-- A full block holds the first 512 bytes of what is still to be stored. -/
theorem block_split {block : Store} {rest input : List UInt8} (h : block.bytes 512 ++ rest = input) :
    512 ≤ input.length ∧ block.bytes 512 = input.take 512 ∧ rest = input.drop 512 := by
  have hlen : (block.bytes 512).length = 512 := block.length_bytes
  subst h
  refine ⟨?_, (List.take_left' hlen).symm, (List.drop_left' hlen).symm⟩
  rw [List.length_append, hlen]
  exact Nat.le_add_right 512 _

/-- Writing a full block to the data block taken for it. -/
theorem writeBlock_full (hs : s.Wf) {block : Store} {b : ℕ} (hb : b < 2 ^ 22) {input : List UInt8}
    (hlen : 512 ≤ input.length) (htake : block.bytes 512 = input.take 512) :
    (((s.withBlock block).withUsed (s.usedBlocks.take b)).seekSet o
        (UInt32.ofNat b * s.sb.blockSize)).writeBlock 512 =
      ((s.withUsed (s.usedBlocks.take b)).withDev
        (s.dev.blit (512 * b) 512 fun i => input.getD i 0)).moved (512 * b + 512) block :=
  writeBlock_eq (s := (s.withBlock block).withUsed (s.usedBlocks.take b)) hs.geometry hb 512
    htake hlen

/-- The loop and the partial block after it store the input, given a call of `read`
for each byte and one for the end of the file. -/
theorem sfsWriteLoop_writes (n : ℕ) {w : WriteVars} {input : List UInt8} (h : Filling s w input)
    (hn : w.stdin.flatten.length < n)
    (hb : ∀ b ∈ storedBlocks w.blockI s.free input, b < 2 ^ 22) :
    Writes s w input
      (writePartial o (sfsWriteLoop o n s w).1 (sfsWriteLoop o n s w).2) := by
  induction n generalizing s w input with
  | zero => omega
  | succ n ih =>
    have hroom := h.room
    have hpos := h.pos
    have hdata := h.data
    have hwf : ∀ block, (s.withBlock block).Wf := fun _ => ⟨h.wf.geometry, h.wf.size⟩
    by_cases heof : w.stdin.input = []
    · obtain ⟨block, rest, hread, hkeep⟩ := readStdin_eof s.block w.curReadI w.toRead heof
      rw [heof, List.append_nil] at hdata
      rw [sfsWriteLoop_eof n hread]
      have hp := writePartial_writes (o := o) (w := { w with curRead := 0, stdin := rest })
        (hwf block) rfl (hkeep.trans hdata) (show w.curReadI < 512 by omega) hb
      exact ⟨hp.shell, hp.fe, hp.totalSize⟩
    · obtain ⟨block, got, rest, hread, hgot, hle, hblock, hinput, hless⟩ :=
        readStdin_some s.block w.curReadI hpos heof
      have hnext : block.bytes (w.curReadI + got) ++ rest.input = input := by
        rw [hblock, hinput, List.append_assoc, List.take_append_drop]
        exact hdata
      by_cases hfull : got = w.toRead
      · subst hfull
        have h0 := Nat.ne_of_gt hgot
        rw [hroom] at hnext
        obtain ⟨hlen, htake, hdrop⟩ := block_split hnext
        by_cases hk : w.blockI < 9
        · cases hf : s.free with
          | nil =>
            rw [sfsWriteLoop_full n hread h0 hk (getDataBlock_none (hwf block) hf),
              writePartial_stop h0]
            exact Writes.none (stored_stop w.fe (Or.inr ⟨hf, hlen⟩)) rfl
          | cons b bs =>
            have hst := (stored_cons w.fe b bs hk hlen).2.1
            rw [← hf] at hst
            have hb22 : b < 2 ^ 22 := hb b (by rw [hst]; exact List.mem_cons_self)
            have hbs : s.sb.blockSize.toNat = 512 := by rw [h.wf.geometry.blockSize_eq]; rfl
            rw [sfsWriteLoop_block n hread h0 hk (getDataBlock_some (hwf block) hf) (by omega)]
            simp only [Shell.withUsed_sb, Shell.withBlock_sb, Shell.withBlock_usedBlocks, hbs,
              ofInt_natCast]
            have hfree : ((s.withBlock block).withUsed (s.usedBlocks.take b)).free = bs :=
              s.usedBlocks.free_take hf
            rw [writeBlock_full h.wf hb22 hlen htake]
            apply Writes.cons hk hlen hf rest
            apply ih
            · exact ⟨⟨h.wf.geometry, h.wf.size⟩, rfl, Nat.succ_pos 511, hdrop⟩
            · exact Nat.lt_of_lt_of_le hless (Nat.le_of_lt_succ hn)
            · intro c hc
              refine hb c ?_
              rw [hst]
              exact List.mem_cons_of_mem b (hfree ▸ hc)
        · rw [sfsWriteLoop_limit n hread h0 hk, writePartial_stop h0]
          exact Writes.none (stored_stop w.fe (Or.inl (by omega))) rfl
      · rw [sfsWriteLoop_part n hread (Nat.ne_of_gt hgot) hfull]
        have hw := ih (s := s.withBlock block) (w := { w with
            curRead := got, stdin := rest, curReadI := w.curReadI + got, toRead := w.toRead - got })
          ⟨hwf block, by simp only; omega, by simp only; omega, hnext⟩ (by simp only; omega) hb
        exact ⟨hw.shell, hw.fe, hw.totalSize⟩

/-! ### The effect of a command -/

/-- The blocks that a write of `input` takes from the free ones. -/
def Shell.gets (s : Shell) (input : List UInt8) : List ℕ := storedBlocks 0 s.free input

/-- The entry that a write of `input` to the free blocks leaves in slot `i`. -/
def Shell.filled (s : Shell) (i : ℕ) (input : List UInt8) (now : UInt32) : SfsFileEntry :=
  { storedEntry (entryAt s.dev i) 0 s.free input with
    size := UInt32.ofNat (storedSize 0 s.free input)
    timestamp := now }

/-- The shell after a write of `input` to the free blocks for slot `i`. -/
def Shell.fill (s : Shell) (i : ℕ) (input : List UInt8) (now : UInt32) : Shell :=
  ((s.withDev (putData s.dev (s.gets input) input)).withUsed
    (s.usedBlocks.takes (s.gets input))).putSlot i (s.filled i input now)

/-- The allocation table after `sfs_write` freed the blocks of slot `i`. -/
def Shell.cleared (s : Shell) (i : ℕ) : Buffer :=
  s.usedBlocks.clear (entryAt s.dev i).prefixPtrs

/-- The free blocks that a write to slot `i` finds. -/
def Shell.freeFor (s : Shell) (i : ℕ) : List ℕ :=
  (s.cleared i).free s.sb.dataBlockStart.toNat

/-- The blocks that a write of `input` to slot `i` takes. -/
def Shell.taken (s : Shell) (i : ℕ) (input : List UInt8) : List ℕ :=
  storedBlocks 0 (s.freeFor i) input

/-- The entry that a write of `input` leaves in slot `i`. -/
def Shell.written (s : Shell) (i : ℕ) (input : List UInt8) (now : UInt32) : SfsFileEntry :=
  { storedEntry (entryAt s.dev i) 0 (s.freeFor i) input with
    size := UInt32.ofNat (storedSize 0 (s.freeFor i) input)
    timestamp := now }

/-- The shell after a write of `input` to slot `i`. -/
def Shell.store (s : Shell) (i : ℕ) (input : List UInt8) (now : UInt32) : Shell :=
  ((s.withDev (putData s.dev (s.taken i input) input)).withUsed
    ((s.cleared i).takes (s.taken i input))).putSlot i (s.written i input now)

/-- Freeing the blocks of a slot keeps the layout. -/
theorem Shell.Wf.cleared (hs : s.Wf) (i : ℕ) : (s.withUsed (s.cleared i)).Wf :=
  ⟨hs.geometry, (s.usedBlocks.size_clear _).trans hs.size⟩

/-- What a command does to the shell, up to the file offset and `block`. -/
inductive Effect (s : Shell) : Command → Shell → Prop where
  | stay (c : Command) : Effect s c s
  | create (fn : List UInt8) (now : UInt32) (i : ℕ) (hi : i < s.volume.count)
      (hfree : ¬ (s.volume.entry i).Named)
      (hpre : ∀ j < i, (s.volume.entry j).Named ∧ (s.volume.entry j).cname ≠ fn) :
      Effect s (.create fn now) (s.putSlot i (.fresh fn now 7))
  | remove (fn : List UInt8) (i : ℕ) (hi : s.volume.slotOf fn = some i) :
      Effect s (.remove fn) ((s.withUsed (s.cleared i)).putSlot i .zero)
  | chperm (perm : ℤ) (fn : List UInt8) (i : ℕ) (perms : UInt32)
      (hi : s.volume.slotOf fn = some i) :
      Effect s (.chperm perm fn) (s.putSlot i { s.volume.entry i with perms := perms })
  | write (fn : List UInt8) (stdin : Stdin) (now : UInt32) (i : ℕ)
      (hi : s.volume.slotOf fn = some i) (hw : (s.volume.entry i).perms &&& 2 ≠ 0) :
      Effect s (.write fn stdin now) (s.store i stdin.input now)

/-- The seeks of a command that writes are to offsets below `2 ^ 31`. -/
def Command.Reaches (s : Shell) : Command → Prop
  | .remove fn => ∀ i, s.volume.slotOf fn = some i → 512 + 64 * i < 2 ^ 31
  | .chperm _ fn => ∀ i, s.volume.slotOf fn = some i → 512 + 64 * i < 2 ^ 31
  | .write fn stdin _ => ∀ i, s.volume.slotOf fn = some i → (s.volume.entry i).perms &&& 2 ≠ 0 →
      512 + 64 * i < 2 ^ 31 ∧ ∀ b ∈ s.taken i stdin.input, b < 2 ^ 22
  | _ => True

instance (s : Shell) : DecidablePred (Command.Reaches s)
  | .remove fn => inferInstanceAs (Decidable (∀ i ∈ s.volume.slotOf fn, 512 + 64 * i < 2 ^ 31))
  | .chperm _ fn => inferInstanceAs (Decidable (∀ i ∈ s.volume.slotOf fn, 512 + 64 * i < 2 ^ 31))
  | .write fn stdin _ =>
    inferInstanceAs (Decidable (∀ i ∈ s.volume.slotOf fn, (s.volume.entry i).perms &&& 2 ≠ 0 →
      512 + 64 * i < 2 ^ 31 ∧ ∀ b ∈ s.taken i stdin.input, b < 2 ^ 22))
  | .list => .isTrue trivial
  | .create _ _ => .isTrue trivial
  | .read _ => .isTrue trivial

theorem sfsReadLoop_moves (bs : List UInt32) (s : Shell) (remToRead : UInt32) (out : List UInt8) :
    s.Moves (sfsReadLoop o bs s remToRead out).1 := by
  induction bs generalizing s remToRead out with
  | nil => exact Shell.Moves.refl s
  | cons b bs ih =>
    have hread : ∀ n, s.Moves ((s.seekSet o (b * s.sb.blockSize)).readBlock n) :=
      fun n => (seekSet_moves o s _).trans ⟨_, _, rfl⟩
    unfold sfsReadLoop
    simp only
    split_ifs
    · exact Shell.Moves.refl s
    · exact hread _
    · exact (hread _).trans (ih _ _ _)
    · exact hread _
    · exact (hread _).trans (ih _ _ _)

theorem sfsRead_moves (hs : s.Wf) (fn : List UInt8) : s.Moves (sfsRead o s fn).1 := by
  unfold sfsRead
  cases hi : s.volume.slotOf fn with
  | none =>
    rw [sfsLookup_absent hs.geometry hi]
    exact ⟨_, s.block, rfl⟩
  | some i =>
    rw [sfsLookup_found hs.geometry hi]
    simp only [show ¬ (i : ℤ) = -1 by omega, ↓reduceIte]
    split_ifs
    · exact ⟨_, s.block, rfl⟩
    · exact Shell.Moves.trans ⟨_, s.block, rfl⟩ (sfsReadLoop_moves _ _ _ _)

theorem sfsListLoop_dev (n : ℕ) (h : Handle) (out : List Output) :
    (sfsListLoop n h out).1.dev = h.dev := by
  induction n generalizing h out with
  | zero => rfl
  | succ n ih =>
    unfold sfsListLoop
    simp only
    split_ifs
    · exact ih _ _
    · exact ih _ _

theorem sfsList_moves (s : Shell) : s.Moves (sfsList o s).1 := by
  have hseek : s.Moves (s.seekTable o) := seekSet_moves o s _
  refine hseek.trans ⟨(sfsList o s).1.pos, (s.seekTable o).block, ?_⟩
  have hdev := sfsListLoop_dev s.sb.entryCount.toNat (s.seekTable o).toHandle []
  unfold sfsList Shell.moved
  simp only
  congr 1
  exact congrArg (fun dev => (⟨dev, _⟩ : Handle)) hdev

theorem sfsCreateLoop_succ (fn : List UInt8) (dev : Store) (n i : ℕ) :
    sfsCreateLoop fn (n + 1) i ⟨dev, 512 + 64 * i⟩ =
      if ¬ (entryAt dev i).Named then ((⟨dev, 512 + 64 * (i + 1)⟩ : Handle), some i)
      else if (entryAt dev i).cname = fn then (⟨dev, 512 + 64 * (i + 1)⟩, none)
      else sfsCreateLoop fn n (i + 1) ⟨dev, 512 + 64 * (i + 1)⟩ := rfl

/-- The scan of `sfs_create` stops at a free slot, at the name or behind the table. -/
theorem sfsCreateLoop_cases (fn : List UInt8) (dev : Store) (n i : ℕ) :
    (∃ j, i ≤ j ∧ j < i + n ∧ ¬ (entryAt dev j).Named ∧
      (∀ l, i ≤ l → l < j → (entryAt dev l).Named ∧ (entryAt dev l).cname ≠ fn) ∧
      sfsCreateLoop fn n i ⟨dev, 512 + 64 * i⟩ = ((⟨dev, 512 + 64 * (j + 1)⟩ : Handle), some j)) ∨
    (∃ j, i ≤ j ∧ j < i + n ∧ (entryAt dev j).cname = fn ∧
      (∀ l, i ≤ l → l ≤ j → (entryAt dev l).Named) ∧
      sfsCreateLoop fn n i ⟨dev, 512 + 64 * i⟩ = ((⟨dev, 512 + 64 * (j + 1)⟩ : Handle), none)) ∨
    ((∀ l, i ≤ l → l < i + n → (entryAt dev l).Named ∧ (entryAt dev l).cname ≠ fn) ∧
      sfsCreateLoop fn n i ⟨dev, 512 + 64 * i⟩ =
        ((⟨dev, 512 + 64 * (i + n)⟩ : Handle), some (i + n))) := by
  induction n generalizing i with
  | zero => exact Or.inr (Or.inr ⟨fun l hl hli => by omega, rfl⟩)
  | succ n ih =>
    rw [sfsCreateLoop_succ]
    by_cases hn : (entryAt dev i).Named
    · rw [if_neg (not_not_intro hn)]
      by_cases hc : (entryAt dev i).cname = fn
      · rw [if_pos hc]
        refine Or.inr (Or.inl ⟨i, Nat.le_refl i, by omega, hc, ?_, rfl⟩)
        intro l hl hli
        obtain rfl : l = i := by omega
        exact hn
      · rw [if_neg hc]
        have hstep : ∀ l, i ≤ l → (i + 1 ≤ l → (entryAt dev l).Named ∧ (entryAt dev l).cname ≠ fn) →
            (entryAt dev l).Named ∧ (entryAt dev l).cname ≠ fn := by
          intro l hl h
          rcases Nat.eq_or_lt_of_le hl with rfl | hlt
          · exact ⟨hn, hc⟩
          · exact h hlt
        rcases ih (i + 1) with ⟨j, hij, hj, hfree, hpre, h⟩ | ⟨j, hij, hj, hname, hpre, h⟩ | ⟨hall, h⟩
        · refine Or.inl ⟨j, by omega, by omega, hfree, ?_, h⟩
          exact fun l hl hlj => hstep l hl fun hlt => hpre l hlt hlj
        · refine Or.inr (Or.inl ⟨j, by omega, by omega, hname, ?_, h⟩)
          intro l hl hlj
          rcases Nat.eq_or_lt_of_le hl with rfl | hlt
          · exact hn
          · exact hpre l hlt hlj
        · rw [Nat.add_assoc, Nat.add_comm 1 n] at h hall
          exact Or.inr (Or.inr ⟨fun l hl hln => hstep l hl fun hlt => hall l hlt hln, h⟩)
    · rw [if_pos hn]
      refine Or.inl ⟨i, Nat.le_refl i, by omega, hn, ?_, rfl⟩
      intro l hl hli
      omega

/-- `sfs_create` fills a slot, meets the name or finds no slot. -/
theorem sfsCreate_cases (hg : Geometry s.sb) (fn : List UInt8) (now : UInt32) :
    (∃ i, s.volume.createSlot fn = some i ∧
      (s.putSlot i (.fresh fn now 7)).Moves (sfsCreate .bits32 s fn now).1) ∨
    (s.volume.createSlot fn = none ∧ s.Moves (sfsCreate .bits32 s fn now).1 ∧
      (s.volume.slotOf fn ≠ none →
        (sfsCreate .bits32 s fn now).2 = [.text "File %s already exists\n" fn])) := by
  have hloop := sfsCreateLoop_cases fn s.dev s.sb.entryCount.toNat 0
  rw [Nat.mul_zero, Nat.add_zero, Nat.zero_add] at hloop
  unfold sfsCreate
  rw [seekTable_eq hg]
  simp only [Shell.moved]
  rcases hloop with ⟨j, _, hj, hfree, hpre, h⟩ | ⟨j, _, hj, hname, hpre, h⟩ | ⟨hall, h⟩
  · rw [h]
    refine Or.inl ⟨j, Volume.createSlot_eq_some.mpr ⟨hj, hfree, fun l hl =>
      hpre l (Nat.zero_le l) hl⟩, ?_⟩
    have hback : -s.sb.entrySize = -64 := by rw [hg.entrySize_eq]
    simp only [if_neg (Nat.ne_of_lt hj), hback]
    rw [show 512 + 64 * (j + 1) = 512 + 64 * j + 64 by omega, Handle.seekCur_back]
    exact ⟨_, _, rfl⟩
  · rw [h]
    refine Or.inr ⟨?_, ⟨_, _, rfl⟩, fun _ => rfl⟩
    rw [Option.eq_none_iff_forall_ne_some]
    intro i hi
    obtain ⟨_, hfree, hne⟩ := Volume.createSlot_eq_some.mp hi
    rcases Nat.lt_or_ge j i with hlt | hle
    · exact (hne j hlt).2 hname
    · exact hfree (hpre i (Nat.zero_le i) hle)
  · rw [h]
    simp only [↓reduceIte]
    refine Or.inr ⟨?_, ⟨_, _, rfl⟩, ?_⟩
    · rw [Option.eq_none_iff_forall_ne_some]
      intro i hi
      obtain ⟨hlt, hfree, _⟩ := Volume.createSlot_eq_some.mp hi
      exact hfree (hall i (Nat.zero_le i) hlt).1
    · intro hne
      obtain ⟨i, hi⟩ := Option.ne_none_iff_exists'.mp hne
      obtain ⟨hlt, hm, _⟩ := Volume.slotOf_eq_some.mp hi
      exact absurd hm.2 (hall i (Nat.zero_le i) hlt).2

theorem sfsCreate_effect (hs : s.Wf) (fn : List UInt8) (now : UInt32) :
    ∃ s', Effect s (.create fn now) s' ∧ s'.Moves (sfsCreate .bits32 s fn now).1 := by
  rcases sfsCreate_cases hs.geometry fn now with ⟨i, hi, hm⟩ | ⟨_, hm, _⟩
  · obtain ⟨hlt, hfree, hpre⟩ := Volume.createSlot_eq_some.mp hi
    exact ⟨_, .create fn now i hlt hfree hpre, hm⟩
  · exact ⟨s, .stay _, hm⟩

theorem sfsRemove_absent (hg : Geometry s.sb) {fn : List UInt8} (hi : s.volume.slotOf fn = none) :
    s.Moves (sfsRemove o s fn).1 := by
  unfold sfsRemove
  rw [sfsLookup_absent hg hi]
  exact ⟨_, _, rfl⟩

theorem sfsRemove_found (hg : Geometry s.sb) {fn : List UInt8} {i : ℕ}
    (hi : s.volume.slotOf fn = some i) (hslot : 512 + 64 * i < 2 ^ 31) :
    ((s.withUsed (s.cleared i)).putSlot i .zero).Moves (sfsRemove o s fn).1 := by
  unfold sfsRemove
  rw [sfsLookup_found hg hi]
  simp only [show ¬ (i : ℤ) = -1 by omega, ↓reduceIte]
  rw [putBlocks_eq]
  have hm : (s.withUsed (s.cleared i)).Moves
      ((s.moved (512 + 64 * (i + 1)) s.block).withUsed (s.cleared i)) := ⟨_, _, rfl⟩
  exact writeEntry_moves o hm hg hslot _

theorem sfsRemove_effect (hs : s.Wf) (fn : List UInt8) (hr : (Command.remove fn).Reaches s) :
    ∃ s', Effect s (.remove fn) s' ∧ s'.Moves (sfsRemove o s fn).1 := by
  cases hi : s.volume.slotOf fn with
  | none => exact ⟨s, .stay _, sfsRemove_absent hs.geometry hi⟩
  | some i => exact ⟨_, .remove fn i hi, sfsRemove_found hs.geometry hi (hr i hi)⟩

theorem sfsChperm_absent (hg : Geometry s.sb) (perm : ℤ) {fn : List UInt8}
    (hi : s.volume.slotOf fn = none) : s.Moves (sfsChperm o s fn perm).1 := by
  unfold sfsChperm sfsUpdate
  rw [sfsLookup_absent hg hi]
  exact ⟨_, _, rfl⟩

/-- The permissions that `sfs_chperm` stores. -/
def newPerms (perm : ℤ) (perms : UInt32) : UInt32 := if perm ≤ 7 then UInt32.ofInt perm else perms

theorem sfsChperm_found (hg : Geometry s.sb) (perm : ℤ) {fn : List UInt8} {i : ℕ}
    (hi : s.volume.slotOf fn = some i) (hslot : 512 + 64 * i < 2 ^ 31) :
    (s.putSlot i { s.volume.entry i with
      perms := newPerms perm (s.volume.entry i).perms }).Moves (sfsChperm o s fn perm).1 := by
  unfold sfsChperm sfsUpdate
  rw [sfsLookup_found hg hi]
  simp only [show ¬ (i : ℤ) = -1 by omega, ↓reduceIte]
  have hm : s.Moves (s.moved (512 + 64 * (i + 1)) s.block) := ⟨_, _, rfl⟩
  exact writeEntry_moves o hm hg hslot _

theorem sfsChperm_effect (hs : s.Wf) (perm : ℤ) (fn : List UInt8)
    (hr : (Command.chperm perm fn).Reaches s) :
    ∃ s', Effect s (.chperm perm fn) s' ∧ s'.Moves (sfsChperm o s fn perm).1 := by
  cases hi : s.volume.slotOf fn with
  | none => exact ⟨s, .stay _, sfsChperm_absent hs.geometry perm hi⟩
  | some i => exact ⟨_, .chperm perm fn i _ hi, sfsChperm_found hs.geometry perm hi (hr i hi)⟩

/-- The loop of `sfs_write`, the partial block and the entry written after them fill
free blocks for slot `i`. -/
theorem fill_moves {s s₁ : Shell} (hs : s.Wf) (h₁ : s.Moves s₁) {i : ℕ}
    (hslot : 512 + 64 * i < 2 ^ 31) (stdin : Stdin) (now : UInt32)
    (hblocks : ∀ b ∈ s.gets stdin.input, b < 2 ^ 22) {r : Shell × WriteVars}
    (hr : r = sfsWriteLoop o (stdin.flatten.length + 1) s₁
      ⟨stdin, entryAt s.dev i, 0, 0, s₁.sb.blockSize.toNat, 0, 0⟩) :
    (s.fill i stdin.input now).Moves
      (((writePartial o r.1 r.2).1.seekEntry o i).writeEntry
        { (writePartial o r.1 r.2).2.fe with
          size := UInt32.ofNat (writePartial o r.1 r.2).2.totalSize
          timestamp := now }) := by
  obtain ⟨p, block, rfl⟩ := h₁
  have hbs : s.sb.blockSize.toNat = 512 := by
    rw [hs.geometry.blockSize_eq]
    rfl
  rw [Shell.moved_sb, hbs] at hr
  have hwf : (s.moved p block).Wf := ⟨hs.geometry, hs.size⟩
  have hloop : Writes (s.moved p block) ⟨stdin, entryAt s.dev i, 0, 0, 512, 0, 0⟩ stdin.input
      (writePartial o r.1 r.2) := by
    rw [hr]
    exact sfsWriteLoop_writes (o := o) _ ⟨hwf, rfl, Nat.succ_pos 511, rfl⟩ (Nat.lt_succ_self _)
      hblocks
  obtain ⟨⟨q, block', hshell⟩, hfe, htotal⟩ := hloop
  have hm : ((s.withDev (putData s.dev (s.gets stdin.input) stdin.input)).withUsed
      (s.usedBlocks.takes (s.gets stdin.input))).Moves (writePartial o r.1 r.2).1 :=
    ⟨q, block', hshell⟩
  have hsize : (writePartial o r.1 r.2).2.totalSize = storedSize 0 s.free stdin.input :=
    htotal.trans (Nat.zero_add _)
  rw [hfe, hsize]
  exact writeEntry_moves o hm hs.geometry hslot _

/-- A write to a file that has write permission. -/
theorem sfsWrite_moves (hs : s.Wf) {fn : List UInt8} {i : ℕ} (hi : s.volume.slotOf fn = some i)
    (hw : (s.volume.entry i).perms &&& 2 ≠ 0) (stdin : Stdin) (now : UInt32)
    (hslot : 512 + 64 * i < 2 ^ 31) (hblocks : ∀ b ∈ s.taken i stdin.input, b < 2 ^ 22) :
    (s.store i stdin.input now).Moves (sfsWrite o s fn stdin now).1 := by
  have hw : ¬ (entryAt s.dev i).perms &&& 2 = 0 := hw
  unfold sfsWrite
  rw [sfsLookup_found hs.geometry hi]
  simp only [show ¬ (i : ℤ) = -1 by omega, ↓reduceIte]
  rw [if_neg hw, putBlocks_eq]
  exact fill_moves (hs.cleared i) ⟨512 + 64 * (i + 1), s.block, rfl⟩ hslot stdin now hblocks rfl

/-- A write to a file that is missing or has no write permission. -/
theorem sfsWrite_refused (hg : Geometry s.sb) {fn : List UInt8} (stdin : Stdin) (now : UInt32)
    (h : ∀ i, s.volume.slotOf fn = some i → (s.volume.entry i).perms &&& 2 = 0) :
    s.Moves (sfsWrite o s fn stdin now).1 := by
  unfold sfsWrite
  cases hi : s.volume.slotOf fn with
  | none =>
    rw [sfsLookup_absent hg hi]
    exact ⟨_, _, rfl⟩
  | some i =>
    have hw : (entryAt s.dev i).perms &&& 2 = 0 := h i hi
    rw [sfsLookup_found hg hi]
    simp only [show ¬ (i : ℤ) = -1 by omega, ↓reduceIte]
    rw [if_pos hw]
    exact ⟨_, _, rfl⟩

theorem sfsWrite_effect (hs : s.Wf) (fn : List UInt8) (stdin : Stdin) (now : UInt32)
    (hr : (Command.write fn stdin now).Reaches s) :
    ∃ s', Effect s (.write fn stdin now) s' ∧ s'.Moves (sfsWrite o s fn stdin now).1 := by
  by_cases h : ∀ i, s.volume.slotOf fn = some i → (s.volume.entry i).perms &&& 2 = 0
  · exact ⟨s, .stay _, sfsWrite_refused hs.geometry stdin now h⟩
  · push Not at h
    obtain ⟨i, hi, hw⟩ := h
    obtain ⟨hslot, hblocks⟩ := hr i hi hw
    exact ⟨_, .write fn stdin now i hi hw, sfsWrite_moves hs hi hw stdin now hslot hblocks⟩

/-- Every command does one of these things. -/
theorem step_effect (hs : s.Wf) (c : Command) (hr : c.Reaches s) :
    ∃ s', Effect s c s' ∧ s'.Moves (step .bits32 s c) := by
  cases c with
  | list => exact ⟨s, .stay _, sfsList_moves s⟩
  | create fn now => exact sfsCreate_effect hs fn now
  | remove fn => exact sfsRemove_effect hs fn hr
  | chperm perm fn => exact sfsChperm_effect hs perm fn hr
  | read fn => exact ⟨s, .stay _, sfsRead_moves hs fn⟩
  | write fn stdin now => exact sfsWrite_effect hs fn stdin now hr

end Linuxpedia.RealFs
