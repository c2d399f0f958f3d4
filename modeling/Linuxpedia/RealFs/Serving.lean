import Linuxpedia.RealFs.Commands
import Linuxpedia.RealFs.Restart

/-! The v3.0 shell serves the store of named files. It is looked at as the mount that has
its device and its table: what a command prints is read off the files, and each command
changes the file that it names. -/

namespace Linuxpedia.RealFs

open Lib Sfs

variable {o : OffT} {s : Shell}

/-! ### Texts -/

/-- The bytes of whole blocks cut to `n`, for any number of blocks. -/
theorem contents_eq (dev : Store) (bs : List UInt32) (n : ℕ) : contents dev bs n =
    (bs.flatMap fun b => dev.slice (512 * b.toNat) 512).take n := by
  induction bs generalizing n with
  | nil => exact List.take_nil.symm
  | cons b bs ih =>
    unfold contents
    rw [List.flatMap_cons, List.take_append, Store.length_slice, ih]
    congr 1
    simp only [Store.slice, Store.bytes, ← List.map_take, List.take_range, Nat.min_comm]

/-- Where nothing behind a rejected member passes, the members that pass are in front. -/
theorem filter_eq_takeWhile {α : Type*} {p : α → Bool} {l : List α}
    (h : l.Pairwise fun a b => p b = true → p a = true) : l.filter p = l.takeWhile p := by
  induction h with
  | nil => rfl
  | @cons a l ha _ ih =>
    rw [List.filter_cons, List.takeWhile_cons, ih]
    split_ifs with hp
    · rfl
    · rw [← ih]
      exact List.filter_eq_nil_iff.mpr fun b hb hpb => hp (ha b hb hpb)

/-- The blocks of a packed entry, in order. -/
theorem blocks_packed {fe : SfsFileEntry} (h : ∀ k : Fin 9, fe.blocks k ≠ 0 →
    ∀ j < k, fe.blocks j ≠ 0) : (List.ofFn fe.blocks).filter (· != 0) = fe.prefixPtrs := by
  refine filter_eq_takeWhile (List.pairwise_ofFn.mpr fun j k hjk hk => ?_)
  rw [bne_iff_ne] at hk ⊢
  exact h k hk j hjk

theorem filterMap_blockAt (dev : Store) (f : File) : (List.range 9).filterMap (blockAt dev f) =
    ((List.ofFn f.blocks).filter (· != 0)).map fun b => dev.slice (512 * b.toNat) 512 := by
  rw [← List.map_coe_finRange_eq_range, List.filterMap_map, List.ofFn_eq_map, List.filter_map,
    List.map_map, ← List.filterMap_eq_map, List.filterMap_filter]
  refine List.filterMap_congr fun k _ => ?_
  simp only [Function.comp_apply, blockAt_fin, bne_iff_ne, ne_eq]
  by_cases h0 : f.blocks k = 0
  · simp [h0]
  · simp [h0]

/-- The text of a file is what its pointers up to the first zero one hold. -/
theorem text_nodeAt (dev : Store) {v : Volume} (hp : v.Packed) {i : ℕ} (hi : i < v.count) :
    (nodeAt dev (v.file i)).text =
      contents dev (v.entry i).prefixPtrs (v.entry i).size.toNat := by
  rw [contents_eq, ← blocks_packed (hp i hi)]
  unfold Node.text
  refine congrArg (List.take _) ?_
  refine (congrArg List.flatten (filterMap_blockAt dev (v.file i))).trans ?_
  exact List.flatMap_def.symm

/-! ### What commands print -/

/-- Blocks behind the bytes do not matter. -/
theorem contents_append (dev : Store) (bs rest : List UInt32) {n : ℕ} (h : n ≤ 512 * bs.length) :
    contents dev (bs ++ rest) n = contents dev bs n := by
  have hlen : (bs.flatMap fun b => dev.slice (512 * b.toNat) 512).length = 512 * bs.length := by
    simp [List.length_flatMap, Nat.mul_comm]
  rw [contents_eq, contents_eq, List.flatMap_append, List.take_append_of_le_length (by omega)]

/-- A zero pointer ends the loop of `sfs_read`. -/
theorem sfsReadLoop_takeWhile (bs : List UInt32) (s : Shell) (remToRead : UInt32)
    (out : List UInt8) : sfsReadLoop o bs s remToRead out =
      sfsReadLoop o (bs.takeWhile (· != 0)) s remToRead out := by
  induction bs generalizing s remToRead out with
  | nil => rfl
  | cons b bs ih =>
    rw [List.takeWhile_cons]
    by_cases hb : b = 0
    · subst hb
      rfl
    · rw [if_pos (bne_iff_ne.mpr hb)]
      unfold sfsReadLoop
      simp only [if_neg hb, ih]

theorem sfsListLoop_out (dev : Store) (n i : ℕ) (out : List Output) :
    (sfsListLoop n ⟨dev, 512 + 64 * i⟩ out).2 = out ++ (namedSlots (entryAt dev) n i).map
      fun j => .line (entryAt dev j).cname (asInt (entryAt dev j).size)
        (permChars (entryAt dev j).perms) (entryAt dev j).timestamp := by
  induction n generalizing i out with
  | zero => exact (List.append_nil out).symm
  | succ n ih =>
    unfold sfsListLoop
    rw [readEntry_slot, namedSlots, List.range'_succ, List.filter_cons]
    by_cases hn : (entryAt dev i).Named
    · simp only [hn, ↓reduceIte, decide_true]
      rw [ih, List.append_assoc]
      rfl
    · simp only [hn, ↓reduceIte, decide_false, Bool.false_eq_true]
      exact ih (i + 1) out

section Outputs

variable (hg : Geometry s.sb)

include hg

theorem sfsList_out : (sfsList o s).2 = (namedSlots s.volume.entry s.volume.count 0).map
    fun j => .line (s.volume.entry j).cname (asInt (s.volume.entry j).size)
      (permChars (s.volume.entry j).perms) (s.volume.entry j).timestamp := by
  unfold sfsList
  rw [seekTable_eq hg]
  exact sfsListLoop_out s.dev s.sb.entryCount.toNat 0 []

/-- Creating a file that is not there. -/
theorem sfsCreate_absent {fn : List UInt8} (habsent : s.volume.slotOf fn = none) (now : UInt32) :
    (∃ i, s.volume.freeSlot = some i ∧
      (s.putSlot i (.fresh fn now 7)).Moves (sfsCreate .bits32 s fn now).1 ∧
      (sfsCreate .bits32 s fn now).2 = []) ∨
    (s.volume.freeSlot = none ∧ s.Moves (sfsCreate .bits32 s fn now).1 ∧
      (sfsCreate .bits32 s fn now).2 = [.text "No entries left\n" fn]) := by
  have hno := Volume.first_eq_none.mp habsent
  have hloop := sfsCreateLoop_cases fn s.dev s.sb.entryCount.toNat 0
  rw [Nat.mul_zero, Nat.add_zero, Nat.zero_add] at hloop
  unfold sfsCreate
  rw [seekTable_eq hg]
  simp only [Shell.moved]
  rcases hloop with ⟨j, _, hj, hfree, hpre, h⟩ | ⟨j, hj0, hj, hname, hpre, h⟩ | ⟨hall, h⟩
  · have hback : -s.sb.entrySize = -64 := by rw [hg.entrySize_eq]
    rw [h]
    refine Or.inl ⟨j, Volume.freeSlot_eq_some.mpr ⟨hj, hfree, fun l hl =>
      (hpre l (Nat.zero_le l) hl).1⟩, ?_⟩
    simp only [if_neg (Nat.ne_of_lt hj), hback]
    rw [show 512 + 64 * (j + 1) = 512 + 64 * j + 64 by omega, Handle.seekCur_back]
    exact ⟨⟨_, _, rfl⟩, trivial⟩
  · exact absurd ⟨hpre j hj0 le_rfl, hname⟩ (hno j hj)
  · rw [h]
    simp only [↓reduceIte]
    refine Or.inr ⟨?_, ⟨_, _, rfl⟩, trivial⟩
    exact Volume.first_eq_none.mpr fun i hi hf => hf (hall i (Nat.zero_le i) hi).1

/-- What is printed about a file that is not there. -/
theorem out_absent {fn : List UInt8} (habsent : s.volume.slotOf fn = none) (perm : ℤ)
    (stdin : Stdin) (now : UInt32) :
    (sfsRemove o s fn).2 = [.text "File %s doesn't exist\n" fn] ∧
    (sfsChperm o s fn perm).2 = [.text "File %s doesn't exist\n" fn] ∧
    (sfsRead o s fn).2 = [.text "File %s doesn't exist\n" fn] ∧
    (sfsWrite o s fn stdin now).2 = [.text "File %s doesn't exist\n" fn] := by
  have hl := sfsLookup_absent (o := o) hg habsent
  unfold sfsRemove sfsChperm sfsUpdate sfsRead sfsWrite
  rw [hl]
  exact ⟨rfl, rfl, rfl, rfl⟩

variable {fn : List UInt8} {i : ℕ} (hi : s.volume.slotOf fn = some i)

include hi

theorem sfsRemove_out : (sfsRemove o s fn).2 = [] := by
  unfold sfsRemove
  rw [sfsLookup_found hg hi]
  simp only [show ¬ (i : ℤ) = -1 by omega, ↓reduceIte]

theorem sfsChperm_out (perm : ℤ) : (sfsChperm o s fn perm).2 = [] := by
  unfold sfsChperm sfsUpdate
  rw [sfsLookup_found hg hi]
  simp only [show ¬ (i : ℤ) = -1 by omega, ↓reduceIte]

theorem sfsWrite_out (stdin : Stdin) (now : UInt32) : (sfsWrite o s fn stdin now).2 =
    if (s.volume.entry i).perms &&& 2 = 0 then
      [.text "File %s doesn't have write permissions\n" fn] else [] := by
  unfold sfsWrite
  rw [sfsLookup_found hg hi]
  simp only [show ¬ (i : ℤ) = -1 by omega, ↓reduceIte]
  exact apply_ite Prod.snd _ _ _

theorem sfsRead_refused (hr : (s.volume.entry i).perms &&& 4 = 0) :
    (sfsRead o s fn).2 = [.text "File %s doesn't have read permissions\n" fn] := by
  have hr : (entryAt s.dev i).perms &&& 4 = 0 := hr
  unfold sfsRead
  rw [sfsLookup_found hg hi]
  simp only [show ¬ (i : ℤ) = -1 by omega, ↓reduceIte, if_pos hr]

/-- Reading a file with pointers below `2 ^ 22`, whatever its size. -/
theorem sfsRead_pointers (hr : (s.volume.entry i).perms &&& 4 ≠ 0)
    (hb : ∀ b ∈ (s.volume.entry i).prefixPtrs, b.toNat < 2 ^ 22) : (sfsRead o s fn).2 =
      [.data (contents s.dev (s.volume.entry i).prefixPtrs (s.volume.entry i).size.toNat)] := by
  have hr : ¬ (entryAt s.dev i).perms &&& 4 = 0 := hr
  have hout := sfsReadLoop_out (o := o) (entryAt s.dev i).prefixPtrs
    (s.moved (512 + 64 * (i + 1)) s.block) (entryAt s.dev i).size [] hg (by
      intro b hmem
      have hp := List.mem_of_mem_take hmem
      exact ⟨bne_iff_ne.mp (List.mem_takeWhile_imp (p := (· != 0)) hp), hb b hp⟩)
  rw [List.nil_append] at hout
  unfold sfsRead
  rw [sfsLookup_found hg hi]
  simp only [show ¬ (i : ℤ) = -1 by omega, ↓reduceIte, if_neg hr]
  rw [sfsReadLoop_takeWhile]
  exact congrArg (fun out => [Output.data out]) hout

end Outputs

/-! ### Permissions -/

theorem modeOfPerms_read (perms : UInt32) : modeOfPerms perms &&& 0o444 = 0 ↔ perms &&& 4 = 0 := by
  unfold modeOfPerms
  by_cases h : perms &&& 4 = 0
  · simp only [h, ne_eq, not_true_eq_false, ↓reduceIte, iff_true]
    split_ifs <;> decide
  · simp only [h, ne_eq, not_false_eq_true, ↓reduceIte, iff_false]
    split_ifs <;> decide

theorem modeOfPerms_write (perms : UInt32) : modeOfPerms perms &&& 0o222 = 0 ↔ perms &&& 2 = 0 := by
  unfold modeOfPerms
  by_cases h : perms &&& 2 = 0
  · simp only [h, ne_eq, not_true_eq_false, ↓reduceIte, iff_true]
    split_ifs <;> decide
  · simp only [h, ne_eq, not_false_eq_true, ↓reduceIte, iff_false]
    split_ifs <;> decide

theorem modeOfPerms_execute (perms : UInt32) :
    modeOfPerms perms &&& 0o111 = 0 ↔ perms &&& 1 = 0 := by
  unfold modeOfPerms
  by_cases h : perms &&& 1 = 0
  · simp only [h, ne_eq, not_true_eq_false, ↓reduceIte, iff_true]
    split_ifs <;> decide
  · simp only [h, ne_eq, not_false_eq_true, ↓reduceIte, iff_false]
    split_ifs <;> decide

/-- The line of the listing for an entry. -/
theorem line_nodeAt {dev : Store} {v : Volume} {i : ℕ} (hs : (v.entry i).size.toNat < 2 ^ 31) :
    (nodeAt dev (v.file i)).line (v.entry i).cname = .line (v.entry i).cname
      (asInt (v.entry i).size) (permChars (v.entry i).perms) (v.entry i).timestamp := by
  have hmode : (nodeAt dev (v.file i)).mode = modeOfPerms (v.entry i).perms := rfl
  unfold Node.line permChars
  rw [hmode, asInt_of_lt hs]
  simp only [ne_eq, modeOfPerms_read, modeOfPerms_write, modeOfPerms_execute]
  rfl

/-! ### The files of a shell -/

/-- The mount that has the device and the table of a shell. -/
def Shell.mount (s : Shell) : Mount :=
  { kzallocInfo s.dev with sb := s.sb, usedBlocks := s.usedBlocks }

/-- A settled shell on a small partition that serves the files `F`. -/
structure Serves (sb : SfsSuperBlock) (s : Shell) (F : Nodes) : Prop extends Settled s where
  small : s.sb.partitionSize.toNat ≤ 2 ^ 22
  serves : Sfs.Serves sb s.mount F

theorem Settled.serving (h : Settled s) (hc : s.volume.Catalog) : s.mount.Serving :=
  ⟨⟨⟨⟨h.geometry, h.onDevice, h.size⟩, h.settled.owned⟩, h.settled.packed, h.settled.exact⟩, hc⟩

namespace Serves

variable {sb : SfsSuperBlock} {F : Nodes} (h : Serves sb s F) {fn : List UInt8} {i : ℕ}

include h

theorem catalog : s.volume.Catalog := h.serves.serving.catalog

theorem of_moves {s' : Shell} (hm : s.Moves s') : Serves sb s' F := by
  have hs := h.toSettled.of_moves hm
  obtain ⟨p, block, rfl⟩ := hm
  exact ⟨hs, h.small, h.serves⟩

theorem slot {f : Node} (hf : F fn = some f) :
    ∃ i, s.volume.slotOf fn = some i ∧ f = nodeAt s.dev (s.volume.file i) := h.serves.slot hf

theorem absent (hf : F fn = none) : s.volume.slotOf fn = none := by
  rw [← h.serves.nodes] at hf
  exact nodes_eq_none.mp hf

/-- Where the directory changes under one name only and the blocks of the other files stay,
the shell serves the store with that name changed. -/
theorem update {s' : Shell} (hset : Settled s') (hsb : s'.sb = s.sb) {v : Volume} {f : Option File}
    (hv : v.Same s'.volume) (hd : v.Catalog ∧ v.dir = Function.update s.volume.dir fn f)
    (hrest : ∀ b : ℕ, (∃ g j k, g ≠ fn ∧ s.volume.slotOf g = some j ∧ s.volume.Held (j, k) b) →
      ∀ r < 512, s'.dev (512 * b + r) = s.dev (512 * b + r)) :
    Serves sb s' (Function.update F fn (f.map (nodeAt s'.dev))) := by
  refine ⟨hset, by rw [hsb]; exact h.small, hset.serving (hv.catalog hd.1),
    hsb.trans h.serves.sb_eq, ?_⟩
  rw [← h.serves.nodes]
  refine nodes_update (hv.dir.trans hd.2) fun g f hg hf => ?_
  refine Volume.Owned.nodeAt_congr (m := s.mount) h.settled.owned hf fun b hb _ => ?_
  obtain ⟨j, k, hj, hk⟩ := hb
  exact hrest b ⟨g, j, k, hg, hj, hk⟩

/-- Rewriting a slot under its name. -/
theorem rewrite {s' : Shell} (hset : Settled s') (hsb : s'.sb = s.sb)
    (hi : s.volume.slotOf fn = some i) (fe : SfsFileEntry)
    (hname : fe.name = (s.volume.entry i).name)
    (he : ∀ j < s.volume.count, s'.volume.entry j = if j = i then fe else s.volume.entry j)
    (hrest : ∀ b : ℕ, (∃ g j k, g ≠ fn ∧ s.volume.slotOf g = some j ∧ s.volume.Held (j, k) b) →
      ∀ r < 512, s'.dev (512 * b + r) = s.dev (512 * b + r)) :
    Serves sb s' (F.put fn (nodeAt s'.dev (s'.volume.file i))) := by
  have hlive := Volume.live_of_slotOf hi
  set v := (s.volume.put i fe).withUsed s'.usedBlocks with hvdef
  have hv : v.Same s'.volume := by
    refine ⟨?_, ?_, fun j hj => ?_, rfl, fun _ _ => rfl⟩
    · exact congrArg (fun sb => sb.entryCount.toNat) hsb
    · exact congrArg (fun sb => sb.dataBlockStart.toNat) hsb
    · exact (he j hj).trans (s.volume.put_entry i j fe).symm
  have hd := h.catalog.rewrite v fe hlive hname rfl fun j => s.volume.put_entry i j fe
  rw [(Volume.slotOf_eq_some.mp hi).2.1.2] at hd
  have hfile : s'.volume.file i = ⟨(i : ℤ) + 1, fe.size, fe.perms, fe.timestamp, fe.blocks⟩ := by
    unfold Volume.file
    rw [he i hlive.1, if_pos rfl]
  rw [hfile]
  exact h.update hset hsb hv hd hrest

/-- Slots lie in front of the blocks. -/
theorem putSlot_data (t : Buffer) (hi : i < s.volume.count) (fe : SfsFileEntry) {b : ℕ}
    (hb : s.volume.start ≤ b) (r : ℕ) :
    ((s.withUsed t).putSlot i fe).dev (512 * b + r) = s.dev (512 * b + r) := by
  have hslot := slot_lt_start h.geometry hi
  exact putSlot_outside (s := s.withUsed t) i fe (by omega)

/-- So a slot that changes leaves the blocks of every file. -/
theorem putSlot_blocks (t : Buffer) (hi : i < s.volume.count) (fe : SfsFileEntry) :
    ∀ b : ℕ, (∃ g j k, g ≠ fn ∧ s.volume.slotOf g = some j ∧ s.volume.Held (j, k) b) →
      ∀ r < 512, ((s.withUsed t).putSlot i fe).dev (512 * b + r) = s.dev (512 * b + r) := by
  rintro b ⟨_, j, k, _, _, hk⟩ r _
  exact h.putSlot_data t hi fe (h.settled.owned.data hk) r

/-- The shell after a file was removed. -/
theorem removed (hi : s.volume.slotOf fn = some i) :
    Serves sb ((s.withUsed (s.cleared i)).putSlot i .zero) (F.erase fn) := by
  have hlt := (Volume.live_of_slotOf hi).1
  have heff : Effect s (.remove fn) ((s.withUsed (s.cleared i)).putSlot i .zero) := .remove fn i hi
  have hremove := h.catalog.remove fn
  simp only [Volume.remove, hi] at hremove
  set v := s.volume.release i (s.volume.entry i).prefixPtrs .zero with hvdef
  have hd : v.dir = Function.update s.volume.dir fn none := by
    have hstep := hremove.2
    generalize v.dir = d at hstep
    generalize (i : ℤ) + 1 = ino at hstep
    cases hstep with
    | remove => rfl
    | removeFails _ hno =>
      rw [Volume.dir_eq_none, hi] at hno
      cases hno
  have hv : v.Same ((s.withUsed (s.cleared i)).putSlot i .zero).volume := by
    refine ⟨rfl, rfl, fun j _ => ?_, rfl, fun _ _ => rfl⟩
    exact (putSlot_entryAt (s := s.withUsed (s.cleared i)) i j _).trans
      (s.volume.release_entry i j _ _).symm
  have htidy : (Command.remove fn).Tidy s := trivial
  exact h.update (heff.settled h.toSettled htidy) rfl hv ⟨hremove.1, hd⟩
    (h.putSlot_blocks _ hlt _)

theorem ncard_lt_iff : (SlotMap.keys F).ncard < sb.capacity.names ↔
    s.volume.freeSlot ≠ none := by
  have hkeys : SlotMap.keys F = SlotMap.keys s.volume.dir := by
    rw [← h.serves.nodes]
    exact keys_nodes s.mount
  have hcap : sb.capacity.names = s.volume.count := by
    rw [← h.serves.sb_eq]
    rfl
  rw [hkeys, hcap, h.catalog.unique.represents.ncard_lt_iff (Volume.unique_iff.mp h.catalog.unique)]
  unfold Volume.freeSlot
  rw [ne_eq, Volume.first_eq_none]
  push Not
  simp only [Volume.slots_eq_none]

end Serves

/-- A command is carried out as the store carries it out. -/
def Carried (sb : SfsSuperBlock) (F : Nodes) (c : Command) (r : Shell × List Output) : Prop :=
  ∃ F', F.Command sb.capacity c r.2 F' ∧ Serves sb r.1 F'

namespace Serves

variable {sb : SfsSuperBlock} {F : Nodes} (h : Serves sb s F) {fn : List UInt8}

include h

theorem create (hfn : SfsFileEntry.NameOk fn) (habsent : F fn = none) (now : UInt32) :
    Carried sb F (.create fn now) (sfsCreate .bits32 s fn now) := by
  have hslot := h.absent habsent
  rcases sfsCreate_absent h.geometry hslot now with ⟨i, hi, hm, hout⟩ | ⟨hfull, hm, hout⟩
  · obtain ⟨hlt, hfree, hpre⟩ := Volume.freeSlot_eq_some.mp hi
    have hroom : (SlotMap.keys F).ncard < sb.capacity.names := h.ncard_lt_iff.mpr (by simp [hi])
    have heff : Effect s (.create fn now) (s.putSlot i (.fresh fn now 7)) :=
      .create fn now i hlt hfree fun j hj => ⟨hpre j hj, fun hc =>
        Volume.first_eq_none.mp hslot j (Nat.lt_trans hj hlt) ⟨hpre j hj, hc⟩⟩
    have hcreate := h.catalog.create hfn 7 now
    simp only [Volume.create, hslot, hi] at hcreate
    have hd : (s.volume.put i (.fresh fn now 7)).dir =
        Function.update s.volume.dir fn (some ⟨(i : ℤ) + 1, 0, 7, now, fun _ => 0⟩) := by
      have hstep := hcreate.2
      rw [show UInt32.ofInt 7 = 7 from rfl] at hstep
      generalize (s.volume.put i (.fresh fn now 7)).dir = d at hstep
      cases hstep
      rfl
    have hv : (s.volume.put i (.fresh fn now 7)).Same (s.putSlot i (.fresh fn now 7)).volume := by
      refine ⟨rfl, rfl, fun j _ => ?_, rfl, fun _ _ => rfl⟩
      exact (putSlot_entryAt i j _).trans (s.volume.put_entry i j _).symm
    have htidy : (Command.create fn now).Tidy s := trivial
    have hserves := h.update (heff.settled h.toSettled htidy) rfl hv ⟨hcreate.1, hd⟩
      (h.putSlot_blocks s.usedBlocks hlt _)
    refine ⟨_, ?_, hserves.of_moves hm⟩
    rw [hout]
    have hnode : nodeAt (s.putSlot i (.fresh fn now 7)).dev ⟨(i : ℤ) + 1, 0, 7, now, fun _ => 0⟩ =
        ⟨0, modeOfPerms 7, now, fun _ => none⟩ := by
      refine Node.ext rfl rfl rfl (funext fun k => ?_)
      by_contra hk
      obtain ⟨_, h0⟩ := blockAt_ne_none.mp hk
      exact h0 rfl
    rw [Option.map_some, hnode]
    exact .create fn now habsent hroom
  · refine ⟨F, ?_, h.of_moves hm⟩
    rw [hout]
    exact .createFails fn now fun hroom => h.ncard_lt_iff.mp hroom hfull

theorem remove (fn : List UInt8) : Carried sb F (.remove fn) (sfsRemove .bits32 s fn) := by
  cases hF : F fn with
  | none =>
    have hslot := h.absent hF
    refine ⟨F, ?_, h.of_moves (sfsRemove_absent h.geometry hslot)⟩
    rw [(out_absent h.geometry hslot 0 [] 0).1]
    exact .removeFails fn hF
  | some f =>
    obtain ⟨i, hi, _⟩ := h.slot hF
    have hlt := (Volume.live_of_slotOf hi).1
    have hm := sfsRemove_found (o := .bits32) h.geometry hi
      (reaches_of_small h.toWf h.small (.remove fn) i hi)
    refine ⟨F.erase fn, ?_, Serves.of_moves ?_ hm⟩
    · rw [sfsRemove_out h.geometry hi]
      exact .remove fn f hF
    · exact h.removed hi

/-- `sfs_chperm` changes the mode. -/
theorem chperm (perm : ℤ) (fn : List UInt8) :
    Carried sb F (.chperm perm fn) (sfsChperm .bits32 s fn perm) := by
  cases hF : F fn with
  | none =>
    have hslot := h.absent hF
    refine ⟨F, ?_, h.of_moves (sfsChperm_absent h.geometry perm hslot)⟩
    rw [(out_absent h.geometry hslot perm [] 0).2.1]
    exact .chpermFails perm fn hF
  | some f =>
    obtain ⟨i, hi, rfl⟩ := h.slot hF
    have hlt := (Volume.live_of_slotOf hi).1
    have hm := sfsChperm_found (o := .bits32) h.geometry perm hi
      (reaches_of_small h.toWf h.small (.chperm perm fn) i hi)
    set perms := newPerms perm (s.volume.entry i).perms with hperms
    have heff : Effect s (.chperm perm fn) (s.putSlot i { s.volume.entry i with perms := perms }) :=
      .chperm perm fn i perms hi
    have htidy : (Command.chperm perm fn).Tidy s := trivial
    have hserves := h.rewrite (heff.settled h.toSettled htidy) rfl hi
      { s.volume.entry i with perms := perms } rfl (fun j _ => putSlot_entryAt i j _)
      (h.putSlot_blocks s.usedBlocks hlt _)
    refine ⟨_, ?_, hserves.of_moves hm⟩
    rw [sfsChperm_out h.geometry hi]
    have hnode : nodeAt (s.putSlot i { s.volume.entry i with perms := perms }).dev
        ((s.putSlot i { s.volume.entry i with perms := perms }).volume.file i) =
        { nodeAt s.dev (s.volume.file i) with
          mode := if perm ≤ 7 then modeOfPerms (UInt32.ofInt perm)
            else (nodeAt s.dev (s.volume.file i)).mode } := by
      have hfile : (s.putSlot i { s.volume.entry i with perms := perms }).volume.file i =
          { s.volume.file i with perms := perms } := by
        unfold Volume.file
        rw [putSlot_entry_self]
      rw [hfile]
      refine Node.ext rfl ?_ rfl (funext fun k => ?_)
      · change modeOfPerms perms = _
        rw [hperms, newPerms, apply_ite modeOfPerms]
        rfl
      · change blockAt _ (s.volume.file i) k = _
        refine blockAt_congr fun hk h0 r _ => ?_
        exact h.putSlot_data s.usedBlocks hlt _
          (h.settled.owned.data (Volume.held_of_ne (k := ⟨k, hk⟩) hlt h0)) r
    rw [hnode]
    exact .chperm perm fn _ hF

/-- The listing has a line for each file. -/
theorem list (ht : F.Tidy) : Carried sb F .list (sfsList .bits32 s) := by
  have hlive : ∀ {j}, j ∈ namedSlots s.volume.entry s.volume.count 0 ↔ s.volume.Live j := by
    intro j
    rw [mem_namedSlots]
    simp [Volume.Live]
  have hfile : ∀ j, s.volume.Live j → F (s.volume.entry j).cname =
      some (nodeAt s.dev (s.volume.file j)) := by
    intro j hj
    rw [← h.serves.nodes]
    exact nodes_of_slot (m := s.mount) (h.catalog.slotOf_cname hj)
  have hline : ∀ j, s.volume.Live j → (nodeAt s.dev (s.volume.file j)).line
      (s.volume.entry j).cname = .line (s.volume.entry j).cname (asInt (s.volume.entry j).size)
        (permChars (s.volume.entry j).perms) (s.volume.entry j).timestamp :=
    fun j hj => line_nodeAt (ht _ _ (hfile j hj)).1
  refine ⟨F, ?_, h.of_moves (sfsList_moves s)⟩
  rw [sfsList_out h.geometry]
  refine .list _ ?_ fun l => ?_
  · refine List.Nodup.map_on ?_ ((List.nodup_range' 1).filter _)
    intro i hi j hj hij
    have hli := hlive.mp hi
    have hlj := hlive.mp hj
    exact h.catalog.unique i hli.1 j hlj.1 hli.2 hlj.2 (Output.line.inj hij).1
  · rw [List.mem_map]
    constructor
    · rintro ⟨j, hj, rfl⟩
      have hlj := hlive.mp hj
      exact ⟨_, _, hfile j hlj, (hline j hlj).symm⟩
    · rintro ⟨fn, f, hf, rfl⟩
      obtain ⟨j, hj, rfl⟩ := h.slot hf
      have hlj := Volume.live_of_slotOf hj
      refine ⟨j, hlive.mpr hlj, ?_⟩
      rw [← hline j hlj, (Volume.slotOf_eq_some.mp hj).2.1.2]

/-- `sfs_read` prints the text of a file. -/
theorem read (fn : List UInt8) : Carried sb F (.read fn) (sfsRead .bits32 s fn) := by
  refine ⟨F, ?_, h.of_moves (sfsRead_moves h.toWf fn)⟩
  cases hF : F fn with
  | none =>
    rw [(out_absent h.geometry (h.absent hF) 0 [] 0).2.2.1]
    exact .readFails fn hF
  | some f =>
    obtain ⟨i, hi, rfl⟩ := h.slot hF
    have hlt := (Volume.live_of_slotOf hi).1
    by_cases hr : (s.volume.entry i).perms &&& 4 = 0
    · rw [sfsRead_refused h.geometry hi hr]
      exact .readRefused fn _ hF ((modeOfPerms_read _).mpr hr)
    · rw [sfsRead_pointers h.geometry hi hr, ← text_nodeAt s.dev h.settled.packed hlt]
      · exact .read fn _ hF fun hm => hr ((modeOfPerms_read _).mp hm)
      · intro b hb
        obtain ⟨k, hk⟩ := Volume.held_of_mem_prefixPtrs hlt hb
        have hsize : s.volume.used.size = s.sb.partitionSize.toNat := h.size
        have hb := h.settled.owned.lt_size hk
        have hsmall := h.small
        omega

/-- The blocks that a write finds are those that the other files leave. -/
theorem length_freeFor {i : ℕ} (hi : s.volume.slotOf fn = some i) :
    (s.freeFor i).length = F.room sb.capacity fn := by
  have hremoved := (h.removed hi).serves
  have hlen := length_free hremoved.serving
  rw [hremoved.nodes, hremoved.sb_eq] at hlen
  have hfree : (s.freeFor i).length + (F.erase fn).stored.ncard = sb.capacity.blocks := by
    rw [← hlen, ← hremoved.sb_eq]
    rfl
  unfold Nodes.room
  omega

omit h in
/-- A write that overwrites every old pointer leaves those of the blocks taken. -/
theorem written_blocks_ne (hs : s.Wf) {i : ℕ} {input : List UInt8} (now : UInt32)
    (htorn : ¬ Torn 0 (s.freeFor i) input)
    (hold : ∀ k : Fin 9, (s.taken i input).length ≤ k.val → (s.volume.entry i).blocks k = 0)
    (k : Fin 9) : (s.written i input now).blocks k ≠ 0 ↔ k.val < (s.taken i input).length := by
  rw [written_blocks_tidy now htorn hold]
  cases hk : (s.taken i input)[k.val]? with
  | none => simpa using List.getElem?_eq_none_iff.mp hk
  | some b =>
    have hlt := (List.getElem?_eq_some_iff.mp hk).1
    obtain ⟨hlo, hhi, _⟩ := taken_range (List.mem_of_getElem? hk)
    have hpos := hs.start_pos
    have hle := hs.size_le
    refine iff_of_true (fun h0 => ?_) hlt
    have hb := congrArg UInt32.toNat h0
    rw [UInt32.toNat_ofNat', Nat.mod_eq_of_lt (by omega), UInt32.toNat_zero] at hb
    omega

omit h in
theorem prefixPtrs_written (hs : s.Wf) {i : ℕ} {input : List UInt8} (now : UInt32)
    (htorn : ¬ Torn 0 (s.freeFor i) input)
    (hold : ∀ k : Fin 9, (s.taken i input).length ≤ k.val → (s.volume.entry i).blocks k = 0) :
    (s.written i input now).prefixPtrs = (s.taken i input).map UInt32.ofNat := by
  have hne := written_blocks_ne hs now htorn hold
  have hsplit := List.take_append_drop (s.taken i input).length
    (List.ofFn (s.written i input now).blocks)
  have hfront : ∀ b ∈ (List.ofFn (s.written i input now).blocks).take (s.taken i input).length,
      (b != 0) = true := by
    intro b hb
    obtain ⟨j, hj, rfl⟩ := List.mem_take_iff_getElem.mp hb
    rw [List.getElem_ofFn, bne_iff_ne]
    exact (hne _).mpr (by simp only; omega)
  have hback : ∀ b ∈ (List.ofFn (s.written i input now).blocks).drop (s.taken i input).length,
      ¬ (b != 0) = true := by
    intro b hb
    obtain ⟨j, hj, rfl⟩ := List.mem_drop_iff_getElem.mp hb
    rw [List.getElem_ofFn, bne_iff_ne]
    exact fun hc => absurd ((hne _).mp hc) (by simp only; omega)
  have hnil : ((List.ofFn (s.written i input now).blocks).drop
      (s.taken i input).length).takeWhile (· != 0) = [] :=
    List.takeWhile_eq_nil_iff.mpr fun hl => hback _ (List.get_mem _ _)
  rw [← take_written_blocks i input now, SfsFileEntry.prefixPtrs, ← hsplit,
    List.takeWhile_append_of_pos hfront, hnil, List.append_nil, hsplit]

/-- The blocks that a write finds free are of no other file. -/
theorem not_free {i : ℕ} (hi : s.volume.slotOf fn = some i) {g : List UInt8} (hg : g ≠ fn) {j : ℕ}
    (hj : s.volume.slotOf g = some j) {k : Fin 9} {b : ℕ} (hk : s.volume.Held (j, k) b) :
    b ∉ s.freeFor i := by
  intro hb
  have hne : j ≠ i := by
    rintro rfl
    exact hg ((Volume.slotOf_eq_some.mp hj).2.1.2.symm.trans (Volume.slotOf_eq_some.mp hi).2.1.2)
  have hmarked := (h.settled.owned.ledger.marked hk).2
  have hlt := (Volume.live_of_slotOf hi).1
  refine (h.toSettled.cleared_cell hlt).mpr ⟨hmarked, ?_⟩ ((Buffer.mem_free _).mp hb).2.2
  rintro ⟨l, hl⟩
  exact hne (congrArg Prod.fst (h.settled.owned.ledger.inj hk hl))

/-- What a write leaves in the slot of a file. -/
theorem nodeAt_store {i : ℕ} (hi : s.volume.slotOf fn = some i) {input : List UInt8}
    (now : UInt32) (htorn : ¬ Torn 0 (s.freeFor i) input)
    (hold : ∀ k : Fin 9, (s.taken i input).length ≤ k.val → (s.volume.entry i).blocks k = 0)
    {g : Node} (hg : g = nodeAt (s.store i input now).dev ((s.store i input now).volume.file i)) :
    g.size = F.kept sb.capacity fn input ∧ g.mode = modeOfPerms (s.volume.entry i).perms ∧
      g.time = now ∧ (∀ k, g.block k ≠ none ↔ 512 * k < g.size) ∧ g.text = input.take g.size := by
  have hlive := Volume.live_of_slotOf hi
  have hself := store_entry_self h.geometry hlive.1 input now
  have hset := h.toSettled.settled
  have hvol := h.toSettled.store hlive now htorn hold
  have hcount : (s.store i input now).volume.count = s.volume.count := rfl
  have hsize : g.size = storedSize 0 (s.freeFor i) input := by
    rw [hg, nodeAt, Volume.file, hself]
    exact size_written now
  have hmode : g.mode = modeOfPerms (s.volume.entry i).perms := by
    rw [hg, nodeAt, Volume.file, hself]
    rfl
  have htime : g.time = now := by
    rw [hg, nodeAt, Volume.file, hself]
    rfl
  have hlen : (s.taken i input).length = (g.size + 511) / 512 := by rw [hsize, length_taken]
  have hle : g.size ≤ 512 * 9 := by
    rw [hsize]
    exact storedSize_le
  refine ⟨?_, hmode, htime, fun k => ?_, ?_⟩
  · rw [hsize, Nodes.kept, ← h.length_freeFor hi]
    rfl
  · have hblock : g.block k ≠ none ↔ ∃ hk : k < 9, (s.written i input now).blocks ⟨k, hk⟩ ≠ 0 := by
      rw [hg, nodeAt, Volume.file, hself]
      exact blockAt_ne_none
    rw [hblock]
    simp only [written_blocks_ne h.toWf now htorn hold, hlen]
    constructor
    · rintro ⟨hk9, hlt⟩
      omega
    · exact fun hk => ⟨by omega, by omega⟩
  · have hsplit := List.take_append_drop (s.taken i input).length
      (List.ofFn (s.written i input now).blocks)
    rw [take_written_blocks] at hsplit
    have hdata := contents_store h.toWf hlive.1 input now
    rw [← hsplit, contents_append _ _ _ (by rw [List.length_map]; omega), ← hsize] at hdata
    rw [hg, text_nodeAt _ hvol.packed (hcount ▸ hlive.1), hself,
      prefixPtrs_written h.toWf now htorn hold, size_written]
    rw [← hg, ← hsize]
    exact hdata

/-- `sfs_write` replaces the text of a file. -/
theorem write (fn : List UInt8) (stdin : Stdin) (now : UInt32)
    (hc : F.AllowedCommand sb.capacity (.write fn stdin now)) :
    Carried sb F (.write fn stdin now) (sfsWrite .bits32 s fn stdin now) := by
  cases hF : F fn with
  | none =>
    have hslot := h.absent hF
    have hm := sfsWrite_refused (o := .bits32) h.geometry stdin now
      (fun i hi => by rw [hslot] at hi; cases hi)
    refine ⟨F, ?_, h.of_moves hm⟩
    rw [(out_absent h.geometry hslot 0 stdin now).2.2.2]
    exact .writeFails fn stdin now hF
  | some f =>
    obtain ⟨i, hi, rfl⟩ := h.slot hF
    have hlt := (Volume.live_of_slotOf hi).1
    by_cases hw : (s.volume.entry i).perms &&& 2 = 0
    · have hm := sfsWrite_refused (o := .bits32) h.geometry stdin now
        (fun j hj => by rw [hi] at hj; cases hj; exact hw)
      refine ⟨F, ?_, h.of_moves hm⟩
      rw [sfsWrite_out h.geometry hi, if_pos hw]
      exact .writeRefused fn stdin now _ hF ((modeOfPerms_write _).mpr hw)
    · have hmode : (nodeAt s.dev (s.volume.file i)).mode &&& 0o222 ≠ 0 :=
        fun hm => hw ((modeOfPerms_write _).mp hm)
      obtain ⟨hcover, hroom⟩ := hc _ hF hmode
      have hlen : (s.taken i stdin.input).length =
          (F.kept sb.capacity fn stdin.input + 511) / 512 := by
        rw [length_taken, Nodes.kept, ← h.length_freeFor hi]
        rfl
      have htorn : ¬ Torn 0 (s.freeFor i) stdin.input := by
        rw [← h.length_freeFor hi] at hroom
        rintro ⟨h1, h2, h3⟩
        omega
      have hold : ∀ k : Fin 9, (s.taken i stdin.input).length ≤ k.val →
          (s.volume.entry i).blocks k = 0 := by
        intro k hk
        by_contra h0
        have hlt := hcover k.val (blockAt_ne_none.mpr ⟨k.isLt, h0⟩)
        omega
      have heff : Effect s (.write fn stdin now) (s.store i stdin.input now) :=
        .write fn stdin now i hi hw
      have htidy : (Command.write fn stdin now).Tidy s := by
        intro j hj _
        rw [hi] at hj
        cases hj
        exact ⟨htorn, hold⟩
      obtain ⟨hreach, hblocks⟩ := reaches_of_small h.toWf h.small (.write fn stdin now) i hi hw
      have hm := sfsWrite_moves (o := .bits32) h.toWf hi hw stdin now hreach hblocks
      have hrest : ∀ b : ℕ,
          (∃ g j k, g ≠ fn ∧ s.volume.slotOf g = some j ∧ s.volume.Held (j, k) b) →
          ∀ r < 512, (s.store i stdin.input now).dev (512 * b + r) = s.dev (512 * b + r) := by
        rintro b ⟨g, j, k, hg, hj, hk⟩ r hr
        exact store_block h.geometry hlt stdin.input now (h.settled.owned.data hk) hr
          fun hb => h.not_free hi hg hj hk (List.mem_of_mem_take hb)
      have hserves := h.rewrite (heff.settled h.toSettled htidy) rfl hi
        (s.written i stdin.input now) rfl
        (fun j hj => store_entryAt h.geometry i stdin.input now hj) hrest
      refine ⟨_, ?_, hserves.of_moves hm⟩
      rw [sfsWrite_out h.geometry hi, if_neg hw]
      obtain ⟨hsize, hmode', htime, hblock, htext⟩ := h.nodeAt_store hi now htorn hold rfl
      exact .write fn stdin now _ _ hF hmode hsize hmode' htime hblock htext

/-- Every allowed command is carried out as the store carries it out. -/
theorem run (ht : F.Tidy) {c : Command} (hc : F.AllowedCommand sb.capacity c) :
    Carried sb F c (c.run .bits32 s) := by
  cases c with
  | list => exact h.list ht
  | create fn now => exact h.create hc.1 hc.2 now
  | remove fn => exact h.remove fn
  | chperm perm fn => exact h.chperm perm fn
  | read fn => exact h.read fn
  | write fn stdin now => exact h.write fn stdin now hc

end Serves

end Linuxpedia.RealFs
