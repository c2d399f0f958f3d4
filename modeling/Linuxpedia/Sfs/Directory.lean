import Linuxpedia.Sfs.Listing
import Linuxpedia.Lib.SlotMap

/-! The directory as a bounded finite map. The abstract directory takes names to
files; the driver's operations change it by inserting, removing or rewriting one
name. The entry table represents it as long as no two slots carry the same name,
which the creation scan keeps true by looking past the first free slot. -/

namespace Linuxpedia.Sfs

open Lib

/-- What the directory knows of a file. -/
@[ext] structure File where
  ino : ℤ
  size : UInt32
  perms : UInt32
  timestamp : UInt32
  blocks : Fin 9 → UInt32

/-- A partial map from names to files. -/
abbrev Dir := List UInt8 → Option File

namespace Dir

/-- What an operation does to a directory of at most `cap` names, and what it
returns. -/
inductive Step (cap : ℕ) (d : Dir) : Op → Dir → ℤ → Prop where
  | create (fn : List UInt8) (perms : ℤ) (now : UInt32) (ino : ℤ) (habsent : d fn = none)
      (hroom : (SlotMap.keys d).ncard < cap) (hino : 0 < ino)
      (hfresh : ∀ g f, d g = some f → f.ino ≠ ino) :
      Step cap d (.create fn perms now)
        (Function.update d fn (some ⟨ino, 0, UInt32.ofInt perms, now, fun _ => 0⟩)) ino
  | createFails (fn : List UInt8) (perms : ℤ) (now : UInt32)
      (h : ¬ (d fn = none ∧ (SlotMap.keys d).ncard < cap)) : Step cap d (.create fn perms now) d (-1)
  | lookup (fn : List UInt8) (f : File) (h : d fn = some f) : Step cap d (.lookup fn) d f.ino
  | lookupFails (fn : List UInt8) (h : d fn = none) : Step cap d (.lookup fn) d (-1)
  | remove (fn : List UInt8) (f : File) (h : d fn = some f) :
      Step cap d (.remove fn) (Function.update d fn none) f.ino
  | removeFails (fn : List UInt8) (h : d fn = none) : Step cap d (.remove fn) d (-1)
  | getBlock (fn : List UInt8) (f : File) (iblock : ℕ) (c : Bool) (blocks : Fin 9 → UInt32) (r : ℤ)
      (h : d fn = some f) (hblocks : ∀ k : Fin 9, k.val ≠ iblock → blocks k = f.blocks k) :
      Step cap d (.getBlock f.ino iblock c) (Function.update d fn (some { f with blocks := blocks })) r
  | update (fn : List UInt8) (f : File) (size timestamp perms : Option ℤ) (perms' : UInt32)
      (blocks : Fin 9 → UInt32) (h : d fn = some f)
      (hperms : perms' = perms.elim f.perms fun p => if p ≤ 7 then UInt32.ofInt p else f.perms)
      (hblocks : ∀ k, blocks k = f.blocks k ∨ blocks k = 0) :
      Step cap d (.update f.ino size timestamp perms)
        (Function.update d fn (some { f with
          size := size.elim f.size UInt32.ofInt
          timestamp := timestamp.elim f.timestamp UInt32.ofInt
          perms := perms'
          blocks := blocks })) 0

end Dir

namespace Volume

variable (v : Volume)

/-- The file in slot `i`. -/
def file (i : ℕ) : File :=
  ⟨(i : ℤ) + 1, (v.entry i).size, (v.entry i).perms, (v.entry i).timestamp, (v.entry i).blocks⟩

/-- What slot `i` adds to the directory. -/
def slots (i : ℕ) : Option (List UInt8 × File) :=
  if (v.entry i).Named then some ((v.entry i).cname, v.file i) else none

/-- The directory that the entry table represents. -/
def dir : Dir := fun fn => (v.slotOf fn).map v.file

/-- No two slots carry the same name. -/
def Unique : Prop := ∀ i < v.count, ∀ j < v.count, (v.entry i).Named → (v.entry j).Named →
  (v.entry i).cname = (v.entry j).cname → i = j

variable {v}

theorem slots_eq_some {i : ℕ} {fn : List UInt8} {f : File} : v.slots i = some (fn, f) ↔
    (v.entry i).Named ∧ (v.entry i).cname = fn ∧ v.file i = f := by
  unfold slots
  split_ifs with hn
  · simp [hn]
  · simp [hn]

theorem slots_eq_none {i : ℕ} : v.slots i = none ↔ ¬ (v.entry i).Named := by
  unfold slots
  split_ifs with hn <;> simp [hn]

theorem unique_iff : v.Unique ↔ SlotMap.Distinct v.count v.slots := by
  constructor
  · intro h i hi j hj fn f g hf hg
    obtain ⟨hni, rfl, _⟩ := slots_eq_some.mp hf
    obtain ⟨hnj, hc, _⟩ := slots_eq_some.mp hg
    exact h i hi j hj hni hnj hc.symm
  · intro h i hi j hj hni hnj hc
    exact h i hi j hj _ _ _ (slots_eq_some.mpr ⟨hni, hc, rfl⟩) (slots_eq_some.mpr ⟨hnj, rfl, rfl⟩)

/-- Without duplicates the table represents its directory. -/
theorem Unique.represents (h : v.Unique) : SlotMap.Represents v.count v.slots v.dir := by
  intro fn f
  unfold dir
  rw [Option.map_eq_some_iff]
  constructor
  · rintro ⟨i, hi, rfl⟩
    obtain ⟨hlt, ⟨hn, hc⟩, _⟩ := slotOf_eq_some.mp hi
    exact ⟨i, hlt, slots_eq_some.mpr ⟨hn, hc, rfl⟩⟩
  · rintro ⟨i, hi, hf⟩
    obtain ⟨hn, hc, rfl⟩ := slots_eq_some.mp hf
    refine ⟨i, slotOf_eq_some.mpr ⟨hi, ⟨hn, hc⟩, ?_⟩, rfl⟩
    rintro j hj ⟨hnj, hcj⟩
    exact absurd (h j (by omega) i hi hnj hn (hcj.trans hc.symm)) (Nat.ne_of_lt hj)

/-- The slots after slot `i` was rewritten. -/
theorem slots_put {v' : Volume} {i : ℕ} {fe : SfsFileEntry}
    (he : ∀ j, v'.entry j = if j = i then fe else v.entry j) :
    v'.slots = Function.update v.slots i (if fe.Named then
      some (fe.cname, ⟨(i : ℤ) + 1, fe.size, fe.perms, fe.timestamp, fe.blocks⟩) else none) := by
  funext j
  by_cases hj : j = i
  · subst hj
    simp only [slots, file, he, ↓reduceIte, Function.update_self]
  · simp only [slots, file, he, hj, ↓reduceIte, Function.update_of_ne hj]

/-- A directory determines its map: two that represent the same slots are equal. -/
theorem dir_eq_of_represents {d : Dir} (h : v.Unique)
    (hd : SlotMap.Represents v.count v.slots d) : v.dir = d := by
  funext fn
  apply Option.ext
  intro f
  exact (h.represents fn f).trans (hd fn f).symm

/-- Changing what the table represents. -/
theorem dir_of_slots (v' : Volume) {s : ℕ → Option (List UInt8 × File)} {d : Dir}
    (hs : v'.slots = s)
    (h : SlotMap.Represents v'.count s d ∧ SlotMap.Distinct v'.count s) :
    v'.Unique ∧ v'.dir = d := by
  rw [← hs] at h
  have hu := unique_iff.mpr h.2
  exact ⟨hu, dir_eq_of_represents hu h.1⟩

theorem dir_eq_none {fn : List UInt8} : v.dir fn = none ↔ v.slotOf fn = none :=
  Option.map_eq_none_iff

end Volume

/-- The names given to the operations are NUL-free strings of 1 to 15 bytes. -/
def Op.NamesOk : Op → Prop
  | .create fn _ _ => SfsFileEntry.NameOk fn
  | .lookup fn => SfsFileEntry.NameOk fn
  | .remove fn => SfsFileEntry.NameOk fn
  | _ => True

instance : DecidablePred Op.NamesOk
  | .create fn _ _ => inferInstanceAs (Decidable (SfsFileEntry.NameOk fn))
  | .lookup fn => inferInstanceAs (Decidable (SfsFileEntry.NameOk fn))
  | .remove fn => inferInstanceAs (Decidable (SfsFileEntry.NameOk fn))
  | .getBlock _ _ _ => .isTrue trivial
  | .update _ _ _ _ => .isTrue trivial

namespace Volume

variable {v : Volume}

theorem named_fresh {fn : List UInt8} (h : SfsFileEntry.NameOk fn) (now perms : UInt32) :
    (SfsFileEntry.fresh fn now perms).Named := by
  rw [SfsFileEntry.named_iff, SfsFileEntry.cname_fresh h]
  have hlen := h.1
  rintro rfl
  exact absurd hlen (by decide)

/-- The invariant of the directory: no name twice, every name terminated. -/
structure Catalog (v : Volume) : Prop where
  unique : v.Unique
  terminated : ∀ i < v.count, (v.entry i).Named → (v.entry i).name 15 = 0

namespace Catalog

/-- Rewriting a slot under its name changes one file of the directory. -/
theorem rewrite (h : v.Catalog) (v' : Volume) {i : ℕ} (fe : SfsFileEntry) (hi : v.Live i)
    (hname : fe.name = (v.entry i).name) (hc : v'.count = v.count)
    (he : ∀ j, v'.entry j = if j = i then fe else v.entry j) :
    v'.Catalog ∧ v'.dir = Function.update v.dir (v.entry i).cname
      (some ⟨(i : ℤ) + 1, fe.size, fe.perms, fe.timestamp, fe.blocks⟩) := by
  have hn : fe.Named := by
    unfold SfsFileEntry.Named
    rw [hname]
    exact hi.2
  have hcn := SfsFileEntry.cname_congr hname (h.terminated i hi.1 hi.2)
  have hs := slots_put he
  rw [if_pos hn, hcn] at hs
  have hr := h.unique.represents.rewrite (unique_iff.mp h.unique) hi.1
    (b := ⟨(i : ℤ) + 1, fe.size, fe.perms, fe.timestamp, fe.blocks⟩)
    (slots_eq_some.mpr ⟨hi.2, rfl, rfl⟩)
  rw [← hc] at hr
  obtain ⟨hu, hd⟩ := dir_of_slots v' hs hr
  refine ⟨⟨hu, ?_⟩, hd⟩
  intro j hj hnj
  rw [hc] at hj
  rw [he] at hnj ⊢
  split_ifs at hnj ⊢ with hji
  · rw [hname]
    exact h.terminated i hi.1 hi.2
  · exact h.terminated j hj hnj

/-- Filling the first free slot. -/
theorem create (h : v.Catalog) {fn : List UInt8} (hfn : SfsFileEntry.NameOk fn) (perms : ℤ)
    (now : UInt32) : (v.create fn perms now).1.Catalog ∧
      Dir.Step v.count v.dir (.create fn perms now) (v.create fn perms now).1.dir
        (v.create fn perms now).2 := by
  have hd := unique_iff.mp h.unique
  have hroom := h.unique.represents.ncard_lt_iff hd
  unfold Volume.create
  split
  · next i hs hi =>
    obtain ⟨hlt, hfree, _⟩ := freeSlot_eq_some.mp hi
    have habsent : v.dir fn = none := dir_eq_none.mpr hs
    have hslots := slots_put (v := v) (fun j => v.put_entry i j (.fresh fn now (UInt32.ofInt perms)))
    rw [if_pos (named_fresh hfn now _), SfsFileEntry.cname_fresh hfn] at hslots
    have hr := h.unique.represents.insert hd hlt
      (b := ⟨(i : ℤ) + 1, 0, UInt32.ofInt perms, now, fun _ => 0⟩) (slots_eq_none.mpr hfree) habsent
    obtain ⟨hu, hdir⟩ := dir_of_slots (v.put i _) hslots hr
    constructor
    · refine ⟨hu, fun j hj hn => ?_⟩
      rw [put_entry] at hn ⊢
      split_ifs at hn ⊢ with hji
      · rfl
      · exact h.terminated j hj hn
    · rw [hdir]
      refine .create fn perms now _ habsent (hroom.mpr ⟨i, hlt, slots_eq_none.mpr hfree⟩)
        (by omega) ?_
      intro g f hf
      obtain ⟨j, hj, hjf⟩ := (h.unique.represents g f).mp hf
      obtain ⟨hn, _, rfl⟩ := slots_eq_some.mp hjf
      intro he
      obtain rfl : j = i := by
        have hij : (j : ℤ) + 1 = (i : ℤ) + 1 := he
        omega
      exact hfree hn
  · next hno =>
    refine ⟨h, .createFails fn perms now ?_⟩
    rintro ⟨habsent, hlt⟩
    obtain ⟨j, hj, hnone⟩ := hroom.mp hlt
    cases hf : v.freeSlot with
    | none => exact first_eq_none.mp hf j hj (slots_eq_none.mp hnone)
    | some i => exact hno i (dir_eq_none.mp habsent) hf

theorem lookup (fn : List UInt8) :
    Dir.Step v.count v.dir (.lookup fn) v.dir (v.lookup fn) := by
  unfold Volume.lookup
  cases hs : v.slotOf fn with
  | none => exact .lookupFails fn (dir_eq_none.mpr hs)
  | some i => exact .lookup fn (v.file i) (by rw [dir, hs]; rfl)

/-- Clearing the slot of a name. -/
theorem remove (h : v.Catalog) (fn : List UInt8) : (v.remove fn).1.Catalog ∧
    Dir.Step v.count v.dir (.remove fn) (v.remove fn).1.dir (v.remove fn).2 := by
  unfold Volume.remove
  split
  · next i hs =>
    obtain ⟨hlt, ⟨hn, hc⟩, _⟩ := slotOf_eq_some.mp hs
    have hslots := slots_put (v := v) fun j => v.release_entry i j (v.entry i).prefixPtrs .zero
    rw [if_neg SfsFileEntry.zero_not_named] at hslots
    have hr := h.unique.represents.erase (unique_iff.mp h.unique) hlt
      (slots_eq_some.mpr ⟨hn, hc, rfl⟩)
    obtain ⟨hu, hdir⟩ := dir_of_slots (v.release i _ .zero) hslots hr
    constructor
    · refine ⟨hu, fun j hj hnj => ?_⟩
      rw [release_entry] at hnj ⊢
      split_ifs at hnj ⊢ with hji
      · exact absurd hnj SfsFileEntry.zero_not_named
      · exact h.terminated j hj hnj
    · rw [hdir]
      exact .remove fn (v.file i) (by rw [dir, hs]; rfl)
  · next hs => exact ⟨h, .removeFails fn (dir_eq_none.mpr hs)⟩

theorem dir_cname (h : v.Catalog) {i : ℕ} (hi : v.Live i) :
    v.dir (v.entry i).cname = some (v.file i) :=
  (h.unique.represents _ _).mpr ⟨i, hi.1, slots_eq_some.mpr ⟨hi.2, rfl, rfl⟩⟩

theorem getBlock (h : v.Catalog) {i : ℕ} (hi : v.Live i) (iblock : ℕ) (c : Bool) (r : ℤ) :
    (v.getBlock i iblock c).1.Catalog ∧ Dir.Step v.count v.dir (.getBlock ((i : ℤ) + 1) iblock c)
      (v.getBlock i iblock c).1.dir r := by
  have hstay : v.Catalog ∧ Dir.Step v.count v.dir (.getBlock ((i : ℤ) + 1) iblock c) v.dir r := by
    refine ⟨h, ?_⟩
    have hs : Dir.Step v.count v.dir (.getBlock ((i : ℤ) + 1) iblock c)
        (Function.update v.dir (v.entry i).cname (some (v.file i))) r :=
      .getBlock _ (v.file i) iblock c (v.file i).blocks r (h.dir_cname hi) fun _ _ => rfl
    rw [← h.dir_cname hi, Function.update_eq_self] at hs
    exact hs
  unfold Volume.getBlock
  split_ifs with hk hne hc
  · exact hstay
  · split
    · exact hstay
    · next b bs hb =>
      obtain ⟨hcat, hdir⟩ := h.rewrite (v.grant i ⟨iblock, hk⟩ b)
        ((v.entry i).point ⟨iblock, hk⟩ (UInt32.ofNat b)) hi rfl rfl fun j => v.grant_entry i j _ b
      refine ⟨hcat, ?_⟩
      rw [hdir]
      refine .getBlock _ (v.file i) iblock c _ r (h.dir_cname hi) fun k hki => ?_
      rw [point_blocks, if_neg fun he => hki (by rw [he])]
      rfl
  · exact hstay
  · exact hstay

theorem update (h : v.Catalog) {i : ℕ} (hi : v.Live i) (size timestamp perms : Option ℤ) :
    (v.update i size timestamp perms).Catalog ∧
      Dir.Step v.count v.dir (.update ((i : ℤ) + 1) size timestamp perms)
        (v.update i size timestamp perms).dir 0 := by
  unfold Volume.update
  obtain ⟨hcat, hdir⟩ := h.rewrite (v.release i _ _) (((v.entry i).withAttrs size timestamp
    perms).keep ((v.entry i).withAttrs size timestamp perms).sizeBlocks) hi rfl rfl
    fun j => v.release_entry i j _ _
  refine ⟨hcat, ?_⟩
  rw [hdir]
  refine .update _ (v.file i) size timestamp perms _ _ (h.dir_cname hi) rfl fun k => ?_
  rw [keep_blocks]
  split_ifs
  · exact Or.inr rfl
  · exact Or.inl rfl

/-- Every operation on live inodes is a step of the directory. -/
theorem run (h : v.Catalog) {op : Op} (hop : op.Legal v) (hn : op.NamesOk) :
    (v.run op).1.Catalog ∧ Dir.Step v.count v.dir op (v.run op).1.dir (v.run op).2 := by
  cases op with
  | create fn perms now => exact h.create hn perms now
  | lookup fn => exact ⟨h, lookup fn⟩
  | remove fn => exact h.remove fn
  | getBlock ino iblock c =>
    obtain ⟨i, rfl, hi⟩ := hop
    simp only [Volume.run, v2s_succ, Int.toNat_natCast]
    exact h.getBlock hi iblock c _
  | update ino size timestamp perms =>
    obtain ⟨i, rfl, hi⟩ := hop
    simp only [Volume.run, v2s_succ, Int.toNat_natCast]
    exact h.update hi size timestamp perms

/-- Listing emits every name of the directory once, with the inode of its file. -/
theorem listing (h : v.Catalog) (fPos : ℕ) :
    ((Sfs.listing v.entry v.count 0 fPos).map Dirent.name).Nodup ∧
    (∀ fn, fn ∈ (Sfs.listing v.entry v.count 0 fPos).map Dirent.name ↔ v.dir fn ≠ none) ∧
    ∀ e ∈ Sfs.listing v.entry v.count 0 fPos, ∃ f, v.dir e.name = some f ∧ f.ino = e.ino := by
  have hmap := listing_map v.entry v.count 0 fPos
  have hname : (Sfs.listing v.entry v.count 0 fPos).map Dirent.name =
      (namedSlots v.entry v.count 0).map fun j => (v.entry j).cname := by
    simpa [Function.comp_def] using congrArg (List.map Prod.fst) hmap
  have hlive : ∀ {j}, j ∈ namedSlots v.entry v.count 0 ↔ v.Live j := by
    intro j
    rw [mem_namedSlots]
    simp [Live]
  rw [hname]
  refine ⟨?_, ?_, ?_⟩
  · refine List.Nodup.map_on ?_ ((List.nodup_range' 1).filter _)
    intro i hi j hj hij
    have hli := hlive.mp hi
    have hlj := hlive.mp hj
    exact h.unique i hli.1 j hlj.1 hli.2 hlj.2 hij
  · intro fn
    rw [List.mem_map, ← SlotMap.mem_keys, h.unique.represents.mem_keys]
    constructor
    · rintro ⟨j, hj, rfl⟩
      exact ⟨j, (hlive.mp hj).1, v.file j, slots_eq_some.mpr ⟨(hlive.mp hj).2, rfl, rfl⟩⟩
    · rintro ⟨j, hj, f, hf⟩
      obtain ⟨hn, hc, _⟩ := slots_eq_some.mp hf
      exact ⟨j, hlive.mpr ⟨hj, hn⟩, hc⟩
  · intro e he
    have hmem : (e.name, e.ino) ∈ (namedSlots v.entry v.count 0).map
        fun j => ((v.entry j).cname, (j : ℤ) + 1) := by
      rw [← hmap]
      exact List.mem_map_of_mem he
    obtain ⟨j, hj, hje⟩ := List.mem_map.mp hmem
    obtain ⟨h1, h2⟩ := Prod.mk.inj hje
    exact ⟨v.file j, by rw [← h1]; exact h.dir_cname (hlive.mp hj), h2⟩

end Catalog

end Volume

variable {κ : Kernel} {m : Mount}

theorem Mount.Fresh.catalog (h : m.Fresh) : m.volume.Catalog := by
  have hno : ∀ i < m.volume.count, ¬ (m.volume.entry i).Named := by
    intro i hi
    rw [h.empty i hi]
    exact SfsFileEntry.zero_not_named
  exact ⟨fun i hi _ _ hn => absurd hn (hno i hi), fun i hi hn => absurd hn (hno i hi)⟩

/-- One operation of the driver is a step of the directory. -/
theorem step_directory (hκ : κ.Reliable) (hm : m.Wf) (h : m.volume.Catalog) {op : Op}
    (hop : op.Legal m.volume) (hn : op.NamesOk) : (step κ m op).volume.Catalog ∧
      Dir.Step m.sb.entryCount.toNat m.volume.dir op (step κ m op).volume.dir (op.run κ m).2 := by
  rw [(step_becomes hκ hm hop.addressed).volume, run_code hκ hm hop.addressed]
  exact h.run hop hn

/-- From a fresh mount, whose directory is empty, every operation of a run is a
step of the directory, and in the state reached `sfs_list` emits each name once. -/
theorem directory_refines (hκ : κ.Reliable) (hm : Mounted κ m) (ops : List Op)
    (hl : Run.Along (step κ) (fun m op => op.Legal m.volume ∧ op.NamesOk) m ops) :
    (∀ fn, m.volume.dir fn = none) ∧
    Run.Along (step κ) (fun m op => Dir.Step m.sb.entryCount.toNat m.volume.dir op
      (step κ m op).volume.dir (op.run κ m).2) m ops ∧
    ∀ fPos, ∃ fPos' es, (sfsList κ collect (Run.exec (step κ) m ops) fPos []).2 = (fPos', es, 0) ∧
      (es.map Dirent.name).Nodup ∧
      (∀ fn, fn ∈ es.map Dirent.name ↔ (Run.exec (step κ) m ops).volume.dir fn ≠ none) ∧
      ∀ e ∈ es, ∃ f, (Run.exec (step κ) m ops).volume.dir e.name = some f ∧ f.ino = e.ino := by
  have hf := hm.fresh hκ
  have h0 : m.Sane ∧ m.volume.Catalog := ⟨hf.sane, hf.catalog⟩
  have hstep : ∀ (m : Mount) (op : Op), m.Sane ∧ m.volume.Catalog →
      op.Legal m.volume ∧ op.NamesOk → (step κ m op).Sane ∧ (step κ m op).volume.Catalog :=
    fun m op h hop => ⟨h.1.step hκ hop.1, (step_directory hκ h.1.wf h.2 hop.1 hop.2).1⟩
  refine ⟨?_, ?_, ?_⟩
  · intro fn
    refine Volume.dir_eq_none.mpr (Volume.first_eq_none.mpr fun i hi hn => ?_)
    rw [hf.empty i hi] at hn
    exact SfsFileEntry.zero_not_named hn.1
  · exact Run.along_of_inv hstep
      (fun m op h hop => (step_directory hκ h.1.wf h.2 hop.1 hop.2).2) h0 hl
  · intro fPos
    obtain ⟨hs, hcat⟩ := Run.exec_inv hstep h0 hl
    obtain ⟨c, hc⟩ := sfsList_eq collect hκ hs.wf.geometry fPos []
    rw [feed_collect, List.nil_append] at hc
    rw [hc]
    exact ⟨_, _, rfl, hcat.listing fPos⟩

/-- Creating, finding and removing a file on the small device. -/
theorem directory_refines_sample : Run.Along (step sampleKernel)
    (fun m op => Dir.Step m.sb.entryCount.toNat m.volume.dir op
      (step sampleKernel m op).volume.dir (op.run sampleKernel m).2) sampleMount
    [.create [97] 7 0, .lookup [97], .update 1 (some 3) none none, .remove [97]] :=
  (directory_refines sampleKernel_reliable sampleMount_mounted
    [.create [97] 7 0, .lookup [97], .update 1 (some 3) none none, .remove [97]]
    ⟨⟨trivial, by decide⟩, ⟨trivial, by decide⟩, ⟨⟨0, rfl, by decide +kernel⟩, trivial⟩,
      ⟨trivial, by decide⟩, trivial⟩).2.1

end Linuxpedia.Sfs
