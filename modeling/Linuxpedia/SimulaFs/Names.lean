import Linuxpedia.SimulaFs.Versions
import Linuxpedia.Sfs.Directory
import Linuxpedia.RealFs.Isolation

/-! Names in the tables of the three shells. The scan of `sfs_create` stops at the
first free slot, so a name in a slot behind it is not seen and gets a second entry.
As long as no creation of a run has its name behind the first free slot, names stay
unique, a name that is present is not created again and a removed name is gone. -/

namespace Linuxpedia.Sfs.Volume

variable {u u' : Volume} {i : ℕ} {fe : SfsFileEntry}

theorem Unique.congr (h : u.Unique) (hc : u'.count = u.count)
    (hent : ∀ j < u.count, u'.entry j = u.entry j) : u'.Unique := by
  intro j hj l hl
  rw [hc] at hj hl
  rw [hent j hj, hent l hl]
  exact h j hj l hl

/-- A slot may be rewritten unless its new name is in another one. -/
theorem Unique.change_iff (h : u.Unique) (hc : u'.count = u.count) (hi : i < u.count)
    (hent : ∀ j < u.count, u'.entry j = if j = i then fe else u.entry j) : u'.Unique ↔
      (fe.Named → ∀ j < u.count, j ≠ i → ¬ ((u.entry j).Named ∧ (u.entry j).cname = fe.cname)) := by
  constructor
  · rintro h' hn j hj hji ⟨hnj, hname⟩
    have hij := h' i (hc ▸ hi) j (hc ▸ hj)
    rw [hent i hi, hent j hj, if_pos rfl, if_neg hji] at hij
    exact hji (hij hn hnj hname.symm).symm
  · intro hnew j hj l hl hnj hnl hname
    rw [hc] at hj hl
    rw [hent j hj] at hnj hname
    rw [hent l hl] at hnl hname
    by_cases hji : j = i <;> by_cases hli : l = i
    · exact hji.trans hli.symm
    · rw [if_pos hji] at hnj hname
      rw [if_neg hli] at hnl hname
      exact absurd ⟨hnl, hname.symm⟩ (hnew hnj l hl hli)
    · rw [if_neg hji] at hnj hname
      rw [if_pos hli] at hnl hname
      exact absurd ⟨hnj, hname⟩ (hnew hnl j hj hji)
    · rw [if_neg hji] at hnj hname
      rw [if_neg hli] at hnl hname
      exact h j hj l hl hnj hnl hname

end Linuxpedia.Sfs.Volume

namespace Linuxpedia.SimulaFs

open Lib Sfs RealFs

variable {v : Version} {s : Shell}

/-- The layout, unique names, and names that end within their 16 bytes. -/
structure Tabled (v : Version) (s : Shell) : Prop extends v.Ready s where
  unique : s.volume.Unique
  terminated : ∀ i, s.volume.Live i → (s.volume.entry i).name 15 = 0

/-- No slot behind the first free one carries the name that is to be created. -/
def Unhidden (s : Shell) : Command → Prop
  | .create fn _ => ∀ i, s.volume.freeSlot = some i → ∀ j < s.volume.count, i < j →
      ¬ ((s.volume.entry j).Named ∧ (s.volume.entry j).cname = fn)
  | _ => True

instance (s : Shell) : DecidablePred (Unhidden s)
  | .create fn _ => inferInstanceAs (Decidable (∀ i ∈ s.volume.freeSlot,
      ∀ j < s.volume.count, i < j → ¬ ((s.volume.entry j).Named ∧ (s.volume.entry j).cname = fn)))
  | .list => .isTrue trivial
  | .remove _ => .isTrue trivial
  | .chperm _ _ => .isTrue trivial
  | .read _ => .isTrue trivial
  | .write _ _ _ => .isTrue trivial

/-- A rewritten entry that keeps the name of its slot. -/
theorem Tabled.unique_keep (h : Tabled v s) {u : Volume} {i : ℕ} {fe : SfsFileEntry}
    (hc : u.count = s.volume.count) (hi : s.volume.Live i)
    (hent : ∀ j < s.volume.count, u.entry j = if j = i then fe else s.volume.entry j)
    (hname : fe.name = (s.volume.entry i).name) : u.Unique := by
  rw [h.unique.change_iff hc hi.1 hent]
  rintro _ j hj hji ⟨hn, hcn⟩
  rw [SfsFileEntry.cname_congr hname (h.terminated i hi)] at hcn
  exact hji (h.unique j hj i hi.1 hn hi.2 hcn)

/-- A creation keeps names unique exactly when the name is not hidden. -/
theorem create_unique_iff (h : Tabled v s) {fn : List UInt8} (hn : SfsFileEntry.NameOk fn)
    (now : UInt32) : (v.act s (.create fn now)).volume.Unique ↔ Unhidden s (.create fn now) := by
  cases hi : s.volume.createSlot fn with
  | none =>
    rw [Version.act_create_none hi]
    refine iff_of_true h.unique ?_
    intro i hfree j hj hij hm
    obtain ⟨hlt, hf, hpre⟩ := Volume.freeSlot_eq_some.mp hfree
    have hmeet : ∃ l < i, (s.volume.entry l).cname = fn := by
      by_contra hno
      push Not at hno
      have hsome := Volume.createSlot_eq_some.mpr ⟨hlt, hf, fun l hl => ⟨hpre l hl, hno l hl⟩⟩
      rw [hi] at hsome
      cases hsome
    obtain ⟨l, hl, hname⟩ := hmeet
    have hlj := h.unique l (by omega) j hj (hpre l hl) hm.1 (hname.trans hm.2.symm)
    omega
  | some i =>
    obtain ⟨hlt, hf, hpre⟩ := Volume.createSlot_eq_some.mp hi
    have hfree : s.volume.freeSlot = some i :=
      Volume.freeSlot_eq_some.mpr ⟨hlt, hf, fun j hj => (hpre j hj).1⟩
    have hname := SfsFileEntry.cname_fresh hn now 7
    have hnamed : (SfsFileEntry.fresh fn now 7).Named := by
      rw [SfsFileEntry.named_iff, hname]
      exact List.ne_nil_of_length_pos hn.1
    have hchange := Version.change_create (v := v) hi now
    rw [h.unique.change_iff (Version.act_count _) hlt (Version.act_entries h.geometry hchange), hname]
    constructor
    · intro hnew l hl j hj hlj
      obtain rfl : i = l := Option.some.inj (hfree.symm.trans hl)
      exact hnew hnamed j hj (by omega)
    · intro hun _ j hj hji hm
      rcases Nat.lt_or_gt_of_ne hji with hlt' | hgt
      · exact (hpre j hlt').2 hm.2
      · exact hun i hfree j hj hgt hm

/-- One command keeps names unique exactly when it does not create a hidden name. -/
theorem act_unique_iff (h : Tabled v s) {c : Command} (hn : c.NameOk) :
    (v.act s c).volume.Unique ↔ Unhidden s c := by
  cases hc : v.change s c with
  | none =>
    cases c with
    | create fn now => exact create_unique_iff h (hn fn rfl) now
    | list => exact iff_of_true h.unique trivial
    | remove fn =>
      rw [Version.act_of_change_none hc]
      exact iff_of_true h.unique trivial
    | chperm perm fn =>
      rw [Version.act_of_change_none hc]
      exact iff_of_true h.unique trivial
    | read fn => exact iff_of_true h.unique trivial
    | write fn stdin now =>
      rw [Version.act_of_change_none hc]
      exact iff_of_true h.unique trivial
  | some r =>
    have hent := Version.act_entries h.geometry hc
    have hrw := Version.rewrites_of_change hc
    have hlt := hrw.lt
    generalize r.1 = i, r.2 = fe at hent hrw hlt
    cases hrw with
    | create fn now _ hi => exact create_unique_iff h (hn fn rfl) now
    | remove fn _ hi =>
      refine iff_of_true ?_ trivial
      rw [h.unique.change_iff (Version.act_count _) hlt hent]
      exact fun hz => absurd hz SfsFileEntry.zero_not_named
    | chperm perm fn _ hi =>
      have hlive := Volume.live_of_slotOf (Version.permSlot_eq_some.mp hi).2
      exact iff_of_true (h.unique_keep (Version.act_count _) hlive hent rfl) trivial
    | write fn stdin now _ hi =>
      have hlive := Volume.live_of_slotOf (Version.writeSlot_eq_some.mp hi).2.1
      exact iff_of_true (h.unique_keep (Version.act_count _) hlive hent rfl) trivial

/-- Names stay terminated. -/
theorem act_terminated (hg : Geometry s.sb)
    (ht : ∀ i, s.volume.Live i → (s.volume.entry i).name 15 = 0) (c : Command) :
    ∀ i, (v.act s c).volume.Live i → ((v.act s c).volume.entry i).name 15 = 0 := by
  have hall := Version.act_forall (v := v) (P := fun fe => fe.Named → fe.name 15 = 0) hg c
    (fun i hi hn => ht i ⟨hi, hn⟩) (by
      intro i fe hrw
      cases hrw with
      | create => exact fun _ => rfl
      | remove => exact fun _ => rfl
      | chperm perm fn _ hi =>
        exact fun _ => ht i (Volume.live_of_slotOf (Version.permSlot_eq_some.mp hi).2)
      | write fn stdin now _ hi =>
        exact fun _ => ht i (Volume.live_of_slotOf (Version.writeSlot_eq_some.mp hi).2.1))
  intro i hi
  exact hall i (Version.act_count (v := v) c ▸ hi.1) hi.2

/-! ### One command -/

/-- The step leaves unique names; the creation of a name that is present is refused and
changes no entry; a removed name is not found again. -/
def KeepsNames (v : Version) (s : Shell) (c : Command) : Prop :=
  (v.step .bits32 s c).volume.Unique ∧
  (∀ fn now, c = .create fn now → (RealFs.sfsLookup .bits32 s fn).2.1 ≠ -1 →
    (v.run .bits32 s c).2 = [.text "File %s already exists\n" fn] ∧
      (v.step .bits32 s c).dev = s.dev) ∧
  (∀ fn, c = .remove fn → (RealFs.sfsLookup .bits32 (v.step .bits32 s c) fn).2.1 = -1)

theorem present_of_lookup (hg : Geometry s.sb) {o : OffT} {fn : List UInt8}
    (h : (RealFs.sfsLookup o s fn).2.1 ≠ -1) : s.volume.slotOf fn ≠ none := by
  intro hi
  rw [RealFs.sfsLookup_absent hg hi] at h
  exact h rfl

/-- A name that is present and not hidden is met by the scan. -/
theorem createSlot_eq_none {fn : List UInt8} {now : UInt32} (h : Unhidden s (.create fn now))
    (hp : s.volume.slotOf fn ≠ none) : s.volume.createSlot fn = none := by
  rw [Option.eq_none_iff_forall_ne_some]
  intro i hi
  obtain ⟨hlt, hf, hpre⟩ := Volume.createSlot_eq_some.mp hi
  have hfree : s.volume.freeSlot = some i :=
    Volume.freeSlot_eq_some.mpr ⟨hlt, hf, fun j hj => (hpre j hj).1⟩
  obtain ⟨j, hj⟩ := Option.ne_none_iff_exists'.mp hp
  obtain ⟨hjlt, hm, _⟩ := Volume.slotOf_eq_some.mp hj
  rcases Nat.lt_trichotomy j i with hji | rfl | hij
  · exact (hpre j hji).2 hm.2
  · exact hf hm.1
  · exact h i hfree j hjlt hij hm

/-- The only slot of a name is emptied. -/
theorem slotOf_remove (h : Tabled v s) (fn : List UInt8) :
    (v.act s (.remove fn)).volume.slotOf fn = none := by
  cases hi : s.volume.slotOf fn with
  | none =>
    rw [Version.act_remove_none hi]
    exact hi
  | some i =>
    obtain ⟨hlt, hm, _⟩ := Volume.slotOf_eq_some.mp hi
    refine Volume.first_eq_none.mpr fun j hj hmj => ?_
    rw [Version.act_count] at hj
    rw [Version.act_entries h.geometry (Version.change_remove hi) j hj] at hmj
    split_ifs at hmj with hji
    · exact SfsFileEntry.zero_not_named hmj.1
    · exact hji (h.unique j hj i hlt hmj.1 hm.1 (hmj.2.trans hm.2.symm))

theorem keepsNames_iff (h : Tabled v s) {c : Command} (hn : c.NameOk) (hr : v.Reaches s c) :
    KeepsNames v s c ↔ Unhidden s c := by
  have hm := Version.step_act h.toReady c hr
  obtain ⟨p, block, hstep⟩ := hm
  have hvolume : (v.step .bits32 s c).volume = (v.act s c).volume := by
    rw [hstep, Shell.moved_volume]
  unfold KeepsNames
  rw [hvolume, act_unique_iff h hn, and_iff_left_iff_imp]
  intro hun
  constructor
  · rintro fn now rfl hlookup
    have hp := present_of_lookup h.geometry hlookup
    have hnone := createSlot_eq_none hun hp
    constructor
    · have hrun : v.run .bits32 s (.create fn now) = RealFs.sfsCreate .bits32 s fn now := by
        cases v <;> rfl
      rw [hrun]
      rcases sfsCreate_cases h.geometry fn now with ⟨i, hi, _⟩ | ⟨_, _, hout⟩
      · rw [hnone] at hi
        cases hi
      · exact hout hp
    · rw [hstep, Shell.moved_dev, Version.act_create_none hnone]
  · rintro fn rfl
    have hg : Geometry (v.step .bits32 s (.remove fn)).sb := by
      rw [hstep, Shell.moved_sb, Version.act_sb]
      exact h.geometry
    rw [RealFs.sfsLookup_absent hg (by rw [hvolume]; exact slotOf_remove h fn)]

/-! ### Runs -/

theorem Tabled.of_moves {s' : Shell} (h : Tabled v s) (hm : s.Moves s') : Tabled v s' := by
  have hr := h.toReady.of_moves hm
  obtain ⟨p, block, rfl⟩ := hm
  exact ⟨hr, h.unique, h.terminated⟩

theorem Tabled.step (h : Tabled v s) {c : Command} (hn : c.NameOk) (hr : v.Reaches s c)
    (hun : Unhidden s c) : Tabled v (v.step .bits32 s c) :=
  Tabled.of_moves ⟨h.toReady.act c, (act_unique_iff h hn).mpr hun, act_terminated h.geometry h.terminated c⟩
    (Version.step_act h.toReady c hr)

theorem Tabled.of_fresh (h : v.Fresh s) : Tabled v s := by
  have hnot : ∀ i < s.volume.count, ¬ (s.volume.entry i).Named := by
    intro i hi
    change ¬ (entryAt s.dev i).Named
    rw [h.empty i hi]
    exact SfsFileEntry.zero_not_named
  exact ⟨h.toReady, fun i hi _ _ hn => absurd hn (hnot i hi),
    fun i hi => absurd hi.2 (hnot i hi.1)⟩

/-- In every run of any of the three shells from a formatted partition, names stay
unique exactly as long as no hidden name is created. -/
theorem names_unique_iff (v : Version) {bytes : ℕ} (hsize : bytes / 512 < 2 ^ 31)
    (hs : v.Started .bits32 bytes s) (commands : List Command) (hn : ∀ c ∈ commands, c.NameOk)
    (hr : Run.Along (v.step .bits32) v.Reaches s commands) :
    Run.Along (v.step .bits32) (KeepsNames v) s commands ↔
      Run.Along (v.step .bits32) Unhidden s commands := by
  have hlegal : Run.Along (v.step .bits32) (fun s c => v.Reaches s c ∧ c.NameOk) s commands :=
    hr.and (Run.along_of_mem _ hn)
  have hstep : ∀ (s : Shell) (c : Command), Tabled v s → v.Reaches s c ∧ c.NameOk →
      Unhidden s c → Tabled v (v.step .bits32 s c) := fun s c h hl hun => h.step hl.2 hl.1 hun
  have hiff : ∀ (s : Shell) (c : Command), Tabled v s → v.Reaches s c ∧ c.NameOk →
      (KeepsNames v s c ↔ Unhidden s c) := fun s c h hl => keepsNames_iff h hl.2 hl.1
  exact Run.along_iff hstep hiff (Tabled.of_fresh (hs.fresh hsize)) hlegal

/-- Two files, one removed and created again, in the v2.0 shell. -/
theorem names_unique_sample :
    Run.Along (Version.v2.step .bits32) (KeepsNames .v2) (sampleStart .v2)
        [.create [97] 0, .create [98] 0, .write [98] [[1]] 0, .remove [97], .create [97] 0] ↔
      Run.Along (Version.v2.step .bits32) Unhidden (sampleStart .v2)
        [.create [97] 0, .create [98] 0, .write [98] [[1]] 0, .remove [97], .create [97] 0] :=
  names_unique_iff .v2 (by decide) (sampleStart_started .v2)
    [.create [97] 0, .create [98] 0, .write [98] [[1]] 0, .remove [97], .create [97] 0]
    (by decide) ⟨trivial, trivial, by decide +kernel, by decide +kernel, trivial, trivial⟩

/-- `a` leaves a free slot in front of `b`, and `b` is created again. -/
def createdTwice : List Command := [.create [97] 0, .create [98] 0, .remove [97], .create [98] 0]

theorem createdTwice_not_unique (v : Version) :
    ¬ Run.Along (v.step .bits32) (KeepsNames v) (sampleStart v) createdTwice := by
  rintro ⟨_, _, _, ⟨hunique, _⟩, _⟩
  have htwice := hunique 0 (by cases v <;> decide +kernel) 1 (by cases v <;> decide +kernel)
    (by cases v <;> decide +kernel) (by cases v <;> decide +kernel)
    (by cases v <;> decide +kernel)
  exact absurd htwice (by decide)

/-- In each of the shells the partition has two entries `b`. -/
theorem names_not_unique : (∀ c ∈ createdTwice, c.NameOk) ∧
    (Version.v1.Started .bits32 5120 (sampleStart .v1) ∧
      ¬ Run.Along (Version.v1.step .bits32) (KeepsNames .v1) (sampleStart .v1) createdTwice) ∧
    (Version.v2.Started .bits32 5120 (sampleStart .v2) ∧
      ¬ Run.Along (Version.v2.step .bits32) (KeepsNames .v2) (sampleStart .v2) createdTwice) ∧
    Version.v3.Started .bits32 5120 (sampleStart .v3) ∧
      ¬ Run.Along (Version.v3.step .bits32) (KeepsNames .v3) (sampleStart .v3) createdTwice :=
  ⟨by decide, ⟨sampleStart_started .v1, createdTwice_not_unique .v1⟩,
    ⟨sampleStart_started .v2, createdTwice_not_unique .v2⟩,
    sampleStart_started .v3, createdTwice_not_unique .v3⟩

end Linuxpedia.SimulaFs
