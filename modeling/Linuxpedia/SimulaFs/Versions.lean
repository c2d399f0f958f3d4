import Linuxpedia.SimulaFs.Browse

/-! The commands of the three shells on the slots. They differ in two points: what
happens to the blocks of a file that is removed or written again, and whether a
write asks for the permission. -/

namespace Linuxpedia.SimulaFs

open Lib Sfs RealFs

variable {s : Shell}

namespace Version

variable (v : Version)

/-- The allocation table once the file in slot `i` gives up its blocks: v3.0 frees
them. -/
def kept (s : Shell) (i : ℕ) : Buffer := if v = .v3 then s.cleared i else s.usedBlocks

/-- The slot whose permissions `sfs_chperm` sets. -/
def permSlot (s : Shell) (fn : List UInt8) : Option ℕ :=
  if v = .v1 then none else s.volume.slotOf fn

/-- The slot that `sfs_write` fills. -/
def writeSlot (s : Shell) (fn : List UInt8) : Option ℕ :=
  match v with
  | .v1 => none
  | .v2 => s.volume.slotOf fn
  | .v3 => (s.volume.slotOf fn).filter fun i => (s.volume.entry i).perms &&& 2 ≠ 0

/-- What a command does to the slots, the data blocks and the allocation table. -/
def act (s : Shell) : Command → Shell
  | .create fn now =>
    (s.volume.createSlot fn).elim s fun i => s.putSlot i (.fresh fn now 7)
  | .remove fn =>
    (s.volume.slotOf fn).elim s fun i => (s.withUsed (v.kept s i)).putSlot i .zero
  | .chperm perm fn =>
    (v.permSlot s fn).elim s fun i => s.putSlot i { s.volume.entry i with
      perms := newPerms perm (s.volume.entry i).perms }
  | .write fn stdin now =>
    (v.writeSlot s fn).elim s fun i => (s.withUsed (v.kept s i)).fill i stdin.input now
  | .list => s
  | .read _ => s

/-- The seeks of a command that writes are to offsets below `2 ^ 31`; v1.0 moves back
from where it is. -/
def Reaches (s : Shell) : Command → Prop
  | .remove fn => v ≠ .v1 → ∀ i, s.volume.slotOf fn = some i → 512 + 64 * i < 2 ^ 31
  | .chperm _ fn => ∀ i, v.permSlot s fn = some i → 512 + 64 * i < 2 ^ 31
  | .write fn stdin _ => ∀ i, v.writeSlot s fn = some i → 512 + 64 * i < 2 ^ 31 ∧
      ∀ b ∈ (s.withUsed (v.kept s i)).gets stdin.input, b < 2 ^ 22
  | _ => True

instance (s : Shell) : DecidablePred (v.Reaches s)
  | .remove fn => inferInstanceAs (Decidable (v ≠ .v1 →
      ∀ i ∈ s.volume.slotOf fn, 512 + 64 * i < 2 ^ 31))
  | .chperm _ fn => inferInstanceAs (Decidable (∀ i ∈ v.permSlot s fn, 512 + 64 * i < 2 ^ 31))
  | .write fn stdin _ => inferInstanceAs (Decidable (∀ i ∈ v.writeSlot s fn,
      512 + 64 * i < 2 ^ 31 ∧ ∀ b ∈ (s.withUsed (v.kept s i)).gets stdin.input, b < 2 ^ 22))
  | .list => .isTrue trivial
  | .create _ _ => .isTrue trivial
  | .read _ => .isTrue trivial

/-- The layout is the formatter's and the allocation table, where there is one, has a
byte per block. -/
structure Ready (s : Shell) : Prop where
  geometry : Geometry s.sb
  size : v ≠ .v1 → s.usedBlocks.size = s.sb.partitionSize.toNat

variable {v}

@[simp] theorem size_kept (i : ℕ) : (v.kept s i).size = s.usedBlocks.size := by
  unfold kept
  split_ifs
  · exact s.usedBlocks.size_clear _
  · rfl

theorem kept_v3 (i : ℕ) : kept .v3 s i = s.cleared i := if_pos rfl

theorem kept_of_ne (h : v ≠ .v3) (i : ℕ) : s.withUsed (v.kept s i) = s := by
  unfold kept
  rw [if_neg h]
  rfl

theorem act_create_some {fn : List UInt8} {i : ℕ} (h : s.volume.createSlot fn = some i)
    (now : UInt32) : v.act s (.create fn now) = s.putSlot i (.fresh fn now 7) := by
  rw [act, h, Option.elim_some]

theorem act_create_none {fn : List UInt8} (h : s.volume.createSlot fn = none) (now : UInt32) :
    v.act s (.create fn now) = s := by
  rw [act, h, Option.elim_none]

theorem act_remove_some {fn : List UInt8} {i : ℕ} (h : s.volume.slotOf fn = some i) :
    v.act s (.remove fn) = (s.withUsed (v.kept s i)).putSlot i .zero := by
  rw [act, h, Option.elim_some]

theorem act_remove_none {fn : List UInt8} (h : s.volume.slotOf fn = none) :
    v.act s (.remove fn) = s := by
  rw [act, h, Option.elim_none]

theorem act_chperm_some {fn : List UInt8} {i : ℕ} (h : v.permSlot s fn = some i) (perm : ℤ) :
    v.act s (.chperm perm fn) = s.putSlot i { s.volume.entry i with
      perms := newPerms perm (s.volume.entry i).perms } := by
  rw [act, h, Option.elim_some]

theorem act_chperm_none {fn : List UInt8} (h : v.permSlot s fn = none) (perm : ℤ) :
    v.act s (.chperm perm fn) = s := by
  rw [act, h, Option.elim_none]

theorem act_write_some {fn : List UInt8} {i : ℕ} (h : v.writeSlot s fn = some i) (stdin : Stdin)
    (now : UInt32) : v.act s (.write fn stdin now) =
      (s.withUsed (v.kept s i)).fill i stdin.input now := by
  rw [act, h, Option.elim_some]

theorem act_write_none {fn : List UInt8} (h : v.writeSlot s fn = none) (stdin : Stdin)
    (now : UInt32) : v.act s (.write fn stdin now) = s := by
  rw [act, h, Option.elim_none]

theorem Ready.wf (h : v.Ready s) (hv : v ≠ .v1) : s.Wf := ⟨h.geometry, h.size hv⟩

theorem Ready.kept (h : v.Ready s) (hv : v ≠ .v1) (i : ℕ) : (s.withUsed (v.kept s i)).Wf :=
  ⟨h.geometry, (size_kept i).trans (h.size hv)⟩

theorem permSlot_eq_some {fn : List UInt8} {i : ℕ} :
    v.permSlot s fn = some i ↔ v ≠ .v1 ∧ s.volume.slotOf fn = some i := by
  unfold permSlot
  split_ifs with hv
  · simp [hv]
  · simp [hv]

theorem writeSlot_eq_some {fn : List UInt8} {i : ℕ} : v.writeSlot s fn = some i ↔
    v ≠ .v1 ∧ s.volume.slotOf fn = some i ∧
      (v = .v3 → (s.volume.entry i).perms &&& 2 ≠ 0) := by
  cases v with
  | v1 => simp [writeSlot]
  | v2 => simp [writeSlot]
  | v3 => simp [writeSlot, Option.filter_eq_some_iff]

end Version

/-! ### The commands of v1.0 and v2.0 -/

section Commands

variable {o : OffT} {fn : List UInt8} {i : ℕ}

/-- The scan of v1.0 is a lookup. -/
theorem part19_remove_eq (o : OffT) (s : Shell) (fn : List UInt8) : Part19.sfsRemove o s fn =
    match RealFs.sfsLookup o s fn with
    | (t, i, _) =>
      if i = -1 then (t, [.text "File %s doesn't exist\n" fn])
      else
        ({ t with toHandle := (t.toHandle.seekCur o (-t.sb.entrySize)).writeEntry .zero }, []) :=
  rfl

theorem part19_remove_absent (hg : Geometry s.sb) (hi : s.volume.slotOf fn = none) :
    s.Moves (Part19.sfsRemove o s fn).1 := by
  rw [part19_remove_eq, RealFs.sfsLookup_absent hg hi]
  exact ⟨_, _, rfl⟩

theorem part19_remove_found (hg : Geometry s.sb) (hi : s.volume.slotOf fn = some i) :
    (s.putSlot i .zero).Moves (Part19.sfsRemove .bits32 s fn).1 := by
  have hback : -s.sb.entrySize = -64 := by rw [hg.entrySize_eq]
  rw [part19_remove_eq, RealFs.sfsLookup_found hg hi]
  simp only [show ¬ (i : ℤ) = -1 by omega, ↓reduceIte, Shell.moved_sb, hback]
  unfold Shell.moved
  rw [show 512 + 64 * (i + 1) = 512 + 64 * i + 64 by omega, Handle.seekCur_back]
  exact ⟨_, _, rfl⟩

theorem sfsRemove_absent (hg : Geometry s.sb) (hi : s.volume.slotOf fn = none) :
    s.Moves (SimulaFs.sfsRemove o s fn).1 := by
  unfold sfsRemove
  rw [sfsLookup_absent hg hi]
  exact ⟨_, _, rfl⟩

theorem sfsRemove_found (hg : Geometry s.sb) (hi : s.volume.slotOf fn = some i)
    (hslot : 512 + 64 * i < 2 ^ 31) : (s.putSlot i .zero).Moves (SimulaFs.sfsRemove o s fn).1 := by
  unfold sfsRemove
  rw [sfsLookup_found hg hi]
  simp only [show ¬ (i : ℤ) = -1 by omega, ↓reduceIte]
  have hm : s.Moves (s.moved (512 + 64 * (i + 1)) s.block) := ⟨_, _, rfl⟩
  exact writeEntry_moves o hm hg hslot _

theorem sfsRead_moves (hg : Geometry s.sb) (fn : List UInt8) :
    s.Moves (SimulaFs.sfsRead o s fn).1 := by
  unfold sfsRead
  cases hi : s.volume.slotOf fn with
  | none =>
    rw [sfsLookup_absent hg hi]
    exact ⟨_, s.block, rfl⟩
  | some i =>
    rw [sfsLookup_found hg hi]
    simp only [show ¬ (i : ℤ) = -1 by omega, ↓reduceIte]
    exact Shell.Moves.trans ⟨_, s.block, rfl⟩ (sfsReadLoop_moves _ _ _ _)

theorem sfsWrite_absent (hg : Geometry s.sb) (hi : s.volume.slotOf fn = none) (stdin : Stdin)
    (now : UInt32) : s.Moves (SimulaFs.sfsWrite o s fn stdin now).1 := by
  unfold sfsWrite
  rw [sfsLookup_absent hg hi]
  exact ⟨_, _, rfl⟩

theorem sfsWrite_found (hs : s.Wf) (hi : s.volume.slotOf fn = some i)
    (hslot : 512 + 64 * i < 2 ^ 31) (stdin : Stdin) (now : UInt32)
    (hblocks : ∀ b ∈ s.gets stdin.input, b < 2 ^ 22) :
    (s.fill i stdin.input now).Moves (SimulaFs.sfsWrite o s fn stdin now).1 := by
  unfold sfsWrite
  rw [sfsLookup_found hs.geometry hi]
  simp only [show ¬ (i : ℤ) = -1 by omega, ↓reduceIte]
  exact fill_moves hs ⟨512 + 64 * (i + 1), s.block, rfl⟩ hslot stdin now hblocks rfl

end Commands

namespace Version

variable {v : Version}

theorem step_create (hg : Geometry s.sb) (fn : List UInt8) (now : UInt32) :
    (v.act s (.create fn now)).Moves (v.step .bits32 s (.create fn now)) := by
  have hstep : v.step .bits32 s (.create fn now) = (RealFs.sfsCreate .bits32 s fn now).1 := by
    cases v <;> rfl
  rw [hstep]
  rcases sfsCreate_cases hg fn now with ⟨i, hi, hm⟩ | ⟨hi, hm, _⟩
  · rw [act_create_some hi]
    exact hm
  · rw [act_create_none hi]
    exact hm

theorem step_remove (hg : Geometry s.sb) {fn : List UInt8} (hr : v.Reaches s (.remove fn)) :
    (v.act s (.remove fn)).Moves (v.step .bits32 s (.remove fn)) := by
  cases hi : s.volume.slotOf fn with
  | none =>
    rw [act_remove_none hi]
    cases v with
    | v1 => exact part19_remove_absent hg hi
    | v2 => exact sfsRemove_absent hg hi
    | v3 => exact RealFs.sfsRemove_absent hg hi
  | some i =>
    rw [act_remove_some hi]
    cases v with
    | v1 =>
      rw [kept_of_ne (by decide)]
      exact part19_remove_found hg hi
    | v2 =>
      rw [kept_of_ne (by decide)]
      exact sfsRemove_found hg hi (hr (by decide) i hi)
    | v3 =>
      rw [kept_v3]
      exact RealFs.sfsRemove_found hg hi (hr (by decide) i hi)

theorem step_chperm (hg : Geometry s.sb) {perm : ℤ} {fn : List UInt8}
    (hr : v.Reaches s (.chperm perm fn)) :
    (v.act s (.chperm perm fn)).Moves (v.step .bits32 s (.chperm perm fn)) := by
  by_cases hv : v = .v1
  · rw [act_chperm_none (if_pos hv), hv]
    exact Shell.Moves.refl s
  · have hstep : v.step .bits32 s (.chperm perm fn) = (RealFs.sfsChperm .bits32 s fn perm).1 := by
      cases v
      · exact absurd rfl hv
      · rfl
      · rfl
    rw [hstep]
    cases hi : v.permSlot s fn with
    | none =>
      rw [act_chperm_none hi]
      exact sfsChperm_absent hg perm ((if_neg hv).symm.trans hi)
    | some i =>
      rw [act_chperm_some hi]
      exact sfsChperm_found hg perm (permSlot_eq_some.mp hi).2 (hr i hi)

theorem step_write (h : v.Ready s) {fn : List UInt8} {stdin : Stdin} {now : UInt32}
    (hr : v.Reaches s (.write fn stdin now)) :
    (v.act s (.write fn stdin now)).Moves (v.step .bits32 s (.write fn stdin now)) := by
  have hg := h.geometry
  cases hi : v.writeSlot s fn with
  | none =>
    rw [act_write_none hi]
    cases v with
    | v1 => exact Shell.Moves.refl s
    | v2 => exact sfsWrite_absent hg hi stdin now
    | v3 =>
      apply sfsWrite_refused hg stdin now
      intro i hslot
      by_contra hw
      have hsome : writeSlot .v3 s fn = some i := writeSlot_eq_some.mpr ⟨by decide, hslot, fun _ => hw⟩
      rw [hi] at hsome
      cases hsome
  | some i =>
    obtain ⟨hv, hslot, hw⟩ := writeSlot_eq_some.mp hi
    obtain ⟨hoff, hblocks⟩ := hr i hi
    rw [act_write_some hi]
    cases v with
    | v1 => exact absurd rfl hv
    | v2 =>
      rw [kept_of_ne (by decide)] at hblocks ⊢
      exact sfsWrite_found (h.wf hv) hslot hoff stdin now hblocks
    | v3 =>
      rw [kept_v3] at hblocks ⊢
      exact sfsWrite_moves (h.wf hv) hslot (hw rfl) stdin now hoff hblocks

/-- Each command does to the shell what `act` says. -/
theorem step_act (h : v.Ready s) (c : Command) (hr : v.Reaches s c) :
    (v.act s c).Moves (v.step .bits32 s c) := by
  cases c with
  | list => cases v <;> exact sfsList_moves s
  | create fn now => exact step_create h.geometry fn now
  | remove fn => exact step_remove h.geometry hr
  | chperm perm fn => exact step_chperm h.geometry hr
  | read fn =>
    cases v with
    | v1 => exact Shell.Moves.refl s
    | v2 => exact sfsRead_moves h.geometry fn
    | v3 => exact RealFs.sfsRead_moves (h.wf (by decide)) fn
  | write fn stdin now => exact step_write h hr

/-! ### The table -/

variable (v)

/-- The slot that a command rewrites, with its entry. -/
def change (s : Shell) : Command → Option (ℕ × SfsFileEntry)
  | .create fn now => (s.volume.createSlot fn).map fun i => (i, .fresh fn now 7)
  | .remove fn => (s.volume.slotOf fn).map fun i => (i, .zero)
  | .chperm perm fn => (v.permSlot s fn).map fun i => (i, { s.volume.entry i with
      perms := newPerms perm (s.volume.entry i).perms })
  | .write fn stdin now => (v.writeSlot s fn).map fun i =>
      (i, (s.withUsed (v.kept s i)).filled i stdin.input now)
  | .list => none
  | .read _ => none

variable {v}

theorem change_create {fn : List UInt8} {i : ℕ} (h : s.volume.createSlot fn = some i)
    (now : UInt32) : v.change s (.create fn now) = some (i, .fresh fn now 7) := by
  rw [change, h, Option.map_some]

theorem change_remove {fn : List UInt8} {i : ℕ} (h : s.volume.slotOf fn = some i) :
    v.change s (.remove fn) = some (i, .zero) := by
  rw [change, h, Option.map_some]

theorem change_write {fn : List UInt8} {i : ℕ} (h : v.writeSlot s fn = some i) (stdin : Stdin)
    (now : UInt32) : v.change s (.write fn stdin now) =
      some (i, (s.withUsed (v.kept s i)).filled i stdin.input now) := by
  rw [change, h, Option.map_some]

/-- The other slots stay. -/
theorem act_entry (hg : Geometry s.sb) (c : Command) {j : ℕ} (hj : j < s.volume.count) :
    entryAt (v.act s c).dev j = (v.change s c).elim (entryAt s.dev j) fun r =>
      if j = r.1 then r.2 else entryAt s.dev j := by
  cases c with
  | list => rfl
  | create fn now =>
    cases hi : s.volume.createSlot fn with
    | none => rw [act_create_none hi, change, hi]; rfl
    | some i => rw [act_create_some hi, change, hi]; exact putSlot_entryAt i j _
  | remove fn =>
    cases hi : s.volume.slotOf fn with
    | none => rw [act_remove_none hi, change, hi]; rfl
    | some i => rw [act_remove_some hi, change, hi]; exact putSlot_entryAt i j _
  | chperm perm fn =>
    cases hi : v.permSlot s fn with
    | none => rw [act_chperm_none hi, change, hi]; rfl
    | some i => rw [act_chperm_some hi, change, hi]; exact putSlot_entryAt i j _
  | read fn => rfl
  | write fn stdin now =>
    cases hi : v.writeSlot s fn with
    | none => rw [act_write_none hi, change, hi]; rfl
    | some i =>
      rw [act_write_some hi, change, hi]
      exact fill_entryAt (s := s.withUsed (v.kept s i)) hg i stdin.input now hj

variable (v) in
/-- The commands that rewrite a slot, with the slot and its entry. -/
inductive Rewrites (s : Shell) : Command → ℕ → SfsFileEntry → Prop where
  | create (fn : List UInt8) (now : UInt32) (i : ℕ) (hi : s.volume.createSlot fn = some i) :
      Rewrites s (.create fn now) i (.fresh fn now 7)
  | remove (fn : List UInt8) (i : ℕ) (hi : s.volume.slotOf fn = some i) :
      Rewrites s (.remove fn) i .zero
  | chperm (perm : ℤ) (fn : List UInt8) (i : ℕ) (hi : v.permSlot s fn = some i) :
      Rewrites s (.chperm perm fn) i { s.volume.entry i with
        perms := newPerms perm (s.volume.entry i).perms }
  | write (fn : List UInt8) (stdin : Stdin) (now : UInt32) (i : ℕ)
      (hi : v.writeSlot s fn = some i) :
      Rewrites s (.write fn stdin now) i ((s.withUsed (v.kept s i)).filled i stdin.input now)

theorem rewrites_of_change {c : Command} {r : ℕ × SfsFileEntry} (h : v.change s c = some r) :
    v.Rewrites s c r.1 r.2 := by
  cases c with
  | list => cases h
  | create fn now =>
    obtain ⟨i, hi, rfl⟩ := Option.map_eq_some_iff.mp h
    exact .create fn now i hi
  | remove fn =>
    obtain ⟨i, hi, rfl⟩ := Option.map_eq_some_iff.mp h
    exact .remove fn i hi
  | chperm perm fn =>
    obtain ⟨i, hi, rfl⟩ := Option.map_eq_some_iff.mp h
    exact .chperm perm fn i hi
  | read fn => cases h
  | write fn stdin now =>
    obtain ⟨i, hi, rfl⟩ := Option.map_eq_some_iff.mp h
    exact .write fn stdin now i hi

/-- The slot rewritten is one of the table. -/
theorem Rewrites.lt {c : Command} {i : ℕ} {fe : SfsFileEntry} (h : v.Rewrites s c i fe) :
    i < s.volume.count := by
  cases h with
  | create fn now _ hi => exact (Volume.createSlot_eq_some.mp hi).1
  | remove fn _ hi => exact (Volume.slotOf_eq_some.mp hi).1
  | chperm perm fn _ hi => exact (Volume.slotOf_eq_some.mp (permSlot_eq_some.mp hi).2).1
  | write fn stdin now _ hi =>
    exact (Volume.slotOf_eq_some.mp (writeSlot_eq_some.mp hi).2.1).1

/-- A command that rewrites no slot changes nothing. -/
theorem act_of_change_none {c : Command} (h : v.change s c = none) : v.act s c = s := by
  cases c with
  | list => rfl
  | create fn now => exact act_create_none (Option.map_eq_none_iff.mp h) now
  | remove fn => exact act_remove_none (Option.map_eq_none_iff.mp h)
  | chperm perm fn => exact act_chperm_none (Option.map_eq_none_iff.mp h) perm
  | read fn => rfl
  | write fn stdin now => exact act_write_none (Option.map_eq_none_iff.mp h) stdin now

/-- The effect of a command that rewrites slot `i`, by cases on the command. -/
theorem act_cases {c : Command} {i : ℕ} {fe : SfsFileEntry} (h : v.Rewrites s c i fe) :
    v.act s c = s.putSlot i fe ∨ v.act s c = (s.withUsed (v.kept s i)).putSlot i fe ∨
      ∃ input now, v ≠ .v1 ∧ v.act s c = (s.withUsed (v.kept s i)).fill i input now := by
  cases h with
  | create fn now _ hi => exact Or.inl (act_create_some hi now)
  | remove fn _ hi => exact Or.inr (Or.inl (act_remove_some hi))
  | chperm perm fn _ hi => exact Or.inl (act_chperm_some hi perm)
  | write fn stdin now _ hi =>
    exact Or.inr (Or.inr ⟨_, _, (writeSlot_eq_some.mp hi).1, act_write_some hi stdin now⟩)

theorem act_sb (c : Command) : (v.act s c).sb = s.sb := by
  cases hc : v.change s c with
  | none => rw [act_of_change_none hc]
  | some r =>
    rcases act_cases (rewrites_of_change hc) with h | h | ⟨input, now, _, h⟩
    · rw [h]; rfl
    · rw [h]; rfl
    · rw [h]; rfl

theorem act_size (c : Command) : (v.act s c).usedBlocks.size = s.usedBlocks.size := by
  cases hc : v.change s c with
  | none => rw [act_of_change_none hc]
  | some r =>
    rcases act_cases (rewrites_of_change hc) with h | h | ⟨input, now, _, h⟩
    · rw [h]; rfl
    · rw [h]; exact size_kept r.1
    · rw [h]; exact ((v.kept s r.1).size_takes _).trans (size_kept r.1)

/-- The super block on the device stays. -/
theorem act_superBlock (hg : Geometry s.sb) (c : Command) {a : ℕ} (ha : a < 512) :
    (v.act s c).dev a = s.dev a := by
  cases hc : v.change s c with
  | none => rw [act_of_change_none hc]
  | some r =>
    rcases act_cases (rewrites_of_change hc) with h | h | ⟨input, now, _, h⟩
    · rw [h]; exact putSlot_outside r.1 _ (by omega)
    · rw [h]; exact putSlot_outside (s := s.withUsed (v.kept s r.1)) r.1 _ (by omega)
    · rw [h]; exact fill_superBlock (s := s.withUsed (v.kept s r.1)) hg r.1 input now ha

theorem act_count (c : Command) : (v.act s c).volume.count = s.volume.count := by
  change (v.act s c).sb.entryCount.toNat = s.sb.entryCount.toNat
  rw [act_sb]

theorem act_entries (hg : Geometry s.sb) {c : Command} {r : ℕ × SfsFileEntry}
    (hr : v.change s c = some r) : ∀ j < s.volume.count,
      (v.act s c).volume.entry j = if j = r.1 then r.2 else s.volume.entry j := by
  intro j hj
  have h := act_entry (v := v) hg c hj
  rw [hr] at h
  exact h

/-- What holds of every entry and of the one rewritten holds of every entry after the
command. -/
theorem act_forall {P : SfsFileEntry → Prop} (hg : Geometry s.sb) (c : Command)
    (hold : ∀ i < s.volume.count, P (s.volume.entry i))
    (hnew : ∀ i fe, v.Rewrites s c i fe → P fe) :
    ∀ i < s.volume.count, P ((v.act s c).volume.entry i) := by
  intro i hi
  cases hc : v.change s c with
  | none =>
    rw [act_of_change_none hc]
    exact hold i hi
  | some r =>
    rw [act_entries hg hc i hi]
    split_ifs
    · exact hnew r.1 r.2 (rewrites_of_change hc)
    · exact hold i hi

theorem act_onDevice (hg : Geometry s.sb) (hd : SfsSuperBlock.ofBytes s.dev = s.sb) (c : Command) :
    SfsSuperBlock.ofBytes (v.act s c).dev = (v.act s c).sb := by
  rw [act_sb, ← hd]
  exact Shell.ofBytes_congr fun a ha => act_superBlock hg c ha

theorem Ready.act (h : v.Ready s) (c : Command) : v.Ready (v.act s c) := by
  constructor
  · rw [act_sb]
    exact h.geometry
  · intro hv
    rw [act_size, act_sb]
    exact h.size hv

theorem Ready.of_moves {s' : Shell} (h : v.Ready s) (hm : s.Moves s') : v.Ready s' := by
  obtain ⟨p, block, rfl⟩ := hm
  exact ⟨h.geometry, h.size⟩

variable (v) in
/-- A shell with the formatter's layout and an empty table. -/
structure Fresh (s : Shell) : Prop extends v.Ready s where
  onDevice : SfsSuperBlock.ofBytes s.dev = s.sb
  empty : ∀ i < s.volume.count, entryAt s.dev i = .zero
  fault : s.usedBlocks.fault = false

theorem Fresh.of_shell {bytes : ℕ} (h : RealFs.Fresh bytes s) : v.Fresh s :=
  ⟨⟨h.geometry, fun _ => h.size⟩, h.onDevice, h.empty, h.volume.table.1⟩

/-- A shell just started on a formatted partition of fewer than `2 ^ 31` blocks. -/
theorem Started.fresh {bytes : ℕ} (hsize : bytes / 512 < 2 ^ 31)
    (h : v.Started .bits32 bytes s) : v.Fresh s := by
  obtain ⟨h512, dev, stack, hmain⟩ := h
  cases v with
  | v1 =>
    obtain ⟨h0, hP⟩ := formatSb_small h512 hsize
    have hread : SfsSuperBlock.ofBytes ((formatRealSfs bytes dev stack).window 0) =
        formatSb bytes := by
      rw [← formatRealSfs_sb bytes dev stack]
      exact Shell.ofBytes_congr fun a _ => by rw [Store.window_apply, Nat.zero_add]
    have hg := formatSb_geometry h0 hP
    change Part19.main _ = some s at hmain
    unfold Part19.main at hmain
    simp only [Handle.read, hread, hg.type_eq, ne_eq, not_true_eq_false, ↓reduceIte] at hmain
    obtain rfl := Option.some.inj hmain
    exact ⟨⟨hg, fun hv => absurd rfl hv⟩, formatRealSfs_sb bytes dev stack, fun i hi =>
      entryAt_formatRealSfs bytes dev stack h0 hP hi, rfl⟩
  | v2 => exact Fresh.of_shell (RealFs.Started.fresh hsize ⟨h512, dev, stack, hmain⟩)
  | v3 => exact Fresh.of_shell (RealFs.Started.fresh hsize ⟨h512, dev, stack, hmain⟩)

end Version

/-- The shells started on ten blocks: eight slots, data blocks 2 to 9. -/
def sampleStart (v : Version) : Shell :=
  (v.main .bits32 (formatRealSfs 5120 (fun _ => 9) fun _ => 5)).getD
    ⟨⟨fun _ => 0, 0⟩, .ofBytes fun _ => 0, ⟨0, fun _ => 0, false⟩, fun _ => 0⟩

theorem sampleStart_started (v : Version) : v.Started .bits32 5120 (sampleStart v) := by
  have hsome : (v.main .bits32 (formatRealSfs 5120 (fun _ => 9) fun _ => 5)).isSome = true := by
    cases v <;> decide +kernel
  obtain ⟨s, hs⟩ := Option.isSome_iff_exists.mp hsome
  refine ⟨by decide, fun _ => 9, fun _ => 5, ?_⟩
  rw [sampleStart, hs, Option.getD_some]

end Linuxpedia.SimulaFs
