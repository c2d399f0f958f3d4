import Linuxpedia.RealFs.Contents
import Linuxpedia.Lib.Run

/-! Isolation of the files of the shell. `sfs_write` frees the old blocks of a file
and leaves its old pointers behind the new ones, so an entry can point at a block
that is free or belongs to another file; the next command that frees the pointers
of that entry frees the block. As long as no command of a run frees a block that
the size of another file covers, no two files cover a block in common, and reading
a file gives the same bytes before and after any command on another name. -/

namespace Linuxpedia.Sfs.Volume

/-- The size of the file in slot `i` covers a pointer at block `b`. -/
def Covers (v : Volume) (i b : ℕ) : Prop := v.Live i ∧
  ∃ k : Fin 9, 512 * k.val < (v.entry i).size.toNat ∧ ((v.entry i).blocks k).toNat = b

instance (v : Volume) (i b : ℕ) : Decidable (v.Covers i b) := inferInstanceAs (Decidable (_ ∧ _))

theorem Covers.of_entry {v v' : Volume} {i b : ℕ} (h : v'.Covers i b) (hc : v'.count = v.count)
    (he : v'.entry i = v.entry i) : v.Covers i b := by
  unfold Covers Live at h ⊢
  rw [hc, he] at h
  exact h

end Linuxpedia.Sfs.Volume

namespace Linuxpedia.RealFs

open Lib Sfs

variable {s : Shell}

/-- No two files cover a block in common, the blocks covered are marked, and names
are terminated. -/
structure Parted (s : Shell) : Prop extends Orderly s where
  ledger : Ledger s.volume.Covers s.volume.marked
  terminated : ∀ i, s.volume.Live i → (s.volume.entry i).name 15 = 0

/-- The pointers that are freed with slot `i` are in range, and no other file covers
their blocks. -/
def Shell.FreesOwn (s : Shell) (i : ℕ) : Prop := ∀ b ∈ (s.volume.entry i).prefixPtrs,
  b.toNat < s.usedBlocks.size ∧ ∀ j, j ≠ i → ¬ s.volume.Covers j b.toNat

instance (s : Shell) (i : ℕ) : Decidable (s.FreesOwn i) :=
  decidable_of_iff (∀ b ∈ (s.volume.entry i).prefixPtrs, b.toNat < s.usedBlocks.size ∧
    ∀ j < s.volume.count, j ≠ i → ¬ s.volume.Covers j b.toNat) <| by
    constructor
    · intro h b hb
      exact ⟨(h b hb).1, fun j hj hcov => (h b hb).2 j hcov.1.1 hj hcov⟩
    · intro h b hb
      exact ⟨(h b hb).1, fun j _ hj => (h b hb).2 j hj⟩

/-- A command frees blocks of its own file only. -/
def Command.Clean (s : Shell) : Command → Prop
  | .remove fn => ∀ i, s.volume.slotOf fn = some i → s.FreesOwn i
  | .write fn _ _ => ∀ i, s.volume.slotOf fn = some i →
      (s.volume.entry i).perms &&& 2 ≠ 0 → s.FreesOwn i
  | _ => True

instance (s : Shell) : DecidablePred (Command.Clean s)
  | .remove fn =>
    inferInstanceAs (Decidable (∀ i ∈ s.volume.slotOf fn, s.FreesOwn i))
  | .write fn _ _ =>
    inferInstanceAs (Decidable (∀ i ∈ s.volume.slotOf fn,
      (s.volume.entry i).perms &&& 2 ≠ 0 → s.FreesOwn i))
  | .list => .isTrue trivial
  | .create _ _ => .isTrue trivial
  | .chperm _ _ => .isTrue trivial
  | .read _ => .isTrue trivial

/-- The file name that a command is given. -/
def Command.name : Command → Option (List UInt8)
  | .list => none
  | .create fn _ => some fn
  | .remove fn => some fn
  | .chperm _ fn => some fn
  | .read fn => some fn
  | .write fn _ _ => some fn

/-- The name is a string of 1 to 15 bytes. -/
def Command.NameOk (c : Command) : Prop := ∀ fn, c.name = some fn → SfsFileEntry.NameOk fn

instance (c : Command) : Decidable c.NameOk :=
  inferInstanceAs (Decidable (∀ fn ∈ c.name, SfsFileEntry.NameOk fn))

/-! ### Marks -/

theorem mem_marked_cleared (hs : s.Wf) {i : ℕ} (hf : s.FreesOwn i) {j b : ℕ} (hj : j ≠ i)
    (h : s.volume.Covers j b) (hb : b ∈ s.volume.marked) : b ∈ (s.withUsed (s.cleared i)).volume.marked := by
  refine (Volume.mem_marked_clear hs.size_le fun c hc => (hf c hc).1).mpr ⟨hb, ?_⟩
  intro hmem
  obtain ⟨c, hc, rfl⟩ := List.mem_map.mp hmem
  exact (hf c hc).2 j hj h

/-- A block that another file covers is not taken by a write. -/
theorem not_taken (h : Parted s) {i : ℕ} (hf : s.FreesOwn i) {j b : ℕ} (hj : j ≠ i)
    (hc : s.volume.Covers j b) (input : List UInt8) : b ∉ s.taken i input := by
  intro hb
  have hm := mem_marked_cleared h.toWf hf hj hc (h.ledger.marked hc)
  exact hm.2 (taken_range hb).2.2

/-! ### One command -/

/-- Rewriting slot `i`: the blocks it covers now must be covered by no other file. -/
theorem Parted.rewrite (h : Parted s) {s' : Shell} {i : ℕ}
    (hcount : s'.volume.count = s.volume.count)
    (hent : ∀ j < s.volume.count, j ≠ i → s'.volume.entry j = s.volume.entry j)
    (hself : ∀ b, s'.volume.Covers i b →
      (∀ j, j ≠ i → ¬ s.volume.Covers j b) ∧ b ∈ s'.volume.marked)
    (hmark : ∀ j b, j ≠ i → s.volume.Covers j b → b ∈ s'.volume.marked) :
    Ledger s'.volume.Covers s'.volume.marked := by
  have hkeep : ∀ j b, j ≠ i → s'.volume.Covers j b → s.volume.Covers j b :=
    fun j b hj hcov => hcov.of_entry hcount (hent j (hcount ▸ hcov.1.1) hj)
  refine h.ledger.rewrite {i} (fun j b hj => hkeep j b hj) ?_ ?_ ?_
  · rintro j b rfl hcov l hl
    exact (hself b hcov).1 l hl
  · rintro j l b rfl rfl _ _
    rfl
  · intro j b hcov
    by_cases hj : j = i
    · subst hj
      exact (hself b hcov).2
    · exact hmark j b hj (hkeep j b hj hcov)

/-- A slot without a name or with size 0 covers nothing. -/
theorem not_covers {v : Volume} {i : ℕ} (h : ¬ (v.entry i).Named ∨ (v.entry i).size = 0) (b : ℕ) :
    ¬ v.Covers i b := by
  rintro ⟨hlive, k, hk, _⟩
  rcases h with hn | h0
  · exact hn hlive.2
  · rw [h0] at hk
    exact Nat.not_lt_zero _ hk

/-- Every clean command keeps the files apart. -/
theorem Effect.ledger (h : Parted s) {c : Command} (hc : c.Clean s) {s' : Shell}
    (he : Effect s c s') : Ledger s'.volume.Covers s'.volume.marked := by
  have hcount := he.count_eq
  cases he with
  | stay => exact h.ledger
  | create fn now i hi hfree hpre =>
    apply h.rewrite hcount (i := i)
    · intro j _ hj
      exact putSlot_entry_ne hj _
    · intro b hcov
      exact absurd hcov (not_covers (Or.inr (by rw [putSlot_entry_self]; rfl)) b)
    · intro j b _ hcov
      exact h.ledger.marked hcov
  | remove fn i hi =>
    apply h.rewrite hcount (i := i)
    · intro j _ hj
      exact putSlot_entry_ne hj _
    · intro b hcov
      refine absurd hcov (not_covers (Or.inl ?_) b)
      rw [putSlot_entry_self]
      exact SfsFileEntry.zero_not_named
    · intro j b hj hcov
      exact mem_marked_cleared h.toWf (hc i hi) hj hcov (h.ledger.marked hcov)
  | chperm perm fn i perms hi =>
    have hsub : ∀ b, (s.putSlot i { s.volume.entry i with perms := perms }).volume.Covers i b →
        s.volume.Covers i b := by
      rintro b ⟨_, k, hk, hb⟩
      rw [putSlot_entry_self] at hk hb
      exact ⟨Volume.live_of_slotOf hi, k, hk, hb⟩
    apply h.rewrite hcount (i := i)
    · intro j _ hj
      exact putSlot_entry_ne hj _
    · intro b hcov
      exact ⟨fun j hj hcj => hj (h.ledger.inj hcj (hsub b hcov)), h.ledger.marked (hsub b hcov)⟩
    · intro j b _ hcov
      exact h.ledger.marked hcov
  | write fn stdin now i hi hw =>
    have hf := hc i hi hw
    have hlt := (Volume.slotOf_eq_some.mp hi).1
    have hused : (s.store i stdin.input now).volume.marked =
        (s.volume.withUsed ((s.cleared i).takes (s.taken i stdin.input))).marked := rfl
    apply h.rewrite hcount (i := i)
    · intro j hj hji
      exact store_entry_ne h.geometry hj hji stdin.input now
    · rintro b ⟨_, k, hk, hb⟩
      rw [store_entry_self h.geometry hlt stdin.input now] at hk hb
      rw [written_block_toNat h.toWf hk] at hb
      have hmem : b ∈ s.taken i stdin.input := hb ▸ List.get_mem _ _
      refine ⟨fun j hj hcov => not_taken h hf hj hcov _ hmem, ?_⟩
      rw [hused, Volume.mem_marked_takes]
      refine ⟨?_, Or.inl hmem⟩
      rw [Shell.cleared, Buffer.size_clear]
      exact (taken_range hmem).2.1
    · intro j b hj hcov
      have hm := mem_marked_cleared h.toWf hf hj hcov (h.ledger.marked hcov)
      rw [hused, Volume.mem_marked_takes]
      exact ⟨hm.1, Or.inr hm.2⟩

/-- Names stay terminated. -/
theorem Effect.terminated (h : Parted s) {c : Command} {s' : Shell} (he : Effect s c s') :
    ∀ i, s'.volume.Live i → (s'.volume.entry i).name 15 = 0 := by
  have hcount := he.count_eq
  have hput : ∀ (i : ℕ) (fe : SfsFileEntry), (fe.Named → fe.name 15 = 0) →
      (∀ j < s.volume.count, s'.volume.entry j = if j = i then fe else s.volume.entry j) →
      ∀ j, s'.volume.Live j → (s'.volume.entry j).name 15 = 0 := by
    intro i fe hfe hent j hj
    have hlt : j < s.volume.count := hcount ▸ hj.1
    have hn := hj.2
    rw [hent j hlt] at hn ⊢
    split_ifs at hn ⊢ with hji
    · exact hfe hn
    · exact h.terminated j ⟨hlt, hn⟩
  cases he with
  | stay => exact h.terminated
  | create fn now i hi hfree hpre =>
    exact hput i (.fresh fn now 7) (fun _ => rfl) fun j _ => putSlot_entryAt i j _
  | remove fn i hi =>
    exact hput i .zero (fun _ => rfl) fun j _ => putSlot_entryAt i j _
  | chperm perm fn i perms hi =>
    exact hput i { s.volume.entry i with perms := perms }
      (fun _ => h.terminated i (Volume.live_of_slotOf hi)) fun j _ => putSlot_entryAt i j _
  | write fn stdin now i hi hw =>
    exact hput i (s.written i stdin.input now)
      (fun _ => h.terminated i (Volume.live_of_slotOf hi)) fun j hj =>
        store_entryAt h.geometry i _ now hj

/-! ### Reading other files -/

/-- Slot `i` holds the name `fn`. -/
def Matches (v : Volume) (i : ℕ) (fn : List UInt8) : Prop :=
  (v.entry i).Named ∧ (v.entry i).cname = fn

/-- A change of one slot that has another name before and after, and of blocks that
no other file covers, leaves the file found under a name. -/
theorem file_congr {s' : Shell} {i : ℕ} {f : List UInt8}
    (hcount : s'.volume.count = s.volume.count)
    (hent : ∀ j < s.volume.count, j ≠ i → s'.volume.entry j = s.volume.entry j)
    (hbefore : ¬ Matches s.volume i f) (hafter : ¬ Matches s'.volume i f)
    (hbytes : ∀ j b, j ≠ i → s.volume.Covers j b →
      ∀ r < 512, s'.dev (512 * b + r) = s.dev (512 * b + r)) :
    s'.volume.slotOf f = s.volume.slotOf f ∧ ∀ j, s.volume.slotOf f = some j →
      s'.volume.entry j = s.volume.entry j ∧
      contents s'.dev (List.ofFn (s.volume.entry j).blocks) (s.volume.entry j).size.toNat =
        contents s.dev (List.ofFn (s.volume.entry j).blocks) (s.volume.entry j).size.toNat := by
  constructor
  · apply Volume.slotOf_congr hcount
    intro j hj
    by_cases hji : j = i
    · subst hji
      exact ⟨fun hm => absurd hm hafter, fun hm => absurd hm hbefore⟩
    · rw [hent j hj hji]
  · intro j hf
    obtain ⟨hj, hm, _⟩ := Volume.slotOf_eq_some.mp hf
    have hji : j ≠ i := by
      rintro rfl
      exact hbefore hm
    refine ⟨hent j hj hji, ?_⟩
    apply contents_congr
    intro b hb
    obtain ⟨k, hk, rfl⟩ := mem_take_blocks hb
    exact hbytes j _ hji ⟨Volume.live_of_slotOf hf, k, hk, rfl⟩

/-- Such a change is not seen by `sfs_read`. -/
theorem reading_congr {s' : Shell} {i : ℕ} {f : List UInt8}
    (hcount : s'.volume.count = s.volume.count)
    (hent : ∀ j < s.volume.count, j ≠ i → s'.volume.entry j = s.volume.entry j)
    (hbefore : ¬ Matches s.volume i f) (hafter : ¬ Matches s'.volume i f)
    (hbytes : ∀ j b, j ≠ i → s.volume.Covers j b →
      ∀ r < 512, s'.dev (512 * b + r) = s.dev (512 * b + r)) :
    s'.reading f = s.reading f := by
  obtain ⟨hslot, hfile⟩ := file_congr hcount hent hbefore hafter hbytes
  unfold Shell.reading
  rw [hslot]
  cases hf : s.volume.slotOf f with
  | none => rfl
  | some j =>
    obtain ⟨hentry, hcontents⟩ := hfile j hf
    simp only [hentry, hcontents]

/-- The first slot of a name does not have another name. -/
theorem not_matches_of_slotOf {v : Volume} {fn f : List UInt8} {i : ℕ}
    (hi : v.slotOf fn = some i) (hne : f ≠ fn) : ¬ Matches v i f :=
  fun hm => hne (hm.2.symm.trans (Volume.slotOf_eq_some.mp hi).2.1.2)

/-- A clean command on another name leaves what `sfs_read` prints. -/
theorem Effect.reading (h : Parted s) {c : Command} (hc : c.Clean s) (hn : c.NameOk)
    {s' : Shell} (he : Effect s c s') {f : List UInt8} (hf : c.name ≠ some f) :
    s'.reading f = s.reading f := by
  have hcount := he.count_eq
  have hg := h.geometry
  have hcover : ∀ {j b}, s.volume.Covers j b → s.volume.start ≤ b := by
    rintro j b ⟨hlive, k, hk, rfl⟩
    exact ((h.sized j hlive).2 k hk).1
  cases he with
  | stay => rfl
  | create fn now i hi hfree hpre =>
    have hne : f ≠ fn := fun hfn => hf (congrArg some hfn.symm)
    apply reading_congr hcount (i := i)
    · intro j _ hj
      exact putSlot_entry_ne hj _
    · exact fun hm => hfree hm.1
    · rintro ⟨_, hm⟩
      rw [putSlot_entry_self, SfsFileEntry.cname_fresh (hn fn rfl)] at hm
      exact hne hm.symm
    · intro j b _ hcov r _
      exact putSlot_block hg hi _ r (hcover hcov)
  | remove fn i hi =>
    have hne : f ≠ fn := fun hfn => hf (congrArg some hfn.symm)
    apply reading_congr hcount (i := i)
    · intro j _ hj
      exact putSlot_entry_ne hj _
    · exact not_matches_of_slotOf hi hne
    · rintro ⟨hm, _⟩
      rw [putSlot_entry_self] at hm
      exact SfsFileEntry.zero_not_named hm
    · intro j b _ hcov r _
      exact putSlot_block (s := s.withUsed (s.cleared i)) hg (Volume.slotOf_eq_some.mp hi).1 _ r
        (hcover hcov)
  | chperm perm fn i perms hi =>
    have hne : f ≠ fn := fun hfn => hf (congrArg some hfn.symm)
    have hlive := Volume.live_of_slotOf hi
    apply reading_congr hcount (i := i)
    · intro j _ hj
      exact putSlot_entry_ne hj _
    · exact not_matches_of_slotOf hi hne
    · rintro ⟨_, hm⟩
      have hname : ({ s.volume.entry i with perms := perms } : SfsFileEntry).cname =
          (s.volume.entry i).cname := SfsFileEntry.cname_congr rfl (h.terminated i hlive)
      rw [putSlot_entry_self, hname] at hm
      exact not_matches_of_slotOf hi hne ⟨hlive.2, hm⟩
    · intro j b _ hcov r _
      exact putSlot_block hg hlive.1 _ r (hcover hcov)
  | write fn stdin now i hi hw =>
    have hne : f ≠ fn := fun hfn => hf (congrArg some hfn.symm)
    have hlive := Volume.live_of_slotOf hi
    apply reading_congr hcount (i := i)
    · intro j hj hji
      exact store_entry_ne hg hj hji stdin.input now
    · exact not_matches_of_slotOf hi hne
    · rintro ⟨_, hm⟩
      have hname : (s.written i stdin.input now).cname = (s.volume.entry i).cname :=
        SfsFileEntry.cname_congr rfl (h.terminated i hlive)
      rw [store_entry_self hg hlive.1 stdin.input now, hname] at hm
      exact not_matches_of_slotOf hi hne ⟨hlive.2, hm⟩
    · intro j b hj hcov r hr
      exact store_block hg hlive.1 _ now (hcover hcov) hr (not_taken h (hc i hi hw) hj hcov _)

/-! ### Runs -/

theorem Parted.of_moves {s' : Shell} (h : Parted s) (hm : s.Moves s') : Parted s' := by
  have ho := h.toOrderly.of_moves hm
  obtain ⟨p, block, rfl⟩ := hm
  exact ⟨ho, h.ledger, h.terminated⟩

theorem Shell.Moves.reading_eq {s s' : Shell} (hm : s.Moves s') (f : List UInt8) :
    s'.reading f = s.reading f := by
  obtain ⟨p, block, rfl⟩ := hm
  rfl

theorem Parted.step (h : Parted s) {c : Command} (hc : c.Clean s) :
    Parted (step .bits32 s c) := by
  obtain ⟨s', he, hm⟩ := step_effect h.toWf c (reaches_of_small h.toWf h.small c)
  refine Parted.of_moves ⟨⟨he.sound h.toSound, ?_, he.sized h.toWf h.sized⟩, he.ledger h hc,
    he.terminated h⟩ hm
  rw [he.sb_eq]
  exact h.small

/-- The command leaves what `sfs_read` prints of every readable file with another name. -/
def Command.Isolates (s : Shell) (c : Command) : Prop := ∀ f, c.name ≠ some f →
  (sfsLookup .bits32 s f).2.1 ≠ -1 → (sfsLookup .bits32 s f).2.2.perms &&& 4 ≠ 0 →
  (sfsRead .bits32 (RealFs.step .bits32 s c) f).2 = (sfsRead .bits32 s f).2

theorem Parted.isolates (h : Parted s) {c : Command} (hc : c.Clean s) (hn : c.NameOk) :
    c.Isolates s := by
  intro f hf _ _
  have h' := h.step hc
  obtain ⟨s', he, hm⟩ := step_effect h.toWf c (reaches_of_small h.toWf h.small c)
  rw [sfsRead_out h'.toWf h'.small h'.sized, sfsRead_out h.toWf h.small h.sized, hm.reading_eq,
    he.reading h hc hn hf]

theorem Fresh.parted {bytes : ℕ} (h : Fresh bytes s) (hP : bytes / 512 ≤ 2 ^ 22) : Parted s := by
  have hlive : ∀ i, ¬ s.volume.Live i := by
    intro i hi
    have hn := hi.2
    change (entryAt s.dev i).Named at hn
    rw [h.empty i hi.1] at hn
    exact SfsFileEntry.zero_not_named hn
  refine ⟨h.orderly hP, ⟨?_, ?_⟩, fun i hi => absurd hi (hlive i)⟩
  · intro i j b hi
    exact absurd hi.1 (hlive i)
  · intro i b hi
    exact absurd hi.1 (hlive i)

/-- In every run of clean commands from a formatted partition, every command leaves
the files with other names alone. -/
theorem shell_isolated {bytes : ℕ} (hP : bytes / 512 ≤ 2 ^ 22) (hs : Started .bits32 bytes s)
    (commands : List Command) (hn : ∀ c ∈ commands, c.NameOk)
    (hc : Run.Along (step .bits32) Command.Clean s commands) :
    Run.Along (step .bits32) Command.Isolates s commands := by
  have hstep : ∀ (s : Shell) (c : Command), Parted s → c.Clean s ∧ c.NameOk →
      Parted (RealFs.step .bits32 s c) := fun s c h hc => h.step hc.1
  have hlegal : Run.Along (step .bits32) (fun s c => c.Clean s ∧ c.NameOk) s commands :=
    hc.and (Run.along_of_mem _ hn)
  exact Run.along_of_inv hstep (fun s c h hc => h.isolates hc.1 hc.2)
    ((hs.fresh (by omega)).parted hP) hlegal

/-- A file that is rewritten within one block and removed, next to another one. -/
theorem shell_isolated_sample : Run.Along (step .bits32) Command.Isolates sampleShell
    [.create [97] 0, .create [98] 0, .write [97] [[1, 2]] 0, .write [98] [[3]] 0,
      .write [97] [[4], [5]] 0, .remove [97]] :=
  shell_isolated (by decide) sampleShell_started
    [.create [97] 0, .create [98] 0, .write [97] [[1, 2]] 0, .write [98] [[3]] 0,
      .write [97] [[4], [5]] 0, .remove [97]]
    (by decide)
    ⟨trivial, trivial, by decide +kernel, by decide +kernel, by decide +kernel,
      by decide +kernel, trivial⟩

/-- A file `f` rewritten with fewer blocks keeps a pointer at a block that `g` gets;
removing `f` frees the block under `g`, and the next write goes there. -/
theorem shell_not_isolated :
    (∀ c ∈ ([.create [102] 0, .write [102] [List.replicate 512 1, [1]] 0, .write [102] [[2]] 0,
      .create [103] 0, .write [103] [[3]] 0, .remove [102], .create [104] 0,
      .write [104] [List.replicate 512 4, [5]] 0] : List Command), c.NameOk) ∧
    ¬ Run.Along (step .bits32) Command.Isolates sampleShell
      [.create [102] 0, .write [102] [List.replicate 512 1, [1]] 0, .write [102] [[2]] 0,
        .create [103] 0, .write [103] [[3]] 0, .remove [102], .create [104] 0,
        .write [104] [List.replicate 512 4, [5]] 0] := by
  constructor
  · decide
  · rintro ⟨_, _, _, _, _, _, _, h, _⟩
    have hread := h [103] (by decide) (by decide +kernel) (by decide +kernel)
    exact absurd hread (by decide +kernel)

end Linuxpedia.RealFs
