import Linuxpedia.SimulaFs.Names
import Linuxpedia.Lib.Ledger

/-! Isolation of the files of the v2.0 shell. It frees no block while it runs and
never clears a pointer, so the pointers of an entry, stale ones included, form a
nonzero prefix of its array, and every data block they name is marked: at once by
the write that took it, and by `init_browsing` at each start. Hence no data block is
at two positions, and no command reaches a block of another file. -/

namespace Linuxpedia.Sfs.Volume

/-- Position `p` of a named entry points at the data block `b`. -/
structure HeldIn (v : Volume) (p : ℕ × Fin 9) (b : ℕ) : Prop where
  live : v.Live p.1
  block : ((v.entry p.1).blocks p.2).toNat = b
  start_le : v.start ≤ b
  lt_size : b < v.used.size

end Linuxpedia.Sfs.Volume

namespace Linuxpedia.SimulaFs

open Lib Sfs RealFs

variable {s : Shell}

/-- A command, or `quit` and a new start. -/
inductive Action where
  | command (c : Command)
  | restart

namespace Action

def next (s : Shell) : Action → Shell
  | .command c => Version.v2.step .bits32 s c
  | .restart => Version.v2.restart .bits32 s

/-- The file name that an action is given. -/
def name : Action → Option (List UInt8)
  | .command c => c.name
  | .restart => none

/-- The name is a string of 1 to 15 bytes. -/
def NameOk (a : Action) : Prop := ∀ fn, a.name = some fn → SfsFileEntry.NameOk fn

instance (a : Action) : Decidable a.NameOk :=
  inferInstanceAs (Decidable (∀ fn ∈ a.name, SfsFileEntry.NameOk fn))

/-- No access to `used_blocks` is out of range. -/
def InRange (s : Shell) (a : Action) : Prop := (a.next s).usedBlocks.fault = false

instance (s : Shell) : DecidablePred (InRange s) := fun a =>
  inferInstanceAs (Decidable ((a.next s).usedBlocks.fault = false))

end Action

/-- The pointers of an entry form a prefix. -/
def PackedEntry (fe : SfsFileEntry) : Prop := ∀ k, fe.blocks k ≠ 0 → ∀ j < k, fe.blocks j ≠ 0

theorem PackedEntry.mem_prefixPtrs {fe : SfsFileEntry} (h : PackedEntry fe) {k : Fin 9}
    (hk : fe.blocks k ≠ 0) : fe.blocks k ∈ fe.prefixPtrs := by
  refine Volume.mem_prefixPtrs_iff.mpr ⟨k, rfl, fun j hj => ?_⟩
  rcases lt_or_eq_of_le hj with hlt | rfl
  · exact h k hk j hlt
  · exact hk

/-- The invariant of the v2.0 shell. -/
structure Marked (s : Shell) : Prop extends Orderly s where
  terminated : ∀ i, s.volume.Live i → (s.volume.entry i).name 15 = 0
  packed : ∀ i, s.volume.Live i → PackedEntry (s.volume.entry i)
  ledger : Ledger s.volume.HeldIn s.volume.marked

theorem Marked.ready (h : Marked s) : Version.v2.Ready s := ⟨h.geometry, fun _ => h.size⟩

theorem Marked.of_moves {s' : Shell} (h : Marked s) (hm : s.Moves s') : Marked s' := by
  have ho := h.toOrderly.of_moves hm
  obtain ⟨p, block, rfl⟩ := hm
  exact ⟨ho, h.terminated, h.packed, h.ledger⟩

/-! ### Starting -/

/-- A start that makes no access out of range marks every block held. -/
theorem Marked.rebuilt (h : Marked s) (hf : s.rebuilt.fault = false) :
    Marked (s.withUsed s.rebuilt) := by
  have hsize : s.rebuilt.size = s.usedBlocks.size := s.size_rebuilt.trans h.size.symm
  have hbuild := h.toWf.rebuilt_eq
  have hseen := (Volume.fault_rebuild h.toWf.start_le h.toWf.size_le _).mp (hbuild ▸ hf)
  obtain ⟨_, _, hin, _⟩ := Volume.rebuild_ok h.toWf.start_le h.toWf.size_le hseen
    fun _ => 0
  have hheld : ∀ p b, (s.withUsed s.rebuilt).volume.HeldIn p b → s.volume.HeldIn p b := by
    intro p b hp
    have hlt : b < s.rebuilt.size := hp.lt_size
    exact ⟨hp.live, hp.block, hp.start_le, hsize ▸ hlt⟩
  refine ⟨h.toOrderly.rebuilt, h.terminated, h.packed, h.ledger.shrink hheld ?_⟩
  intro p b hp
  obtain ⟨hlive, hblock, hlo, hlt⟩ := hheld p b hp
  have hpos := h.start_pos
  have hne : (s.volume.entry p.1).blocks p.2 ≠ 0 := by
    intro h0
    rw [h0, UInt32.toNat_zero] at hblock
    omega
  have hmention : s.volume.Seen b :=
    ⟨p.1, hlive.1, hlive.2, _, (h.packed p.1 hlive).mem_prefixPtrs hne, hblock⟩
  refine ⟨?_, ?_⟩
  · change b < s.rebuilt.size
    rw [hsize]
    exact hlt
  · change s.rebuilt.cell b ≠ 0
    rw [hbuild, hin b (Or.inr hmention)]
    decide

theorem Marked.restart (h : Marked s) (hf : Action.InRange s .restart) :
    Marked (Action.next s .restart) := by
  have hm : (s.withUsed s.rebuilt).Moves (Action.next s .restart) := restart_moves h.toSound
  refine Marked.of_moves (h.rebuilt ?_) hm
  obtain ⟨p, block, hnext⟩ := hm
  unfold Action.InRange at hf
  rw [hnext] at hf
  exact hf

/-! ### Commands -/

/-- The v2.0 shell keeps every mark; a command gives up pointers of one slot or fills it. -/
theorem act_v2_cases {c : Command} {i : ℕ} {fe : SfsFileEntry} (h : Version.v2.Rewrites s c i fe) :
    ((∀ k, fe.blocks k ≠ 0 → s.volume.Live i ∧ fe.blocks k = (s.volume.entry i).blocks k) ∧
      Version.v2.act s c = s.putSlot i fe) ∨
    ∃ input now, s.volume.Live i ∧ Version.v2.act s c = s.fill i input now := by
  have hkept : ∀ i, s.withUsed (Version.v2.kept s i) = s := Version.kept_of_ne (by decide)
  cases h with
  | create fn now _ hi =>
    exact Or.inl ⟨fun k hk => absurd rfl hk, Version.act_create_some hi now⟩
  | remove fn _ hi =>
    exact Or.inl ⟨fun k hk => absurd rfl hk, by rw [Version.act_remove_some hi, hkept]⟩
  | chperm perm fn _ hi =>
    have hlive := Volume.live_of_slotOf (Version.permSlot_eq_some.mp hi).2
    exact Or.inl ⟨fun _ _ => ⟨hlive, rfl⟩, Version.act_chperm_some hi perm⟩
  | write fn stdin now _ hi =>
    have hlive := Volume.live_of_slotOf (Version.writeSlot_eq_some.mp hi).2.1
    exact Or.inr ⟨_, _, hlive, by rw [Version.act_write_some hi stdin now, hkept]⟩

/-- A torn write takes every free block. -/
theorem length_gets_of_torn {input : List UInt8} (h : Torn 0 s.free input) :
    (s.gets input).length = s.free.length := by
  obtain ⟨hlt, hdiv, _⟩ := h
  rw [length_gets]
  unfold storedSize
  omega

/-- The pointers that are not zero after a write: the blocks taken, the torn one behind
them, and the old ones. -/
theorem filled_ne_zero_iff (hs : s.Wf) {i : ℕ} {input : List UInt8} (now : UInt32) (k : Fin 9) :
    (s.filled i input now).blocks k ≠ 0 ↔ k.val < (s.gets input).length ∨
      (Torn 0 s.free input ∧ k.val = (s.gets input).length) ∨ (entryAt s.dev i).blocks k ≠ 0 := by
  rw [filled_blocks_cases]
  by_cases hk : k.val < (s.gets input).length
  · obtain ⟨hlo, hhi, _⟩ := gets_range ((s.gets input).getElem_mem hk)
    have hpos := hs.start_pos
    have hle := hs.size_le
    rw [List.getElem?_eq_getElem hk]
    refine iff_of_true ?_ (Or.inl hk)
    intro h0
    have hw := congrArg UInt32.toNat h0
    rw [UInt32.toNat_ofNat', Nat.mod_eq_of_lt (by omega), UInt32.toNat_zero] at hw
    omega
  · rw [List.getElem?_eq_none (by omega), or_iff_right hk]
    simp only
    by_cases ht : Torn 0 s.free input ∧ k.val = s.free.length
    · rw [if_pos ht]
      have hlen := length_gets_of_torn ht.1
      exact iff_of_true (by decide) (Or.inl ⟨ht.1, by omega⟩)
    · rw [if_neg ht, or_iff_right]
      rintro ⟨htorn, heq⟩
      exact ht ⟨htorn, heq.trans (length_gets_of_torn htorn)⟩

theorem filled_packed (hs : s.Wf) {i : ℕ} (input : List UInt8) (now : UInt32)
    (hold : PackedEntry (entryAt s.dev i)) : PackedEntry (s.filled i input now) := by
  intro k hk j hj
  have hjk : j.val < k.val := hj
  rw [filled_ne_zero_iff hs] at hk ⊢
  rcases hk with hlt | ⟨_, heq⟩ | hne
  · exact Or.inl (by omega)
  · exact Or.inl (by omega)
  · exact Or.inr (Or.inr (hold k hne j hj))

/-- A pointer of the allocation table after a write is a block taken or an old one. -/
theorem heldIn_filled (hs : s.Wf) {i : ℕ} {input : List UInt8} {now : UInt32} {k : Fin 9} {b : ℕ}
    (hb : ((s.filled i input now).blocks k).toNat = b) (hlt : b < s.usedBlocks.size) :
    (s.gets input)[k.val]? = some b ∨
      (s.gets input).length ≤ k.val ∧ ((entryAt s.dev i).blocks k).toNat = b := by
  have hle := hs.size_le
  rw [filled_blocks_cases] at hb
  by_cases hk : k.val < (s.gets input).length
  · have hrange := gets_range ((s.gets input).getElem_mem hk)
    rw [List.getElem?_eq_getElem hk] at hb ⊢
    left
    rw [← hb, UInt32.toNat_ofNat', Nat.mod_eq_of_lt (by omega)]
  · rw [List.getElem?_eq_none (by omega)] at hb
    simp only at hb
    split_ifs at hb
    · have hval : (UInt32.ofInt (-1)).toNat = 2 ^ 32 - 1 := rfl
      omega
    · exact Or.inr ⟨by omega, hb⟩

/-- A write keeps data blocks at one position: what it takes was marked nowhere. -/
theorem Marked.fill_ledger (h : Marked s) {i : ℕ} (hi : s.volume.Live i) (input : List UInt8)
    (now : UInt32) : Ledger (s.fill i input now).volume.HeldIn (s.fill i input now).volume.marked := by
  have hent : ∀ j < s.volume.count, (s.fill i input now).volume.entry j =
      if j = i then s.filled i input now else s.volume.entry j :=
    fun j hj => fill_entryAt h.geometry i input now hj
  have hsize : (s.fill i input now).volume.used.size = s.volume.used.size :=
    s.usedBlocks.size_takes _
  have hmarked : ∀ b, b ∈ (s.fill i input now).volume.marked ↔
      b < s.usedBlocks.size ∧ (b ∈ s.gets input ∨ s.usedBlocks.cell b ≠ 0) :=
    fun b => Volume.mem_marked_takes (v := s.volume)
  -- the positions that get blocks
  let S : Set (ℕ × Fin 9) := {p | p.1 = i ∧ p.2.val < (s.gets input).length}
  have hin : ∀ p b, p ∈ S → (s.fill i input now).volume.HeldIn p b →
      (s.gets input)[p.2.val]? = some b := by
    rintro ⟨j, k⟩ b ⟨rfl, hk⟩ ⟨_, hb, _, hlt⟩
    rw [hent j hi.1, if_pos rfl] at hb
    rw [hsize] at hlt
    exact (heldIn_filled h.toWf hb hlt).resolve_right fun hr => Nat.not_lt.mpr hr.1 hk
  have hout : ∀ p b, p ∉ S → (s.fill i input now).volume.HeldIn p b → s.volume.HeldIn p b := by
    rintro ⟨j, k⟩ b hS ⟨⟨hj, hn⟩, hb, hlo, hlt⟩
    have hj' : j < s.volume.count := hj
    rw [hent j hj'] at hb hn
    rw [hsize] at hlt
    split_ifs at hb hn with hji
    · subst hji
      rcases heldIn_filled h.toWf hb hlt with hget | ⟨_, hold⟩
      · exact absurd ⟨rfl, (List.getElem?_eq_some_iff.mp hget).1⟩ hS
      · exact ⟨hi, hold, hlo, hlt⟩
    · exact ⟨⟨hj', hn⟩, hb, hlo, hlt⟩
  apply h.ledger.rewrite S hout
  · intro p b hp hb q _ hq
    obtain ⟨_, _, hfree⟩ := gets_range (List.mem_of_getElem? (hin p b hp hb))
    exact (h.ledger.marked hq).2 hfree
  · intro p q b hp hq hpb hqb
    have hpk := hin p b hp hpb
    have hqk := hin q b hq hqb
    have hlt := (List.getElem?_eq_some_iff.mp hpk).1
    have hkl := (List.getElem?_inj hlt gets_nodup).mp (hpk.trans hqk.symm)
    exact Prod.ext (hp.1.trans hq.1.symm) (Fin.ext hkl)
  · intro p b hb
    rw [hmarked]
    by_cases hp : p ∈ S
    · have hmem := List.mem_of_getElem? (hin p b hp hb)
      exact ⟨(gets_range hmem).2.1, Or.inl hmem⟩
    · have hm := h.ledger.marked (hout p b hp hb)
      exact ⟨hm.1, Or.inr hm.2⟩

/-- Another command gives up pointers at most. -/
theorem Marked.putSlot_ledger (h : Marked s) {i : ℕ} {fe : SfsFileEntry}
    (hfe : ∀ k, fe.blocks k ≠ 0 → s.volume.Live i ∧ fe.blocks k = (s.volume.entry i).blocks k) :
    Ledger (s.putSlot i fe).volume.HeldIn (s.putSlot i fe).volume.marked := by
  have hpos := h.start_pos
  have hsub : ∀ p b, (s.putSlot i fe).volume.HeldIn p b → s.volume.HeldIn p b := by
    rintro ⟨j, k⟩ b ⟨⟨hj, hn⟩, hb, hlo, hlt⟩
    have hlo' : s.volume.start ≤ b := hlo
    change ((entryAt (s.putSlot i fe).dev j).blocks k).toNat = b at hb
    change (entryAt (s.putSlot i fe).dev j).Named at hn
    rw [putSlot_entryAt] at hb hn
    split_ifs at hb hn with hji
    · subst hji
      have hne : fe.blocks k ≠ 0 := by
        intro h0
        rw [h0, UInt32.toNat_zero] at hb
        omega
      obtain ⟨hlive, hold⟩ := hfe k hne
      exact ⟨hlive, by rw [← hold]; exact hb, hlo, hlt⟩
    · exact ⟨⟨hj, hn⟩, hb, hlo, hlt⟩
  exact h.ledger.shrink hsub fun p b hp => h.ledger.marked (hsub p b hp)

theorem Marked.act_sized (h : Marked s) (c : Command) : (Version.v2.act s c).volume.Sized := by
  have hlive : ∀ {i : ℕ}, s.volume.Live i → s.SizedSlot (s.volume.entry i) := fun hi => h.sized _ hi
  have hall := Version.act_forall (v := .v2) (P := fun fe => fe.Named → s.SizedSlot fe) h.geometry c
    (fun i hi hn => hlive ⟨hi, hn⟩) (by
      intro i fe hrw
      cases hrw with
      | create fn now _ hi => exact fun _ => sizedSlot_fresh fn now 7
      | remove fn _ hi => exact fun hn => absurd hn SfsFileEntry.zero_not_named
      | chperm perm fn _ hi =>
        exact fun _ => hlive (Volume.live_of_slotOf (Version.permSlot_eq_some.mp hi).2)
      | write fn stdin now _ hi =>
        rw [Version.kept_of_ne (by decide)]
        exact fun _ => sizedSlot_filled h.toWf i stdin.input now)
  intro i hi
  have hlt : i < s.volume.count := Version.act_count (v := .v2) c ▸ hi.1
  have hstart : (Version.v2.act s c).volume.start = s.volume.start := by
    change (Version.v2.act s c).sb.dataBlockStart.toNat = s.sb.dataBlockStart.toNat
    rw [Version.act_sb]
  have hsize : (Version.v2.act s c).volume.used.size = s.usedBlocks.size := Version.act_size c
  rw [hstart, hsize]
  exact hall i hlt hi.2

theorem Marked.act_packed (h : Marked s) (c : Command) : ∀ i, (Version.v2.act s c).volume.Live i →
    PackedEntry ((Version.v2.act s c).volume.entry i) := by
  have hall := Version.act_forall (v := .v2) (P := fun fe => fe.Named → PackedEntry fe)
    h.geometry c (fun i hi hn => h.packed i ⟨hi, hn⟩) (by
      intro i fe hrw
      cases hrw with
      | create => exact fun _ k hk => absurd rfl hk
      | remove => exact fun _ k hk => absurd rfl hk
      | chperm perm fn _ hi =>
        exact fun _ => h.packed i (Volume.live_of_slotOf (Version.permSlot_eq_some.mp hi).2)
      | write fn stdin now _ hi =>
        have hlive := Volume.live_of_slotOf (Version.writeSlot_eq_some.mp hi).2.1
        rw [Version.kept_of_ne (by decide)]
        exact fun _ => filled_packed h.toWf stdin.input now (h.packed i hlive))
  intro i hi
  exact hall i (Version.act_count (v := .v2) c ▸ hi.1) hi.2

theorem Marked.act_ledger (h : Marked s) (c : Command) :
    Ledger (Version.v2.act s c).volume.HeldIn (Version.v2.act s c).volume.marked := by
  cases hc : Version.v2.change s c with
  | none =>
    rw [Version.act_of_change_none hc]
    exact h.ledger
  | some r =>
    have hrw := Version.rewrites_of_change hc
    rcases act_v2_cases hrw with ⟨hfe, hact⟩ | ⟨input, now, hlive, hact⟩
    · rw [hact]
      exact h.putSlot_ledger hfe
    · rw [hact]
      exact h.fill_ledger hlive input now

theorem reaches_v2 (h : Marked s) (c : Command) : Version.v2.Reaches s c := by
  have hslot : ∀ fn i, s.volume.slotOf fn = some i → 512 + 64 * i < 2 ^ 31 := by
    intro fn i hi
    exact reaches_of_small h.toWf h.small (.remove fn) i hi
  cases c with
  | list => trivial
  | create fn now => trivial
  | remove fn => exact fun _ i hi => hslot fn i hi
  | chperm perm fn => exact fun i hi => hslot fn i (Version.permSlot_eq_some.mp hi).2
  | read fn => trivial
  | write fn stdin now =>
    intro i hi
    refine ⟨hslot fn i (Version.writeSlot_eq_some.mp hi).2.1, fun b hb => ?_⟩
    rw [Version.kept_of_ne (by decide)] at hb
    have hlt := (gets_range hb).2.1
    rw [h.size] at hlt
    exact Nat.lt_of_lt_of_le hlt h.small

theorem Marked.act (h : Marked s) (c : Command) : Marked (Version.v2.act s c) := by
  have hready := h.ready.act c
  refine ⟨⟨⟨hready.wf (by decide), Version.act_onDevice h.geometry h.onDevice c⟩, ?_, h.act_sized c⟩,
    act_terminated h.geometry h.terminated c, h.act_packed c, h.act_ledger c⟩
  rw [Version.act_sb]
  exact h.small

theorem Marked.next (h : Marked s) {a : Action} (ha : Action.InRange s a) : Marked (a.next s) := by
  cases a with
  | command c => exact (h.act c).of_moves (Version.step_act h.ready c (reaches_v2 h c))
  | restart => exact h.restart ha

/-! ### Reading -/

/-- What `sfs_read` prints. -/
def printed (s : Shell) (fn : List UInt8) : List Output :=
  match s.volume.slotOf fn with
  | none => [.text "File %s doesn't exist\n" fn]
  | some i => [.data (contents s.dev (List.ofFn (s.volume.entry i).blocks)
      (s.volume.entry i).size.toNat)]

theorem sfsRead_printed (h : Marked s) (fn : List UInt8) :
    (SimulaFs.sfsRead .bits32 s fn).2 = printed s fn := by
  unfold sfsRead printed
  cases hi : s.volume.slotOf fn with
  | none =>
    rw [RealFs.sfsLookup_absent h.geometry hi]
    rfl
  | some i =>
    rw [RealFs.sfsLookup_found h.geometry hi]
    simp only [show ¬ (i : ℤ) = -1 by omega, ↓reduceIte]
    have hout := sfsReadLoop_out (o := .bits32) (List.ofFn (entryAt s.dev i).blocks)
      (s.moved (512 + 64 * (i + 1)) s.block) (entryAt s.dev i).size [] h.geometry (by
        intro b hb
        obtain ⟨k, hk, rfl⟩ := mem_take_blocks hb
        obtain ⟨hlo, hhi⟩ := (h.sized i (Volume.live_of_slotOf hi)).2 k hk
        have hpos := h.start_pos
        have hsize : s.volume.used.size = s.sb.partitionSize.toNat := h.size
        have hsmall := h.small
        constructor
        · intro h0
          have hlo' : s.volume.start ≤ ((entryAt s.dev i).blocks k).toNat := hlo
          rw [h0, UInt32.toNat_zero] at hlo'
          omega
        · exact Nat.lt_of_lt_of_le hhi (hsize ▸ hsmall))
    rw [List.nil_append] at hout
    exact congrArg (fun out => [Output.data out]) hout

theorem printed_moves {s s' : Shell} (hm : s.Moves s') (fn : List UInt8) :
    printed s' fn = printed s fn := by
  obtain ⟨p, block, rfl⟩ := hm
  rfl

/-- A block that the size of a file covers is marked. -/
theorem Marked.covered (h : Marked s) {j b : ℕ} (hc : s.volume.Covers j b) :
    s.volume.start ≤ b ∧ b ∈ s.volume.marked := by
  obtain ⟨hlive, k, hk, rfl⟩ := hc
  obtain ⟨hlo, hhi⟩ := (h.sized j hlive).2 k hk
  exact ⟨hlo, h.ledger.marked (i := (j, k)) ⟨hlive, rfl, hlo, hhi⟩⟩

/-- The slot that a command rewrites has another name before and after it. -/
theorem not_matches_rewritten (h : Marked s) {c : Command} (hn : c.NameOk) {i : ℕ}
    {fe : SfsFileEntry} (hrw : Version.v2.Rewrites s c i fe) {f : List UInt8}
    (hf : c.name ≠ some f) : ¬ Matches s.volume i f ∧ ¬ (fe.Named ∧ fe.cname = f) := by
  have hne : ∀ {fn}, c.name = some fn → f ≠ fn := fun hfn hff => hf (hff ▸ hfn)
  have hkeep : ∀ {fn : List UInt8} {fe : SfsFileEntry}, s.volume.slotOf fn = some i → f ≠ fn →
      fe.name = (s.volume.entry i).name →
      ¬ Matches s.volume i f ∧ ¬ (fe.Named ∧ fe.cname = f) := by
    intro fn fe hi hff hname
    have hbefore := not_matches_of_slotOf hi hff
    have hlive := Volume.live_of_slotOf hi
    refine ⟨hbefore, fun hm => hbefore ⟨hlive.2, ?_⟩⟩
    rw [← SfsFileEntry.cname_congr hname (h.terminated i hlive)]
    exact hm.2
  cases hrw with
  | create fn now _ hi =>
    refine ⟨fun hm => (Volume.createSlot_eq_some.mp hi).2.1 hm.1, fun hm => ?_⟩
    rw [SfsFileEntry.cname_fresh (hn fn rfl)] at hm
    exact hne rfl hm.2.symm
  | remove fn _ hi =>
    exact ⟨not_matches_of_slotOf hi (hne rfl), fun hm => SfsFileEntry.zero_not_named hm.1⟩
  | chperm perm fn _ hi => exact hkeep (Version.permSlot_eq_some.mp hi).2 (hne rfl) rfl
  | write fn stdin now _ hi =>
    exact hkeep (Version.writeSlot_eq_some.mp hi).2.1 (hne rfl) rfl

/-- A command leaves what is printed of a file that it does not name. -/
theorem Marked.act_printed (h : Marked s) {c : Command} (hn : c.NameOk) {f : List UInt8}
    (hf : c.name ≠ some f) : printed (Version.v2.act s c) f = printed s f := by
  cases hc : Version.v2.change s c with
  | none => rw [Version.act_of_change_none hc]
  | some r =>
    have hrw := Version.rewrites_of_change hc
    have hent := Version.act_entries h.geometry hc
    obtain ⟨hbefore, hafter⟩ := not_matches_rewritten h hn hrw hf
    have hbytes : ∀ j b, j ≠ r.1 → s.volume.Covers j b →
        ∀ q < 512, (Version.v2.act s c).dev (512 * b + q) = s.dev (512 * b + q) := by
      intro j b _ hcov q hq
      obtain ⟨hstart, hmark⟩ := h.covered hcov
      rcases act_v2_cases hrw with ⟨_, hact⟩ | ⟨input, now, _, hact⟩
      · rw [hact]
        exact putSlot_block h.geometry hrw.lt _ q hstart
      · rw [hact]
        exact fill_block h.geometry hrw.lt input now hstart hq fun hmem =>
          hmark.2 (gets_range hmem).2.2
    obtain ⟨hslot, hfile⟩ := file_congr (s := s) (i := r.1) (Version.act_count c)
      (fun j hj hji => (hent j hj).trans (if_neg hji)) hbefore (by
        unfold Matches
        rw [hent r.1 hrw.lt, if_pos rfl]
        exact hafter) hbytes
    unfold printed
    rw [hslot]
    cases hj : s.volume.slotOf f with
    | none => rfl
    | some j =>
      obtain ⟨hentry, hcontents⟩ := hfile j hj
      simp only [hentry, hcontents]

/-! ### Runs -/

/-- No data block is at two positions of the pointers of named entries. -/
def Disjoint (s : Shell) : Prop := ∀ i j, s.volume.Live i → s.volume.Live j → ∀ k l : Fin 9,
  (s.volume.entry i).blocks k = (s.volume.entry j).blocks l →
  s.volume.start ≤ ((s.volume.entry i).blocks k).toNat →
  ((s.volume.entry i).blocks k).toNat < s.sb.partitionSize.toNat → i = j ∧ k = l

/-- The action leaves what `sfs_read` prints of every file that it does not name. -/
def Action.Isolates (s : Shell) (a : Action) : Prop := ∀ f, a.name ≠ some f →
  (SimulaFs.sfsRead .bits32 (a.next s) f).2 = (SimulaFs.sfsRead .bits32 s f).2

theorem Marked.disjoint (h : Marked s) : Disjoint s := by
  intro i j hi hj k l heq hlo hhi
  have hlt : ((s.volume.entry i).blocks k).toNat < s.volume.used.size :=
    Nat.lt_of_lt_of_eq hhi h.size.symm
  have hp : s.volume.HeldIn (i, k) ((s.volume.entry i).blocks k).toNat := ⟨hi, rfl, hlo, hlt⟩
  have hq : s.volume.HeldIn (j, l) ((s.volume.entry i).blocks k).toNat :=
    ⟨hj, by rw [← heq], hlo, hlt⟩
  exact Prod.mk.inj (h.ledger.inj hp hq)

theorem Marked.isolates (h : Marked s) {a : Action} (ha : Action.InRange s a) (hn : a.NameOk) :
    a.Isolates s := by
  intro f hf
  rw [sfsRead_printed (h.next ha), sfsRead_printed h]
  cases a with
  | command c =>
    have hm := Version.step_act h.ready c (reaches_v2 h c)
    exact (printed_moves hm f).trans (h.act_printed hn hf)
  | restart =>
    have hm : (s.withUsed s.rebuilt).Moves (Action.next s .restart) := restart_moves h.toSound
    exact printed_moves hm f

/-- The shell was just started on a partition with the super block that the formatter
makes for `bytes` bytes and an entry table without names. -/
def StartedEmpty (bytes : ℕ) (s : Shell) : Prop :=
  512 ≤ bytes ∧ ∃ dev, SfsSuperBlock.ofBytes dev = formatSb bytes ∧
    (∀ i < (formatSb bytes).entryCount.toNat, ¬ (entryAt dev i).Named) ∧
    Version.v2.main .bits32 dev = some s

theorem Marked.of_started {bytes : ℕ} (hP : bytes / 512 ≤ 2 ^ 22) (hs : StartedEmpty bytes s) :
    Marked s := by
  obtain ⟨h512, dev, hdev, hempty, hmain⟩ := hs
  have hsize : bytes / 512 < 2 ^ 31 := by omega
  obtain ⟨h0, hP31⟩ := formatSb_small h512 hsize
  have hg := formatSb_geometry h0 hP31
  obtain ⟨s', hmain', hdev', hsb, hused⟩ := main_eq (o := .bits32) hdev hg
  obtain rfl : s' = s := Option.some.inj (hmain'.symm.trans hmain)
  have hnot : ∀ i, ¬ s'.volume.Live i := by
    rintro i ⟨hi, hn⟩
    change i < s'.sb.entryCount.toNat at hi
    change (entryAt s'.dev i).Named at hn
    rw [hsb] at hi
    rw [hdev'] at hn
    exact hempty i hi hn
  have hsound : s'.Sound := by
    refine ⟨⟨?_, ?_⟩, ?_⟩
    · rw [hsb]
      exact hg
    · rw [hused]
      exact s'.size_rebuilt
    · rw [hdev', hsb]
      exact hdev
  have hsmall : s'.sb.partitionSize.toNat ≤ 2 ^ 22 := by
    rw [hsb, formatSb_partitionSize hsize]
    exact hP
  refine ⟨⟨hsound, hsmall, fun i hi => absurd hi (hnot i)⟩, fun i hi => absurd hi (hnot i),
    fun i hi => absurd hi (hnot i), ?_, ?_⟩
  · intro p q b hp
    exact absurd hp.live (hnot p.1)
  · intro p b hp
    exact absurd hp.live (hnot p.1)

/-- In every run of the v2.0 shell from an empty entry table in which no access to
`used_blocks` is out of range, no data block is ever at two positions and every
action leaves the files that it does not name alone. -/
theorem simula_isolated {bytes : ℕ} (hP : bytes / 512 ≤ 2 ^ 22)
    (hs : StartedEmpty bytes s) (actions : List Action)
    (hn : ∀ a ∈ actions, a.NameOk) (hr : Run.Along Action.next Action.InRange s actions) :
    (∀ pre, pre <+: actions → Disjoint (Run.exec Action.next s pre)) ∧
      Run.Along Action.next Action.Isolates s actions := by
  have hstart := Marked.of_started hP hs
  have hstep : ∀ (s : Shell) (a : Action), Marked s → Action.InRange s a ∧ a.NameOk →
      Marked (a.next s) := fun s a h ha => h.next ha.1
  have hlegal : Run.Along Action.next (fun s a => Action.InRange s a ∧ a.NameOk) s actions :=
    hr.and (Run.along_of_mem _ hn)
  constructor
  · rw [Run.forall_prefix_iff Disjoint]
    exact ⟨hstart.disjoint, Run.along_of_inv hstep
      (fun s a h ha => (h.next ha.1).disjoint) hstart hlegal⟩
  · exact Run.along_of_inv hstep (fun s a h ha => h.isolates ha.1 ha.2) hstart hlegal

theorem sampleStart_empty : StartedEmpty 5120 (sampleStart .v2) := by
  have h0 : (formatSb 5120).partitionSize ≠ 0 := by decide
  have hP31 : (formatSb 5120).partitionSize.toNat < 2 ^ 31 := by decide
  obtain ⟨s, hs⟩ := Option.isSome_iff_exists.mp (show (Version.v2.main .bits32
    (formatRealSfs 5120 (fun _ => 9) fun _ => 5)).isSome = true by decide +kernel)
  refine ⟨by decide, _, formatRealSfs_sb 5120 (fun _ => 9) fun _ => 5, fun i hi => ?_, ?_⟩
  · rw [entryAt_formatRealSfs 5120 _ _ h0 hP31 hi]
    exact SfsFileEntry.zero_not_named
  · rw [sampleStart, hs, Option.getD_some]

/-- Two files, a rewrite, a removal and a restart. -/
theorem simula_isolated_sample :
    (∀ pre, pre <+: [.command (.create [97] 0), .command (.create [98] 0),
        .command (.write [97] [List.replicate 512 1, [2]] 0), .command (.write [98] [[3]] 0),
        .command (.write [97] [[4]] 0), .command (.remove [98]), .restart] →
      Disjoint (Run.exec Action.next (sampleStart .v2) pre)) ∧
    Run.Along Action.next Action.Isolates (sampleStart .v2) [.command (.create [97] 0),
      .command (.create [98] 0), .command (.write [97] [List.replicate 512 1, [2]] 0),
      .command (.write [98] [[3]] 0), .command (.write [97] [[4]] 0), .command (.remove [98]),
      .restart] :=
  simula_isolated (by decide) sampleStart_empty
    [.command (.create [97] 0), .command (.create [98] 0),
      .command (.write [97] [List.replicate 512 1, [2]] 0), .command (.write [98] [[3]] 0),
      .command (.write [97] [[4]] 0), .command (.remove [98]), .restart]
    (by decide) ⟨by decide +kernel, by decide +kernel, by decide +kernel, by decide +kernel,
      by decide +kernel, by decide +kernel, by decide +kernel, trivial⟩

end Linuxpedia.SimulaFs
