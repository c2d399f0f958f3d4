import Linuxpedia.SimulaFs.Versions
import Linuxpedia.Lib.Run

/-! The block pointers that the shells store. `get_data_block` returns -1 when no
block is free. The loop of `sfs_write` checks for it before it stores the pointer,
the code for the last partial block after it, so a write that runs out of blocks
just there leaves -1 in the entry. Every other write stores data blocks only, and
then no later index into `used_blocks` is out of range. -/

namespace Linuxpedia.SimulaFs

open Lib Sfs RealFs

variable {v : Version} {s : Shell}

/-- Zero or the number of a data block. -/
def ValidPointer (sb : SfsSuperBlock) (b : UInt32) : Prop :=
  b = 0 ∨ sb.dataBlockStart.toNat ≤ b.toNat ∧ b.toNat < sb.partitionSize.toNat

theorem not_validPointer {sb : SfsSuperBlock} (hg : Geometry sb) :
    ¬ ValidPointer sb (UInt32.ofInt (-1)) := by
  have hsmall := hg.small
  have hval : (UInt32.ofInt (-1)).toNat = 2 ^ 32 - 1 := rfl
  rintro (h0 | ⟨_, hlt⟩)
  · exact absurd h0 (by decide)
  · omega

/-- Every pointer of the table is valid, and no access was out of range. -/
structure Pointed (v : Version) (s : Shell) : Prop extends v.Ready s where
  onDevice : SfsSuperBlock.ofBytes s.dev = s.sb
  valid : ∀ i < s.volume.count, ∀ k, ValidPointer s.sb ((entryAt s.dev i).blocks k)
  fault : s.usedBlocks.fault = false

/-- The write does not run out of blocks just before a partial block. -/
def Untorn (v : Version) (s : Shell) : Command → Prop
  | .write fn stdin _ => ∀ i, v.writeSlot s fn = some i →
      ¬ Torn 0 (s.withUsed (v.kept s i)).free stdin.input
  | _ => True

instance (v : Version) (s : Shell) : DecidablePred (Untorn v s)
  | .write fn stdin _ => inferInstanceAs (Decidable (∀ i ∈ v.writeSlot s fn,
      ¬ Torn 0 (s.withUsed (v.kept s i)).free stdin.input))
  | .list => .isTrue trivial
  | .create _ _ => .isTrue trivial
  | .remove _ => .isTrue trivial
  | .chperm _ _ => .isTrue trivial
  | .read _ => .isTrue trivial

/-! ### The entry written -/

theorem validPointer_gets (hs : s.Wf) {input : List UInt8} {b : ℕ} (hb : b ∈ s.gets input) :
    ValidPointer s.sb (UInt32.ofNat b) := by
  obtain ⟨hlo, hhi, _⟩ := gets_range hb
  have hle := hs.size_le
  have hsize := hs.size
  have hw : (UInt32.ofNat b).toNat = b := by
    rw [UInt32.toNat_ofNat', Nat.mod_eq_of_lt (by omega)]
  right
  rw [hw]
  exact ⟨hlo, by omega⟩

theorem validPointer_filled (hs : s.Wf) {i : ℕ} {input : List UInt8} (now : UInt32)
    (hold : ∀ k, ValidPointer s.sb ((entryAt s.dev i).blocks k)) (ht : ¬ Torn 0 s.free input)
    (k : Fin 9) : ValidPointer s.sb ((s.filled i input now).blocks k) := by
  rw [filled_blocks_cases]
  cases hb : (s.gets input)[k.val]? with
  | none =>
    simp only [ht, false_and, if_false]
    exact hold k
  | some b => exact validPointer_gets hs (List.mem_of_getElem? hb)

/-- A torn write stores -1 behind the last free block. -/
theorem filled_torn (i : ℕ) {input : List UInt8} (now : UInt32) (ht : Torn 0 s.free input) :
    ∃ k, (s.filled i input now).blocks k = UInt32.ofInt (-1) := by
  have hk : s.free.length < 9 := ht.1
  refine ⟨⟨s.free.length, hk⟩, ?_⟩
  have hlen : (s.gets input).length ≤ s.free.length := List.length_take_le' _ _
  rw [filled_blocks_cases, List.getElem?_eq_none hlen]
  simp only [ht, true_and, if_true]

/-! ### One command -/

theorem act_valid (h : Pointed v s) {c : Command} (hc : Untorn v s c) :
    ∀ i < s.volume.count, ∀ k, ValidPointer s.sb ((entryAt (v.act s c).dev i).blocks k) := by
  apply Version.act_forall (P := fun fe => ∀ k, ValidPointer s.sb (fe.blocks k)) h.geometry c h.valid
  intro i fe hrw
  have hlt := hrw.lt
  cases hrw with
  | create => exact fun _ => Or.inl rfl
  | remove => exact fun _ => Or.inl rfl
  | chperm perm fn _ hi => exact h.valid i hlt
  | write fn stdin now _ hi =>
    have hwf := h.toReady.kept (Version.writeSlot_eq_some.mp hi).1 i
    exact validPointer_filled (s := s.withUsed (v.kept s i)) hwf now (h.valid i hlt) (hc i hi)

/-- Freeing valid pointers is in range. -/
theorem kept_fault (h : Pointed v s) {i : ℕ} (hi : i < s.volume.count) :
    (v.kept s i).fault = false := by
  unfold Version.kept
  split_ifs with hv
  · have hwf := h.wf (by rw [hv]; decide)
    have hle := hwf.size_le
    have hsize := hwf.size
    refine (Buffer.fault_clear _ _).mpr ⟨h.fault, fun b hb => ?_⟩
    obtain ⟨k, rfl, hk⟩ := Volume.mem_prefixPtrs_iff.mp hb
    obtain ⟨_, hlt⟩ := (h.valid i hi k).resolve_left (hk k (Nat.le_refl k))
    rw [asInt_of_lt (by omega)]
    omega
  · exact h.fault

theorem act_fault (h : Pointed v s) (c : Command) : (v.act s c).usedBlocks.fault = false := by
  cases hc : v.change s c with
  | none =>
    rw [Version.act_of_change_none hc]
    exact h.fault
  | some r =>
    have hrw := Version.rewrites_of_change hc
    have hkept := kept_fault h hrw.lt
    rcases Version.act_cases hrw with hact | hact | ⟨input, now, _, hact⟩
    · rw [hact]
      exact h.fault
    · rw [hact]
      exact hkept
    · rw [hact]
      exact ((v.kept s r.1).fault_takes _).trans hkept

theorem Pointed.of_moves {s' : Shell} (h : Pointed v s) (hm : s.Moves s') : Pointed v s' := by
  have hr := h.toReady.of_moves hm
  obtain ⟨p, block, rfl⟩ := hm
  exact ⟨hr, h.onDevice, h.valid, h.fault⟩

theorem Pointed.step (h : Pointed v s) {c : Command} (hr : v.Reaches s c) (hc : Untorn v s c) :
    Pointed v (v.step .bits32 s c) := by
  refine Pointed.of_moves ⟨h.toReady.act c, Version.act_onDevice h.geometry h.onDevice c, ?_,
    act_fault h c⟩ (Version.step_act h.toReady c hr)
  rw [Version.act_count, Version.act_sb]
  exact act_valid h hc

/-- The next start makes no access out of range. -/
theorem Pointed.restart_fault (h : Pointed v s) :
    (v.restart .bits32 s).usedBlocks.fault = false := by
  by_cases hv : v = .v1
  · subst hv
    change ((Part19.main s.dev).getD s).usedBlocks.fault = false
    cases hm : Part19.main s.dev with
    | none => exact h.fault
    | some s' =>
      unfold Part19.main at hm
      simp only at hm
      split_ifs at hm
      rw [Option.getD_some, ← Option.some.inj hm]
  · have hwf := h.wf hv
    have hrestart : v.restart .bits32 s = RealFs.restart .bits32 s := by
      cases v
      · exact absurd rfl hv
      · rfl
      · rfl
    obtain ⟨p, block, hmoves⟩ := restart_moves (o := .bits32) (s := s) ⟨hwf, h.onDevice⟩
    rw [hrestart, hmoves, Shell.moved_usedBlocks, Shell.withUsed_usedBlocks, hwf.rebuilt_eq,
      Volume.fault_rebuild hwf.start_le hwf.size_le]
    rintro b ⟨i, hi, _, w, hw, rfl⟩
    obtain ⟨k, rfl, hk⟩ := Volume.mem_prefixPtrs_iff.mp hw
    obtain ⟨_, hlt⟩ := (h.valid i hi k).resolve_left (hk k (Nat.le_refl k))
    exact Nat.lt_of_lt_of_eq hlt hwf.size.symm

/-- After a write the entry of the file has valid pointers only; no access of the step
to `used_blocks` is out of range, and none of the next start is. -/
def StoresValid (v : Version) (s : Shell) (c : Command) : Prop :=
  (∀ fn stdin now i, c = .write fn stdin now → (RealFs.sfsLookup .bits32 s fn).2.1 = (i : ℕ) →
    ∀ k, ValidPointer s.sb ((entryAt (v.step .bits32 s c).dev i).blocks k)) ∧
  (v.step .bits32 s c).usedBlocks.fault = false ∧
  (v.restart .bits32 (v.step .bits32 s c)).usedBlocks.fault = false

theorem storesValid_iff (h : Pointed v s) {c : Command} (hr : v.Reaches s c) :
    StoresValid v s c ↔ Untorn v s c := by
  constructor
  · rintro ⟨hvalid, _, _⟩
    cases c with
    | write fn stdin now =>
      intro i hi ht
      obtain ⟨_, hslot, _⟩ := Version.writeSlot_eq_some.mp hi
      have hlt := (Volume.slotOf_eq_some.mp hslot).1
      obtain ⟨p, block, hstep⟩ := Version.step_act h.toReady _ hr
      obtain ⟨k, hk⟩ := filled_torn (s := s.withUsed (v.kept s i)) i now ht
      have hlookup : (RealFs.sfsLookup .bits32 s fn).2.1 = (i : ℤ) := by
        rw [RealFs.sfsLookup_found h.geometry hslot]
      have hv := hvalid fn stdin now i rfl hlookup k
      rw [hstep, Shell.moved_dev, Version.act_entry h.geometry _ hlt,
        Version.change_write hi stdin now, Option.elim_some, if_pos rfl] at hv
      change ValidPointer s.sb (((s.withUsed (v.kept s i)).filled i stdin.input now).blocks k) at hv
      rw [hk] at hv
      exact not_validPointer h.geometry hv
    | list => trivial
    | create fn now => trivial
    | remove fn => trivial
    | chperm perm fn => trivial
    | read fn => trivial
  · intro hc
    have h' := h.step hr hc
    refine ⟨?_, h'.fault, h'.restart_fault⟩
    rintro fn stdin now i rfl hi k
    have hlookup : RealFs.sfsLookup .bits32 s fn = ((RealFs.sfsLookup .bits32 s fn).1, (i : ℤ),
        (RealFs.sfsLookup .bits32 s fn).2.2) := by
      rw [← hi]
    have hlt := (Volume.slotOf_eq_some.mp (RealFs.sfsLookup_inv h.geometry hlookup).1).1
    obtain ⟨p, block, hstep⟩ := Version.step_act h.toReady _ hr
    rw [hstep]
    exact act_valid h hc i hlt k

/-! ### Runs -/

theorem Pointed.of_fresh (h : v.Fresh s) : Pointed v s := by
  refine ⟨h.toReady, h.onDevice, ?_, h.fault⟩
  intro i hi k
  rw [h.empty i hi]
  exact Or.inl rfl

/-- In every run of any of the three shells from a formatted partition, every write
stores valid pointers and every access to `used_blocks`, the next start included, is
in range, exactly as long as no write is torn. -/
theorem valid_pointers_iff (v : Version) {bytes : ℕ} (hsize : bytes / 512 < 2 ^ 31)
    (hs : v.Started .bits32 bytes s) (commands : List Command)
    (hr : Run.Along (v.step .bits32) v.Reaches s commands) :
    Run.Along (v.step .bits32) (StoresValid v) s commands ↔
      Run.Along (v.step .bits32) (Untorn v) s commands := by
  have hstep : ∀ (s : Shell) (c : Command), Pointed v s → v.Reaches s c → Untorn v s c →
      Pointed v (v.step .bits32 s c) := fun s c h hl hc => h.step hl hc
  have hiff : ∀ (s : Shell) (c : Command), Pointed v s → v.Reaches s c →
      (StoresValid v s c ↔ Untorn v s c) := fun s c h hl => storesValid_iff h hl
  exact Run.along_iff hstep hiff (Pointed.of_fresh (hs.fresh hsize)) hr

/-- A file of 513 bytes written again and removed. -/
theorem valid_pointers_sample :
    Run.Along (Version.v3.step .bits32) (StoresValid .v3) (sampleStart .v3)
        [.create [97] 0, .write [97] [List.replicate 512 1, [2]] 0, .write [97] [[3]] 0,
          .remove [97]] ↔
      Run.Along (Version.v3.step .bits32) (Untorn .v3) (sampleStart .v3)
        [.create [97] 0, .write [97] [List.replicate 512 1, [2]] 0, .write [97] [[3]] 0,
          .remove [97]] :=
  valid_pointers_iff .v3 (by decide) (sampleStart_started .v3)
    [.create [97] 0, .write [97] [List.replicate 512 1, [2]] 0, .write [97] [[3]] 0, .remove [97]]
    ⟨trivial, by decide +kernel, by decide +kernel, by decide +kernel, trivial⟩

/-- Nine blocks of input for the eight data blocks of the partition, the last of one
byte. -/
def nineBlocks : List Command :=
  [.create [97] 0, .write [97] (List.replicate 8 (List.replicate 512 1) ++ [[2]]) 0]

/-- Pointer 8 becomes -1. -/
theorem nineBlocks_torn (v : Version) (hv : v ≠ .v1) :
    ¬ Run.Along (v.step .bits32) (StoresValid v) (sampleStart v) nineBlocks := by
  rintro ⟨_, ⟨hvalid, _⟩, _⟩
  have hlast := hvalid [97] _ 0 0 rfl (by cases v <;> decide +kernel) 8
  have hentry : (entryAt (v.step .bits32 (v.step .bits32 (sampleStart v) (.create [97] 0))
      (.write [97] (List.replicate 8 (List.replicate 512 1) ++ [[2]]) 0)).dev 0).blocks 8 =
        UInt32.ofInt (-1) := by
    cases v with
    | v1 => exact absurd rfl hv
    | v2 => decide +kernel
    | v3 => decide +kernel
  rw [hentry] at hlast
  rcases hlast with h0 | ⟨_, hlt⟩
  · exact absurd h0 (by decide)
  · exact absurd hlt (by cases v <;> decide +kernel)

theorem torn_pointer : (Version.v2.Started .bits32 5120 (sampleStart .v2) ∧
      ¬ Run.Along (Version.v2.step .bits32) (StoresValid .v2) (sampleStart .v2) nineBlocks) ∧
    Version.v3.Started .bits32 5120 (sampleStart .v3) ∧
      ¬ Run.Along (Version.v3.step .bits32) (StoresValid .v3) (sampleStart .v3) nineBlocks :=
  ⟨⟨sampleStart_started .v2, nineBlocks_torn .v2 (by decide)⟩,
    sampleStart_started .v3, nineBlocks_torn .v3 (by decide)⟩

end Linuxpedia.SimulaFs
