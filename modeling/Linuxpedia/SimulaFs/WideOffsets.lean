import Linuxpedia.SimulaFs.Versions

/-! Going back one entry where `off_t` has 64 bits. `-sb.entry_size` is computed as an
unsigned word, `2 ^ 32 - 64`, and becomes a large positive offset: on a regular file the
file offset moves forward, on a block device that is shorter the seek is refused. Either
way it does not go back, and `sfs_create` of the three shells and `sfs_remove` of v1.0
write behind the slot that they stopped at. -/

namespace Linuxpedia.SimulaFs

open Lib Sfs RealFs

/-- What the shell has opened. -/
inductive Medium where
  | file
  | blockDevice (bytes : ℕ)

/-- The offsets that `lseek` accepts: a block device has none behind its end. -/
def Medium.Accepts : Medium → ℤ → Prop
  | .file, p => 0 ≤ p
  | .blockDevice bytes, p => 0 ≤ p ∧ p ≤ bytes

instance (d : Medium) (p : ℤ) : Decidable (d.Accepts p) := by
  cases d <;> unfold Medium.Accepts <;> infer_instance

variable (o : OffT) (d : Medium)

/-- `lseek(handle, off, SEEK_CUR)` on a medium. -/
def seekCurOn (h : Handle) (off : UInt32) : Handle :=
  if d.Accepts ((h.pos : ℤ) + o.ofUnsigned off) then
    { h with pos := ((h.pos : ℤ) + o.ofUnsigned off).toNat } else h

/-- `sfs_create` on a medium. -/
def sfsCreateOn (s : Shell) (fn : List UInt8) (now : UInt32) : Shell × List Output :=
  let s := s.seekTable o
  match sfsCreateLoop fn s.sb.entryCount.toNat 0 s.toHandle with
  | (h, none) => ({ s with toHandle := h }, [.text "File %s already exists\n" fn])
  | (h, some i) =>
    if i = s.sb.entryCount.toNat then ({ s with toHandle := h }, [.text "No entries left\n" fn])
    else
      let h := seekCurOn o d h (-s.sb.entrySize)
      ({ s with toHandle := h.writeEntry (.fresh fn now 7) }, [])

/-- `sfs_remove` of v1.0 on a medium. -/
def Part19.sfsRemoveOn (s : Shell) (fn : List UInt8) : Shell × List Output :=
  let s := s.seekTable o
  match sfsLookupLoop fn s.sb.entryCount.toNat 0 s.toHandle with
  | (h, i, _) =>
    if i = -1 then ({ s with toHandle := h }, [.text "File %s doesn't exist\n" fn])
    else
      let h := seekCurOn o d h (-s.sb.entrySize)
      ({ s with toHandle := h.writeEntry .zero }, [])

/-- On a regular file these are the functions of the shells. -/
theorem sfsCreateOn_file : sfsCreateOn o .file = sfsCreate o := rfl

theorem Part19.sfsRemoveOn_file : Part19.sfsRemoveOn o .file = Part19.sfsRemove o := rfl

/-- `s'` is `s` with slot `i`, and nothing else, filled for `fn`, and `sfs_lookup` finds
the name there. -/
structure CreatesAt (s s' : Shell) (fn : List UInt8) (now : UInt32) (i : ℕ) : Prop where
  slot : ∀ k < 64, s'.dev (512 + 64 * i + k) = (SfsFileEntry.fresh fn now 7).toBytes k
  rest : ∀ a, a < 512 + 64 * i ∨ 512 + 64 * i + 64 ≤ a → s'.dev a = s.dev a
  found : (RealFs.sfsLookup o s' fn).2.1 = i

/-- `s'` is `s` with slot `i`, and nothing else, cleared. -/
structure ClearsAt (s s' : Shell) (i : ℕ) : Prop where
  slot : ∀ k < 64, s'.dev (512 + 64 * i + k) = 0
  rest : ∀ a, a < 512 + 64 * i ∨ 512 + 64 * i + 64 ≤ a → s'.dev a = s.dev a

variable {d} {s : Shell} {bytes i : ℕ} {fn : List UInt8}

/-- `lseek` by `-sb.entry_size` never goes back. -/
theorem seekCurOn_wide (d : Medium) (dev : Store) (p : ℕ) :
    ∃ q, p ≤ q ∧ seekCurOn .bits64 d ⟨dev, p⟩ (-64) = ⟨dev, q⟩ := by
  have hw : OffT.ofUnsigned .bits64 (-64) = 2 ^ 32 - 64 := rfl
  unfold seekCurOn
  rw [hw]
  split_ifs
  · exact ⟨((p : ℤ) + (2 ^ 32 - 64)).toNat, by omega, rfl⟩
  · exact ⟨p, le_rfl, rfl⟩

theorem seekTable_formatted (hs : s.sb = formatSb bytes) :
    s.seekTable o = s.moved 512 s.block := by
  have hb : s.sb.entryTableBlockStart * s.sb.blockSize = 512 := by
    have hstart : s.sb.entryTableBlockStart = 1 := by rw [hs]; rfl
    have hsize : s.sb.blockSize = 512 := by rw [hs]; rfl
    rw [hstart, hsize]
    rfl
  unfold Shell.seekTable Shell.seekSet
  rw [hb, Handle.seekSet_of_lt o (by decide)]
  rfl

/-- The entry of a creation lands behind the first free slot. -/
theorem sfsCreateOn_wide (hs : s.sb = formatSb bytes) (hfn : s.volume.slotOf fn = none)
    (hi : s.volume.freeSlot = some i) (now : UInt32) : ∃ p, 512 + 64 * (i + 1) ≤ p ∧
      (sfsCreateOn .bits64 d s fn now).1.sb = s.sb ∧
      (sfsCreateOn .bits64 d s fn now).1.dev =
        s.dev.blit p 64 (SfsFileEntry.fresh fn now 7).toBytes := by
  obtain ⟨hlt, hfree, hpre⟩ := Volume.freeSlot_eq_some.mp hi
  have hback : -s.sb.entrySize = -64 := by
    rw [hs]
    rfl
  have hloop := sfsCreateLoop_cases fn s.dev s.sb.entryCount.toNat 0
  rw [Nat.mul_zero, Nat.add_zero, Nat.zero_add] at hloop
  unfold sfsCreateOn
  rw [seekTable_formatted .bits64 hs]
  simp only [Shell.moved, hback]
  rcases hloop with ⟨j, _, hj, hfree', hpre', h⟩ | ⟨j, _, hj, hname, hpre', _⟩ | ⟨hall, _⟩
  · obtain rfl : j = i := by
      rcases Nat.lt_trichotomy j i with hji | rfl | hij
      · exact absurd (hpre j hji) hfree'
      · rfl
      · exact absurd (hpre' i (Nat.zero_le i) hij).1 hfree
    obtain ⟨q, hq, hseek⟩ := seekCurOn_wide d s.dev (512 + 64 * (j + 1))
    rw [h]
    simp only [if_neg (Nat.ne_of_lt hj), hseek]
    exact ⟨q, hq, trivial, rfl⟩
  · exact absurd ⟨hpre' j (Nat.zero_le j) le_rfl, hname⟩ (Volume.first_eq_none.mp hfn j hj)
  · exact absurd (hall i (Nat.zero_le i) hlt).1 hfree

/-- The zeros of a removal land behind the slot that it matched. -/
theorem Part19.sfsRemoveOn_wide (hs : s.sb = formatSb bytes) (hi : s.volume.slotOf fn = some i) :
    ∃ p, 512 + 64 * (i + 1) ≤ p ∧
      (Part19.sfsRemoveOn .bits64 d s fn).1.dev = s.dev.blit p 64 SfsFileEntry.zero.toBytes := by
  obtain ⟨hlt, hm, hpre⟩ := Volume.slotOf_eq_some.mp hi
  have hback : -s.sb.entrySize = -64 := by
    rw [hs]
    rfl
  have hloop : sfsLookupLoop fn s.sb.entryCount.toNat 0 ⟨s.dev, 512⟩ =
      ((⟨s.dev, 512 + 64 * (i + 1)⟩ : Handle), (i : ℤ), entryAt s.dev i) :=
    sfsLookupLoop_found hm s.sb.entryCount.toNat 0 (Nat.zero_le i)
      (by rw [Nat.zero_add]; exact hlt) fun l _ hl => hpre l hl
  obtain ⟨q, hq, hseek⟩ := seekCurOn_wide d s.dev (512 + 64 * (i + 1))
  unfold Part19.sfsRemoveOn
  rw [seekTable_formatted .bits64 hs]
  simp only [Shell.moved, hback]
  rw [hloop]
  simp only [show ¬ (i : ℤ) = -1 by omega, ↓reduceIte, hseek]
  exact ⟨q, hq, rfl⟩

/-- A slot that a search returns has a name. -/
theorem sfsLookup_named (hs : s.sb = formatSb bytes) (h : (RealFs.sfsLookup o s fn).2.1 = i) :
    (entryAt s.dev i).Named := by
  unfold RealFs.sfsLookup at h
  rw [seekTable_formatted o hs] at h
  change (sfsLookupLoop fn s.sb.entryCount.toNat 0 ⟨s.dev, 512 + 64 * 0⟩).2.1 = i at h
  cases hv : s.volume.slotOf fn with
  | none =>
    have hpre : ∀ l, 0 ≤ l → l < 0 + s.sb.entryCount.toNat →
        ¬ ((entryAt s.dev l).Named ∧ (entryAt s.dev l).cname = fn) := by
      intro l _ hl
      rw [Nat.zero_add] at hl
      exact Volume.first_eq_none.mp hv l hl
    rw [sfsLookupLoop_absent _ _ hpre] at h
    have hneg : (-1 : ℤ) = i := h
    omega
  | some j =>
    obtain ⟨hlt, hm, hpre⟩ := Volume.slotOf_eq_some.mp hv
    rw [sfsLookupLoop_found hm s.sb.entryCount.toNat 0 (Nat.zero_le j)
      (by rw [Nat.zero_add]; exact hlt) fun l _ hl => hpre l hl] at h
    have hij : (j : ℤ) = i := h
    obtain rfl : j = i := by omega
    exact hm.1

/-- On a 64-bit system a creation never fills the first free slot and a removal of v1.0
never clears the slot it matched, on no medium: both leave the slot as it was. -/
theorem wide_offsets_miss (d : Medium) (hs : s.sb = formatSb bytes) (fn : List UInt8) (i : ℕ) :
    (∀ now, s.volume.slotOf fn = none → s.volume.freeSlot = some i →
      ¬ CreatesAt .bits64 s (sfsCreateOn .bits64 d s fn now).1 fn now i) ∧
    (s.volume.slotOf fn = some i → ¬ ClearsAt s (Part19.sfsRemoveOn .bits64 d s fn).1 i) := by
  constructor
  · intro now hfn hi h
    obtain ⟨q, hq, hsb, hdev⟩ := sfsCreateOn_wide (d := d) hs hfn hi now
    have hsame : entryAt (sfsCreateOn .bits64 d s fn now).1.dev i = entryAt s.dev i := by
      rw [hdev]
      exact SfsFileEntry.ofBytes_congr fun k hk =>
        Store.window_blit_disjoint _ _ (Or.inl (by omega)) hk
    have hnamed := sfsLookup_named .bits64 (hsb.trans hs) h.found
    rw [hsame] at hnamed
    exact (Volume.freeSlot_eq_some.mp hi).2.1 hnamed
  · intro hi h
    obtain ⟨q, hq, hdev⟩ := Part19.sfsRemoveOn_wide (d := d) hs hi
    have hzero := h.slot 0 (by decide)
    rw [hdev, Store.blit_outside _ _ (Or.inl (by omega))] at hzero
    exact (Volume.slotOf_eq_some.mp hi).2.1.1 hzero

/-- The creation on the small partition, whose first slot is free. -/
theorem wide_offsets_miss_sample :
    ¬ CreatesAt .bits64 sampleShell (sfsCreateOn .bits64 .file sampleShell [97] 0).1 [97] 0 0 :=
  (wide_offsets_miss .file (show sampleShell.sb = formatSb 5120 by decide +kernel) [97] 0).1 0
    (by decide +kernel) (by decide +kernel)

/-- After the creation of `a` the first slot of the small partition is still empty, and
after the removal of an `a` stored there it still holds the name. -/
theorem wide_offsets_break :
    (sampleShell.volume.slotOf [97] = none ∧ sampleShell.volume.freeSlot = some 0 ∧
      ¬ CreatesAt .bits64 sampleShell (sfsCreateOn .bits64 .file sampleShell [97] 0).1 [97] 0 0) ∧
    (sampleShell.putSlot 0 (.fresh [97] 0 7)).volume.slotOf [97] = some 0 ∧
      ¬ ClearsAt (sampleShell.putSlot 0 (.fresh [97] 0 7))
        (Part19.sfsRemoveOn .bits64 .file (sampleShell.putSlot 0 (.fresh [97] 0 7)) [97]).1 0 := by
  refine ⟨⟨by decide +kernel, by decide +kernel, fun h => ?_⟩, by decide +kernel, fun h => ?_⟩
  · exact absurd (h.slot 0 (by decide)) (by decide +kernel)
  · exact absurd (h.slot 0 (by decide)) (by decide +kernel)

end Linuxpedia.SimulaFs
