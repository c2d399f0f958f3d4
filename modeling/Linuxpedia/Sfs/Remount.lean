import Linuxpedia.Sfs.Operations

/-! Mounting again. `init_browsing` and `sfs_remove` stop at the first zero pointer
of an entry, so they agree with the table in memory exactly as long as no block is
granted behind a hole: after such a grant the rebuilt table leaves it free. -/

namespace Linuxpedia.Sfs

open Lib

variable {κ : Kernel} {m : Mount}

/-- Mounting the device as it is, after unmounting. -/
def remount (κ : Kernel) (m : Mount) : Mount × ℤ := initBrowsing κ (kzallocInfo m.dev)

/-- Mounting again gives the table in memory, block for block, and leaves no block
that a file references allocatable. -/
structure Mount.RemountAgrees (κ : Kernel) (m : Mount) : Prop where
  mounted : (remount κ m).2 = 0
  agree : ∀ b < m.sb.partitionSize.toNat,
    (remount κ m).1.usedBlocks.cell b = m.usedBlocks.cell b
  referenced : ∀ i < m.sb.entryCount.toNat, (entryAt m.dev i).Named → ∀ k,
    (entryAt m.dev i).blocks k ≠ 0 →
      (remount κ m).1.usedBlocks.cell ((entryAt m.dev i).blocks k).toNat ≠ 0

/-- Where the operation allocates, every pointer in front of the new one is set. -/
def Op.Gapless (m : Mount) : Op → Prop
  | .getBlock ino iblock true => ∀ (i : ℕ) (k : Fin 9), ino = (i : ℤ) + 1 → iblock = k.val →
      (entryAt m.dev i).blocks k = 0 → m.usedBlocks.free m.sb.dataBlockStart.toNat ≠ [] →
      ∀ j < k, (entryAt m.dev i).blocks j ≠ 0
  | _ => True

theorem remount_eq (hκ : κ.Reliable) (hm : m.Wf) : ∃ mem, (remount κ m).2 = 0 ∧
    (remount κ m).1.usedBlocks = m.volume.rebuild mem := by
  have h0 : m.sb.partitionSize ≠ 0 := by
    intro h
    have ht := hm.geometry.table_fits
    have hs := hm.geometry.start_le
    rw [h, UInt32.toNat_zero] at hs
    omega
  obtain ⟨mem, hmem⟩ := Option.isSome_iff_exists.mp (hκ.vmalloc _ h0)
  have he := initBrowsing_eq (m := kzallocInfo m.dev) hκ hm.onDevice hm.geometry hmem
  refine ⟨mem, by rw [remount, he], ?_⟩
  rw [remount, he, Volume.rebuild, show m.volume.used.size = _ from hm.size]
  rfl

/-- A mount whose pointers are packed and whose marks are exact. -/
structure Mount.Settled (m : Mount) : Prop extends m.Sane where
  packed : m.volume.Packed
  exact : m.volume.Exact

theorem Mount.Fresh.settled (h : m.Fresh) : m.Settled :=
  ⟨h.sane, h.volume.packed, h.volume.exact⟩

theorem Mount.Settled.agrees (hκ : κ.Reliable) (h : m.Settled) : m.RemountAgrees κ := by
  obtain ⟨mem, h0, ht⟩ := remount_eq hκ h.wf
  have hall : ∀ b < m.sb.partitionSize.toNat,
      (remount κ m).1.usedBlocks.cell b = m.usedBlocks.cell b := by
    intro b hb
    rw [ht]
    exact h.exact.rebuild_eq h.owned h.packed h.wf.start_le h.wf.size_lt mem b
      (Nat.lt_of_lt_of_eq hb h.wf.size.symm)
  refine ⟨h0, hall, ?_⟩
  intro i hi _ k hk
  have hp : m.volume.Held (i, k) ((entryAt m.dev i).blocks k).toNat := Volume.held_of_ne hi hk
  obtain ⟨hlt, hmark⟩ := h.owned.ledger.marked hp
  rw [hall _ (Nat.lt_of_lt_of_eq hlt h.wf.size)]
  exact hmark

theorem Mount.Settled.step (hκ : κ.Reliable) (h : m.Settled) {op : Op} (hop : op.Legal m.volume)
    (hg : op.Gapless m) : (Sfs.step κ m op).Settled := by
  have hmove := Volume.move_run hop
  refine ⟨h.toSane.step hκ hop, ?_, ?_⟩
  · rw [(step_becomes hκ h.wf hop.addressed).volume]
    refine h.packed.move hmove fun i k hz hne => ?_
    obtain ⟨rfl, hfree⟩ := Volume.run_sets hop hz hne
    exact hg i k rfl rfl hz hfree
  · rw [(step_becomes hκ h.wf hop.addressed).volume]
    exact h.exact.move h.owned h.packed h.wf.size_lt h.wf.start_pos hmove

/-- A block granted behind a zero pointer is not seen by a mount. -/
theorem Volume.Owned.not_seen_grant {v : Volume} (h : v.Owned) (hs : v.used.size ≤ 2 ^ 31)
    (h0 : 0 < v.start) {i : ℕ} {k j : Fin 9} {b : ℕ} {bs : List ℕ} (hi : v.Live i)
    (hb : v.used.free v.start = b :: bs) (hj : j < k) (hz : (v.entry i).blocks j = 0) :
    ¬ (v.grant i k b).Seen b := by
  rintro ⟨s, hsc, _, w, hw, rfl⟩
  obtain ⟨hlo, hlt, _⟩ := Volume.free_head hb
  obtain ⟨l, hl, hall⟩ := Volume.mem_prefixPtrs_iff.mp hw
  have hself : (v.grant i k w.toNat).Held (i, k) w.toNat :=
    (Volume.held_grant_self hi.1 (by omega) (by omega)).mpr rfl
  have hheld : (v.grant i k w.toNat).Held (s, l) w.toNat :=
    ⟨hsc, by rw [hl], by omega⟩
  -- the block is held at `(i, k)` only, and the pointer at `j` in front of it is zero
  obtain ⟨rfl, rfl⟩ := Prod.mk.inj ((h.grant hs hi hb).ledger.inj hheld hself)
  have hjl := hall j (Nat.le_of_lt hj)
  rw [Volume.grant_entry, if_pos rfl, Volume.point_blocks, if_neg (Fin.ne_of_lt hj)] at hjl
  exact hjl hz

/-- Granting a block behind a zero pointer leaves it used in memory and free after
a remount. -/
theorem Mount.Sane.disagrees (hκ : κ.Reliable) (h : m.Sane) {i : ℕ} {k j : Fin 9} {b : ℕ}
    {bs : List ℕ} (hi : m.volume.Live i) (hz : (m.volume.entry i).blocks k = 0)
    (hb : m.volume.used.free m.volume.start = b :: bs) (hj : j < k)
    (hzj : (m.volume.entry i).blocks j = 0) :
    ¬ (Sfs.step κ m (.getBlock ((i : ℤ) + 1) k.val true)).RemountAgrees κ := by
  intro ha
  obtain ⟨hlo, hlt, _⟩ := Volume.free_head hb
  have hlegal : (Op.getBlock ((i : ℤ) + 1) k.val true).Legal m.volume := ⟨i, rfl, hi⟩
  have hbec := step_becomes hκ h.wf hlegal.addressed
  have hv := hbec.volume.trans (Volume.run_getBlock_grant hz hb)
  obtain ⟨mem, _, ht⟩ := remount_eq hκ hbec.wf
  have hown := h.owned.grant h.wf.size_lt (k := k) hi hb
  obtain ⟨_, _, _, hout⟩ := Volume.rebuild_ok (v := m.volume.grant i k b) h.wf.start_le
    h.wf.size_lt
    (fun c hc => (Volume.held_of_seen hc).elim fun p hp => hown.lt_size hp) mem
  have hnot := h.owned.not_seen_grant h.wf.size_lt h.wf.start_pos hi hb hj hzj
  have hlow : ¬ b < (m.volume.grant i k b).start := Nat.not_lt.mpr hlo
  have hfree := hout b hlt (fun hor => hor.elim hlow hnot)
  have hused : (Sfs.step κ m (.getBlock ((i : ℤ) + 1) k.val true)).usedBlocks.cell b = 1 := by
    rw [show (Sfs.step κ m _).usedBlocks = (m.volume.grant i k b).used from congrArg Volume.used hv,
      Volume.grant_used, Buffer.cell_take, if_pos rfl]
  have heq := ha.agree b (by rw [hbec.sb, ← h.wf.size]; exact hlt)
  rw [ht, hv, hfree, hused] at heq
  exact absurd heq (by decide)

/-- One step from a settled mount keeps the agreement exactly when it is gapless. -/
theorem Mount.Settled.agrees_step_iff (hκ : κ.Reliable) (h : m.Settled) {op : Op}
    (hop : op.Legal m.volume) : (Sfs.step κ m op).RemountAgrees κ ↔ op.Gapless m := by
  constructor
  · intro ha
    cases op with
    | getBlock ino iblock c =>
      cases c with
      | false => trivial
      | true =>
        rintro i k rfl rfl hz hfree j hj hzj
        obtain ⟨l, hl, hi⟩ := hop
        obtain rfl : i = l := by omega
        obtain ⟨b, bs, hb⟩ := List.exists_cons_of_ne_nil hfree
        exact h.disagrees hκ hi hz hb hj hzj ha
    | _ => trivial
  · intro hg
    exact (h.step hκ hop hg).agrees hκ

/-- Mounting again agrees with the table in memory at every point of a run exactly
when the run grants no block behind a zero pointer. -/
theorem remount_agrees_iff (hκ : κ.Reliable) (hm : Mounted κ m) (ops : List Op)
    (hl : LegalRun κ m ops) :
    (∀ pre, pre <+: ops → (Run.exec (step κ) m pre).RemountAgrees κ) ↔
      Run.Along (step κ) (fun m op => op.Gapless m) m ops := by
  have h0 : m.Settled := (hm.fresh hκ).settled
  have hiff : Run.Along (step κ) (fun m op => (step κ m op).RemountAgrees κ) m ops ↔
      Run.Along (step κ) (fun m op => op.Gapless m) m ops :=
    Run.along_iff (fun (n : Mount) (op : Op) (hs : n.Settled) hop hg => hs.step hκ hop hg)
      (fun (n : Mount) (op : Op) (hs : n.Settled) hop => hs.agrees_step_iff hκ hop) h0 hl
  rw [Run.forall_prefix_iff, hiff]
  exact and_iff_right (h0.agrees hκ)

/-- On the small device mounting again after a run without gaps agrees. -/
theorem remount_agrees_sample : (Run.exec (step sampleKernel) sampleMount
    [.create [97] 7 0, .getBlock 1 0 true, .getBlock 1 1 true]).RemountAgrees sampleKernel := by
  refine (remount_agrees_iff sampleKernel_reliable sampleMount_mounted
    [.create [97] 7 0, .getBlock 1 0 true, .getBlock 1 1 true]
    ⟨trivial, ⟨0, rfl, by decide +kernel⟩, ⟨0, rfl, by decide +kernel⟩, trivial⟩).mpr
    ⟨trivial, ?_, ?_, trivial⟩ _ List.prefix_rfl
  · rintro i k _ hk _ _ j hj
    have hk0 : k.val = 0 := hk.symm
    have hjk : j.val < k.val := hj
    omega
  · rintro i k hi hk _ _ j hj
    obtain rfl : i = 0 := by omega
    have hk1 : k.val = 1 := hk.symm
    have hjk : j.val < k.val := hj
    obtain rfl : j = 0 := Fin.ext (by omega)
    decide +kernel

/-- A block granted at index 1 of an empty file is lost by mounting again. -/
theorem remount_disagrees : LegalRun sampleKernel sampleMount
      [.create [97] 7 0, .getBlock 1 1 true] ∧
    ¬ (Run.exec (step sampleKernel) sampleMount
      [.create [97] 7 0, .getBlock 1 1 true]).RemountAgrees sampleKernel := by
  refine ⟨⟨trivial, ⟨0, rfl, by decide +kernel⟩, trivial⟩, fun h => ?_⟩
  exact absurd (h.agree 2 (by decide +kernel)) (by decide +kernel)

end Linuxpedia.Sfs
