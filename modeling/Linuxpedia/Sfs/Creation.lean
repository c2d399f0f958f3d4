import Linuxpedia.Sfs.RawTable
import Linuxpedia.Sfs.Mounting

/-! Creation against lookup and removal. A name is compared whole and stored cut to
15 bytes, so the entry of a longer name answers to another name: it is not found,
a second creation makes another one, and the removal that `sfs_inode_create` falls
back on finds nothing to remove. -/

namespace Linuxpedia.Sfs

open Lib

/-- A name the VFS may pass: 1 to 255 bytes without NUL. -/
structure VfsName (fn : List UInt8) : Prop where
  pos : 1 ≤ fn.length
  le : fn.length ≤ 255
  nul : (0 : UInt8) ∉ fn

/-- Two tables with the same files: they differ in slots without a name only. -/
structure Volume.SameFiles (v w : Volume) : Prop where
  count : w.count = v.count
  start : w.start = v.start
  used : w.used = v.used
  entry : ∀ i < v.count, w.entry i = v.entry i ∨ ¬ (v.entry i).Named ∧ ¬ (w.entry i).Named

/-- What `sfs_create` that returned an inode number leaves: a lookup returns it, the
name cannot be created again, and removing it gives the table back. -/
structure CreateConsistent (κ : Kernel) (m : Mount) (fn : List UInt8) (perms : ℤ)
    (now : UInt32) : Prop where
  found : (sfsLookup κ (sfsCreate κ m fn perms now).1 fn).2.1 = (sfsCreate κ m fn perms now).2
  once : ∀ p t, (sfsCreate κ (sfsCreate κ m fn perms now).1 fn p t).2 = -1
  removed : (sfsRemove κ (sfsCreate κ m fn perms now).1 fn).2 ≠ -1
  undone : m.table.SameFiles (sfsRemove κ (sfsCreate κ m fn perms now).1 fn).1.table

variable {κ : Kernel} {m : Mount} {i : ℕ} {fn : List UInt8} {perms : ℤ} {now : UInt32}

/-- The first free slot has no smaller number. -/
theorem freeSlot_least (hi : m.table.freeSlot = some i) {j : ℕ} (hj : j < i) :
    m.sb.slotAddr j ≠ m.sb.slotAddr i := by
  intro h
  obtain ⟨_, hfree, hpre⟩ := Volume.freeSlot_eq_some.mp hi
  have he : m.table.entry j = m.table.entry i := rawEntry_congr h m.dev
  exact hfree (he ▸ hpre j hj)

theorem fresh_named (hfn : VfsName fn) (t p : UInt32) : (SfsFileEntry.fresh fn t p).Named := by
  rw [SfsFileEntry.named_iff, SfsFileEntry.cname_fresh_take hfn.nul]
  have hpos := hfn.pos
  intro h
  have hlen := congrArg List.length h
  rw [List.length_take, List.length_nil] at hlen
  omega

/-- The new entry is found under the bytes stored of its name. -/
theorem slotOf_created (hfn : VfsName fn) (hs : m.table.slotOf (fn.take 15) = none)
    (hi : m.table.freeSlot = some i) (c : ℕ) (t p : UInt32) :
    ((m.tick c).stored i (.fresh fn t p)).table.slotOf (fn.take 15) = some i := by
  obtain ⟨hlt, _, _⟩ := Volume.freeSlot_eq_some.mp hi
  apply Volume.slotOf_eq_some.mpr
  refine ⟨hlt, ?_, fun j hj => ?_⟩
  · rw [Mount.stored_entry, if_pos rfl]
    exact ⟨fresh_named hfn t p, SfsFileEntry.cname_fresh_take hfn.nul t p⟩
  · rw [Mount.stored_entry, Mount.tick_sb, if_neg (freeSlot_least hi hj)]
    exact Volume.first_eq_none.mp hs j (by omega)

/-- A name that is cut is not the name of the new entry. -/
theorem slotOf_cut (hfn : VfsName fn) (hlen : 15 < fn.length) (hs : m.table.slotOf fn = none)
    (c : ℕ) (t p : UInt32) : ((m.tick c).stored i (.fresh fn t p)).table.slotOf fn = none := by
  apply Volume.first_eq_none.mpr
  intro j hj
  rw [Mount.stored_entry]
  split_ifs with hji
  · rintro ⟨_, hname⟩
    rw [SfsFileEntry.cname_fresh_take hfn.nul] at hname
    have hl := congrArg List.length hname
    rw [List.length_take] at hl
    omega
  · exact Volume.first_eq_none.mp hs j hj

theorem prefixPtrs_fresh (t p : UInt32) : (SfsFileEntry.fresh fn t p).prefixPtrs = [] := by
  rfl

/-- Clearing the entry just made leaves a slot without a name where one was before. -/
theorem sameFiles_cleared (hi : m.table.freeSlot = some i) {w : Mount} (hsb : w.sb = m.sb)
    (hused : w.usedBlocks = m.usedBlocks)
    (hent : ∀ j, m.sb.slotAddr j ≠ m.sb.slotAddr i → w.table.entry j = m.table.entry j) :
    m.table.SameFiles (w.stored i .zero).table where
  count := congrArg (fun sb => sb.entryCount.toNat) hsb
  start := congrArg (fun sb => sb.dataBlockStart.toNat) hsb
  used := hused
  entry := by
    intro j _
    rw [Mount.stored_entry, hsb]
    split_ifs with hj
    · right
      have he : m.table.entry j = m.table.entry i := rawEntry_congr hj m.dev
      rw [he]
      exact ⟨(Volume.freeSlot_eq_some.mp hi).2.1, SfsFileEntry.zero_not_named⟩
    · exact Or.inl (hent j hj)

/-- For a name of at most 15 bytes the three operations agree. -/
theorem createConsistent_of_fits (hR : κ.Readable m.sb) (hfn : VfsName fn) (hlen : fn.length ≤ 15)
    (hs : m.table.slotOf fn = none) (hi : m.table.freeSlot = some i) :
    CreateConsistent κ m fn perms now := by
  have hc := create_writes hR perms now hs hi
  set m' := (m.tick m.table.count).stored i (.fresh fn now (UInt32.ofInt perms)) with hm'
  have htake : fn.take 15 = fn := List.take_of_length_le hlen
  have hR' : κ.Readable m'.sb := hR
  have hslot : m'.table.slotOf fn = some i := by
    have h := slotOf_created hfn (htake.symm ▸ hs) hi m.table.count now (UInt32.ofInt perms)
    rwa [htake] at h
  have hfound := lookup_found hR' hslot
  have hrem := remove_found hR' hslot
  have hptrs : (m'.table.entry i).prefixPtrs = [] := by
    rw [hm', Mount.stored_entry, if_pos rfl, prefixPtrs_fresh]
  rw [hptrs, Buffer.clear_nil] at hrem
  constructor
  · rw [hc, hfound]
  · intro p t
    have hne : m'.table.slotOf fn ≠ none := by simp [hslot]
    obtain ⟨c, hagain⟩ := create_fails hR' p t (Or.inl hne)
    rw [hc, hagain]
  · rw [hc, hrem]
    simp only
    omega
  · rw [hc, hrem]
    refine sameFiles_cleared hi (w := (m'.tick (i + 1)).withUsed m'.usedBlocks) rfl rfl fun j hj => ?_
    exact (Mount.stored_entry _ _ _ _).trans (if_neg hj)

/-- A creation keeps what it promises exactly when the name is stored whole, or when
it fails because the name is there or no slot is free. -/
theorem create_consistent_iff (hR : κ.Readable m.sb) (hfn : VfsName fn) (perms : ℤ) (now : UInt32) :
    ((sfsCreate κ m fn perms now).2 ≠ -1 → CreateConsistent κ m fn perms now) ↔
      fn.length ≤ 15 ∨ m.table.slotOf fn ≠ none ∨ m.table.freeSlot = none := by
  by_cases hfail : m.table.slotOf fn ≠ none ∨ m.table.freeSlot = none
  · obtain ⟨c, hc⟩ := create_fails hR perms now hfail
    refine iff_of_true (fun hne => ?_) (Or.inr hfail)
    rw [hc] at hne
    exact absurd rfl hne
  · push Not at hfail
    obtain ⟨hs, hfree⟩ := hfail
    obtain ⟨i, hi⟩ := Option.ne_none_iff_exists'.mp hfree
    have hc := create_writes hR perms now hs hi
    constructor
    · intro h
      by_contra hlong
      push Not at hlong
      have hfound := (h (by rw [hc]; simp only; omega)).found
      obtain ⟨c, habsent⟩ := lookup_absent (κ := κ)
        (slotOf_cut (i := i) hfn hlong.1 hs m.table.count now (UInt32.ofInt perms))
      rw [hc, habsent] at hfound
      simp only at hfound
      omega
    · rintro (hlen | h | h)
      · exact fun _ => createConsistent_of_fits hR hfn hlen hs hi
      · exact absurd hs h
      · exact absurd h hfree

/-! ### The undo of `sfs_inode_create` -/

/-- Without an inode `sfs_inode_create` gives the table back, if the name fits. -/
theorem inodeCreate_undone (hR : κ.Readable m.sb) (hfn : VfsName fn) (hlen : fn.length ≤ 15)
    (mode now : UInt32) : m.table.SameFiles (sfsInodeCreate κ m fn mode now false).1.table := by
  have hsame : m.table.SameFiles m.table := ⟨rfl, rfl, rfl, fun _ _ => Or.inl rfl⟩
  have hfits := (create_consistent_iff hR hfn (permsOfMode mode) now).mpr (Or.inl hlen)
  unfold sfsInodeCreate
  by_cases hfail : m.table.slotOf fn ≠ none ∨ m.table.freeSlot = none
  · obtain ⟨c, hc⟩ := create_fails hR (permsOfMode mode) now hfail
    rw [hc]
    exact hsame
  · push Not at hfail
    obtain ⟨i, hi⟩ := Option.ne_none_iff_exists'.mp hfail.2
    have hc := create_writes hR (permsOfMode mode) now hfail.1 hi
    have hne : (sfsCreate κ m fn (permsOfMode mode) now).2 ≠ -1 := by
      rw [hc]
      simp only
      omega
    simp only [if_neg hne, Bool.false_eq_true, not_false_eq_true, ↓reduceIte]
    exact (hfits hne).undone

/-- For a longer name it leaves an entry that no inode is given for. -/
theorem inodeCreate_orphan (hR : κ.Readable m.sb) (hfn : VfsName fn) (hlen : 15 < fn.length)
    (hs : m.table.slotOf fn = none) (hcut : m.table.slotOf (fn.take 15) = none)
    (hi : m.table.freeSlot = some i) (mode now : UInt32) :
    (sfsInodeCreate κ m fn mode now false).2 = (-eacces, none) ∧
      (sfsInodeCreate κ m fn mode now false).1.table.slotOf (fn.take 15) = some i := by
  have hne : ¬ (i : ℤ) + 1 = -1 := by omega
  have habsent := slotOf_cut (i := i) hfn hlen hs m.table.count now
    (UInt32.ofInt (permsOfMode mode))
  obtain ⟨c, hc⟩ := remove_absent (κ := κ) habsent
  unfold sfsInodeCreate
  rw [create_writes hR (permsOfMode mode) now hs hi]
  simp only [if_neg hne, Bool.false_eq_true, not_false_eq_true, ↓reduceIte, hc]
  exact ⟨trivial, slotOf_created hfn hcut hi m.table.count now _⟩

/-! ### On the small device -/

theorem Kernel.Reliable.readable (hκ : κ.Reliable) (hg : Geometry m.sb) : κ.Readable m.sb := by
  intro n i hi
  unfold Kernel.Reads SfsSuperBlock.slotAddr
  rw [slot_abs hg hi]
  exact ⟨(slot_bound hκ.toSound hg hi).2, hκ.bread _ _⟩

theorem sampleMount_readable : sampleKernel.Readable sampleMount.sb :=
  sampleKernel_reliable.readable (sampleMount_mounted.fresh sampleKernel_reliable).wf.geometry

/-- A file of one letter. -/
theorem create_consistent_sample : CreateConsistent sampleKernel sampleMount [97] 6 7 :=
  (create_consistent_iff sampleMount_readable ⟨by decide, by decide, by decide⟩ 6 7).mpr
    (Or.inl (by decide)) (by decide +kernel)

/-- A name of 16 letters is created and not found. -/
theorem create_not_found : sampleKernel.Readable sampleMount.sb ∧ VfsName (List.replicate 16 97) ∧
    ¬ ((sfsCreate sampleKernel sampleMount (List.replicate 16 97) 6 7).2 ≠ -1 →
      CreateConsistent sampleKernel sampleMount (List.replicate 16 97) 6 7) := by
  refine ⟨sampleMount_readable, ⟨by decide, by decide, by decide⟩, fun h => ?_⟩
  have hcreate : (sfsCreate sampleKernel sampleMount (List.replicate 16 97) 6 7).2 = 1 := by
    decide +kernel
  have hlookup : (sfsLookup sampleKernel
      (sfsCreate sampleKernel sampleMount (List.replicate 16 97) 6 7).1
      (List.replicate 16 97)).2.1 = -1 := by
    decide +kernel
  have hfound := (h (by rw [hcreate]; decide)).found
  rw [hlookup, hcreate] at hfound
  exact absurd hfound (by decide)

end Linuxpedia.Sfs
