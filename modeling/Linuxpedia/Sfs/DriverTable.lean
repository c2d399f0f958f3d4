import Linuxpedia.Sfs.Driver
import Linuxpedia.Sfs.Volume

/-! The driver's access to the entry table, for any pattern of failing reads. On
a mount with the formatter's layout, slot `i` is read from and written to the 64
bytes at `512 + 64 i` whatever the block size of the device, and the scans of the
table stop at the first failing read or the first slot they look for. -/

namespace Linuxpedia.Sfs

open Lib

/-- What the driver relies on: the block size of the device is a positive multiple
of 512 and `vmalloc(0)` is `NULL`. -/
structure Kernel.Sound (κ : Kernel) : Prop where
  pos : 0 < κ.bdBlockSize.toNat
  mult : 512 ∣ κ.bdBlockSize.toNat
  vmalloc_zero : κ.vmalloc 0 = none

/-- No `sb_bread` fails and there is memory. -/
structure Kernel.Reliable (κ : Kernel) : Prop extends κ.Sound where
  bread : ∀ n b, κ.bread n b = true
  vmalloc : ∀ n, n ≠ 0 → (κ.vmalloc n).isSome

/-- The device block that holds slot `i`. -/
def Kernel.slotBlock (κ : Kernel) (i : ℕ) : UInt32 := UInt32.ofNat (512 + 64 * i) / κ.bdBlockSize

namespace Mount

/-- The layout is the formatter's, the super block in memory is the one on the
device and the allocation table has a byte per block. -/
structure Wf (m : Mount) : Prop where
  geometry : Geometry m.sb
  onDevice : SfsSuperBlock.ofBytes m.dev = m.sb
  size : m.usedBlocks.size = m.sb.partitionSize.toNat

/-- The mount after `n` more calls of `sb_bread`. -/
def tick (m : Mount) (n : ℕ) : Mount := { m with breads := m.breads + n }

/-- The volume of a mount. -/
def volume (m : Mount) : Volume where
  count := m.sb.entryCount.toNat
  start := m.sb.dataBlockStart.toNat
  entry := entryAt m.dev
  used := m.usedBlocks

@[simp] theorem tick_zero (m : Mount) : m.tick 0 = m := rfl

@[simp] theorem tick_tick (m : Mount) (a b : ℕ) : (m.tick a).tick b = m.tick (a + b) := by
  simp [tick, Nat.add_assoc]

@[simp] theorem tick_volume (m : Mount) (n : ℕ) : (m.tick n).volume = m.volume := rfl
@[simp] theorem tick_sb (m : Mount) (n : ℕ) : (m.tick n).sb = m.sb := rfl
@[simp] theorem tick_dev (m : Mount) (n : ℕ) : (m.tick n).dev = m.dev := rfl
@[simp] theorem tick_breads (m : Mount) (n : ℕ) : (m.tick n).breads = m.breads + n := rfl
@[simp] theorem tick_writes (m : Mount) (n : ℕ) : (m.tick n).writes = m.writes := rfl
@[simp] theorem tick_usedBlocks (m : Mount) (n : ℕ) : (m.tick n).usedBlocks = m.usedBlocks := rfl

end Mount

theorem entryAt_blit (dev : Store) (i j : ℕ) (fe : SfsFileEntry) :
    entryAt (dev.blit (512 + 64 * i) 64 fe.toBytes) j =
      if j = i then fe else entryAt dev j := by
  by_cases hj : j = i
  · subst hj
    rw [if_pos rfl, entryAt, ← SfsFileEntry.ofBytes_toBytes fe]
    exact SfsFileEntry.ofBytes_congr fun k hk => by
      rw [SfsFileEntry.ofBytes_toBytes]; exact Store.window_blit_self _ _ hk
  · rw [if_neg hj]
    exact SfsFileEntry.ofBytes_congr fun k hk => Store.window_blit_disjoint _ _ (by omega) hk

/-! ### One slot -/

section Slot

variable {κ : Kernel} {m : Mount} {i : ℕ}

/-- An entry never straddles two device blocks. -/
theorem entry_in_block {a B : ℕ} (hB : 0 < B) (ha : 64 ∣ a) (hd : 64 ∣ B) : a % B + 64 ≤ B := by
  have hlt := Nat.mod_lt a hB
  obtain ⟨c, hc⟩ := (Nat.dvd_mod_iff hd).mpr ha
  obtain ⟨d, hd⟩ := hd
  omega

theorem slot_abs (hg : Geometry m.sb) (hi : i < m.sb.entryCount.toNat) :
    m.sb.entryTableBlockStart * m.sb.blockSize + UInt32.ofInt ((i : ℤ) * 64) =
      UInt32.ofNat (512 + 64 * i) := by
  have hw := hg.table_wrap
  rw [hg.tableStart_eq, hg.blockSize_eq, show (i : ℤ) * 64 = ((64 * i : ℕ) : ℤ) by omega]
  apply UInt32.toNat_inj.mp
  rw [UInt32.toNat_add, toNat_ofInt_natCast (by omega), UInt32.toNat_ofNat']
  change (512 + 64 * i) % 2 ^ 32 = _
  rfl

theorem slot_bound (hκ : κ.Sound) (hg : Geometry m.sb) (hi : i < m.sb.entryCount.toNat) :
    (UInt32.ofNat (512 + 64 * i)).toNat = 512 + 64 * i ∧
      ¬ UInt32.ofNat (512 + 64 * i) % κ.bdBlockSize + 64 > κ.bdBlockSize := by
  have hw := hg.table_wrap
  have ha : (UInt32.ofNat (512 + 64 * i)).toNat = 512 + 64 * i := by
    rw [UInt32.toNat_ofNat', Nat.mod_eq_of_lt (by omega)]
  refine ⟨ha, ?_⟩
  have hb := entry_in_block hκ.pos (show 64 ∣ 512 + 64 * i by omega)
    ((show 64 ∣ 512 by decide).trans hκ.mult)
  have hlt := κ.bdBlockSize.toNat_lt
  rw [gt_iff_lt, UInt32.lt_iff_toNat_lt, UInt32.toNat_add, UInt32.toNat_mod, ha]
  change ¬ _ < (_ + 64) % 2 ^ 32
  omega

/-- Reading slot `i`. -/
theorem readEntry_eq (hκ : κ.Sound) (hg : Geometry m.sb) (hi : i < m.sb.entryCount.toNat) :
    readEntry κ m i = (m.tick 1,
      if κ.bread m.breads (κ.slotBlock i) then .ok (entryAt m.dev i) else .error (-eio)) := by
  obtain ⟨ha, hb⟩ := slot_bound hκ hg hi
  have haddr : ∀ j, (512 + 64 * i) / κ.bdBlockSize.toNat * κ.bdBlockSize.toNat +
      ((512 + 64 * i) % κ.bdBlockSize.toNat + j) = 512 + 64 * i + j := by
    intro j
    rw [← Nat.add_assoc, Nat.div_add_mod']
  have hwin : ∀ j, ((m.dev.window ((UInt32.ofNat (512 + 64 * i) / κ.bdBlockSize).toNat *
      κ.bdBlockSize.toNat)).window (UInt32.ofNat (512 + 64 * i) % κ.bdBlockSize).toNat) j =
      m.dev.window (512 + 64 * i) j := by
    intro j
    simp only [Store.window_apply, UInt32.toNat_div, UInt32.toNat_mod, ha, haddr]
  simp only [readEntry, readFromRealSfs, slot_abs hg hi, if_neg hb, sbBread]
  by_cases hr : κ.bread m.breads (UInt32.ofNat (512 + 64 * i) / κ.bdBlockSize) = true
  · simp only [hr, ↓reduceIte, Kernel.slotBlock, Except.map, Mount.tick, entryAt]
    rw [SfsFileEntry.ofBytes_congr fun j _ => hwin j]
  · simp only [hr, ↓reduceIte, Kernel.slotBlock, Except.map, Mount.tick, Bool.false_eq_true]

/-- The mount after a successful write of slot `i`. -/
def Mount.putEntry (m : Mount) (i : ℕ) (fe : SfsFileEntry) : Mount :=
  { m with dev := m.dev.blit (512 + 64 * i) 64 fe.toBytes }

/-- The mount with one more code of `write_to_real_sfs`. -/
def Mount.wrote (m : Mount) (r : ℤ) : Mount := { m with writes := r :: m.writes }

/-- Writing slot `i`. -/
theorem writeEntry_eq (hκ : κ.Sound) (hg : Geometry m.sb) (hi : i < m.sb.entryCount.toNat)
    (fe : SfsFileEntry) :
    writeEntry κ m i fe = if κ.bread m.breads (κ.slotBlock i)
      then (((m.putEntry i fe).tick 1).wrote 0, 0) else ((m.tick 1).wrote (-eio), -eio) := by
  obtain ⟨ha, hb⟩ := slot_bound hκ hg hi
  have haddr : (UInt32.ofNat (512 + 64 * i) / κ.bdBlockSize).toNat * κ.bdBlockSize.toNat +
      (UInt32.ofNat (512 + 64 * i) % κ.bdBlockSize).toNat = 512 + 64 * i := by
    rw [UInt32.toNat_div, UInt32.toNat_mod, ha, Nat.div_add_mod']
  simp only [writeEntry, writeToRealSfs, writeToDevice, slot_abs hg hi, if_neg hb, sbBread]
  by_cases hr : κ.bread m.breads (UInt32.ofNat (512 + 64 * i) / κ.bdBlockSize) = true
  · simp only [hr, ↓reduceIte, Kernel.slotBlock, haddr]
    rfl
  · simp only [hr, ↓reduceIte, Kernel.slotBlock, Bool.false_eq_true]
    rfl

end Slot

namespace Mount

@[simp] theorem putEntry_sb (m : Mount) (i fe) : (m.putEntry i fe).sb = m.sb := rfl
@[simp] theorem putEntry_usedBlocks (m : Mount) (i fe) :
    (m.putEntry i fe).usedBlocks = m.usedBlocks := rfl
@[simp] theorem putEntry_writes (m : Mount) (i fe) : (m.putEntry i fe).writes = m.writes := rfl
@[simp] theorem wrote_sb (m : Mount) (r) : (m.wrote r).sb = m.sb := rfl
@[simp] theorem wrote_dev (m : Mount) (r) : (m.wrote r).dev = m.dev := rfl
@[simp] theorem wrote_usedBlocks (m : Mount) (r) : (m.wrote r).usedBlocks = m.usedBlocks := rfl
@[simp] theorem wrote_volume (m : Mount) (r) : (m.wrote r).volume = m.volume := rfl

@[simp] theorem putEntry_volume (m : Mount) (i : ℕ) (fe : SfsFileEntry) :
    (m.putEntry i fe).volume = m.volume.put i fe := by
  simp only [volume, putEntry, Volume.put, Volume.mk.injEq, true_and, and_true]
  funext j
  rw [entryAt_blit, Function.update_apply]

end Mount

/-! ### Scans -/

section Scan

variable {κ : Kernel} {m : Mount} {v : Volume} {ok : ℕ → Prop}

/-- Step `i` of a scan of the table reads slot `i` of the volume where `ok` holds
and fails elsewhere. -/
structure Scanned (κ : Kernel) (m : Mount) (v : Volume) (ok : ℕ → Prop) : Prop where
  count : v.count = m.sb.entryCount.toNat
  read : ∀ i < v.count, ok i → readEntry κ (m.tick i) i = (m.tick (i + 1), .ok (v.entry i))
  fails : ∀ i < v.count, ¬ ok i → ∃ c e, readEntry κ (m.tick i) i = (m.tick c, .error e)

namespace Scanned

variable (h : Scanned κ m v ok)

include h

/-- `sfs_lookup` reads slots up to the one it finds. -/
theorem lookupLoop (fn : List UInt8) (n i : ℕ) (hn : i + n = v.count) (hr : ∀ j < i, ok j)
    (hpre : ∀ j < i, ¬ ((v.entry j).Named ∧ (v.entry j).cname = fn)) :
    (∃ s, v.slotOf fn = some s ∧ (∀ j < s + 1, ok j) ∧
      sfsLookupLoop κ fn n i (m.tick i) = (m.tick (s + 1), (s : ℤ) + 1, v.entry s)) ∨
    ((¬ ∃ s, v.slotOf fn = some s ∧ ∀ j < s + 1, ok j) ∧
      ∃ c, sfsLookupLoop κ fn n i (m.tick i) = (m.tick c, -1, .zero)) := by
  induction n generalizing i with
  | zero =>
    right
    refine ⟨?_, i, rfl⟩
    rintro ⟨s, hs, _⟩
    obtain ⟨hlt, hsm, _⟩ := Volume.slotOf_eq_some.mp hs
    exact hpre s (by omega) hsm
  | succ n ih =>
    have hi : i < v.count := by omega
    by_cases hb : ok i
    · have hr' : ∀ j < i + 1, ok j := by
        intro j hj
        by_cases hji : j = i
        · rw [hji]; exact hb
        · exact hr j (by omega)
      by_cases hmt : (v.entry i).Named ∧ (v.entry i).cname = fn
      · left
        refine ⟨i, Volume.slotOf_eq_some.mpr ⟨hi, hmt, hpre⟩, hr', ?_⟩
        simp [sfsLookupLoop, h.read i hi hb, hmt.1, hmt.2, s2vInodeNum]
      · have hstep : sfsLookupLoop κ fn (n + 1) i (m.tick i) =
            sfsLookupLoop κ fn n (i + 1) (m.tick (i + 1)) := by
          rw [sfsLookupLoop, h.read i hi hb]
          by_cases hnm : (v.entry i).Named
          · simp [hnm, show (v.entry i).cname ≠ fn from fun h => hmt ⟨hnm, h⟩]
          · simp [hnm]
        rw [hstep]
        apply ih (i + 1) (by omega) hr'
        intro j hj
        by_cases hji : j = i
        · rw [hji]; exact hmt
        · exact hpre j (by omega)
    · right
      obtain ⟨c, e, hc⟩ := h.fails i hi hb
      refine ⟨?_, c, by rw [sfsLookupLoop, hc]⟩
      rintro ⟨s, hs, hsc⟩
      obtain ⟨_, hsm, _⟩ := Volume.slotOf_eq_some.mp hs
      have his : i ≤ s := by
        by_contra hlt
        exact hpre s (by omega) hsm
      exact hb (hsc i (by omega))

theorem lookup_found {fn : List UInt8} {s : ℕ} (hs : v.slotOf fn = some s)
    (hr : ∀ j < s + 1, ok j) :
    sfsLookup κ m fn = (m.tick (s + 1), (s : ℤ) + 1, v.entry s) := by
  rw [sfsLookup, ← h.count]
  rcases h.lookupLoop fn v.count 0 (Nat.zero_add _) (fun _ h => by omega)
    (fun _ h => by omega) with ⟨t, ht, _, h⟩ | ⟨h, _⟩
  · obtain rfl : t = s := Option.some.inj (ht.symm.trans hs)
    exact h
  · exact absurd ⟨s, hs, hr⟩ h

theorem lookup_fails {fn : List UInt8} (hs : ¬ ∃ s, v.slotOf fn = some s ∧ ∀ j < s + 1, ok j) :
    ∃ c, sfsLookup κ m fn = (m.tick c, -1, .zero) := by
  rw [sfsLookup, ← h.count]
  rcases h.lookupLoop fn v.count 0 (Nat.zero_add _) (fun _ h => by omega)
    (fun _ h => by omega) with ⟨t, ht, hr, _⟩ | ⟨_, hc⟩
  · exact absurd ⟨t, ht, hr⟩ hs
  · exact hc

/-- `sfs_create` scans the whole table for the name and remembers the first free
slot. -/
theorem createLoop (fn : List UInt8) (n i : ℕ) (hn : i + n = v.count) (hr : ∀ j < i, ok j)
    (hpre : ∀ j < i, ¬ ((v.entry j).Named ∧ (v.entry j).cname = fn)) :
    (v.slotOf fn = none ∧ (∀ j < v.count, ok j) ∧
      sfsCreateLoop κ fn n i (m.tick i)
        ((List.range i).find? (fun j => ¬ (v.entry j).Named)) =
          (m.tick v.count, some v.freeSlot)) ∨
    (¬ (v.slotOf fn = none ∧ ∀ j < v.count, ok j) ∧
      ∃ c, sfsCreateLoop κ fn n i (m.tick i)
        ((List.range i).find? (fun j => ¬ (v.entry j).Named)) = (m.tick c, none)) := by
  induction n generalizing i with
  | zero =>
    obtain rfl : i = v.count := hn
    exact Or.inl ⟨Volume.first_eq_none.mpr hpre, hr, rfl⟩
  | succ n ih =>
    have hi : i < v.count := by omega
    by_cases hb : ok i
    · have hr' : ∀ j < i + 1, ok j := by
        intro j hj
        by_cases hji : j = i
        · rw [hji]; exact hb
        · exact hr j (by omega)
      by_cases hmt : (v.entry i).Named ∧ (v.entry i).cname = fn
      · right
        refine ⟨fun h => Volume.first_eq_none.mp h.1 i hi hmt, i + 1, ?_⟩
        simp [sfsCreateLoop, h.read i hi hb, hmt.1, hmt.2]
      · have hfree : (List.range (i + 1)).find? (fun j => ¬ (v.entry j).Named) =
            ((List.range i).find? (fun j => ¬ (v.entry j).Named) <|>
              if ¬ (v.entry i).Named then some i else none) := by
          rw [List.range_succ, List.find?_append]
          by_cases hnm : (v.entry i).Named <;> simp [hnm]
        have hstep : sfsCreateLoop κ fn (n + 1) i (m.tick i)
              ((List.range i).find? (fun j => ¬ (v.entry j).Named)) =
            sfsCreateLoop κ fn n (i + 1) (m.tick (i + 1))
              ((List.range (i + 1)).find? (fun j => ¬ (v.entry j).Named)) := by
          rw [sfsCreateLoop, h.read i hi hb, hfree]
          by_cases hnm : (v.entry i).Named
          · simp [hnm, show (v.entry i).cname ≠ fn from fun h => hmt ⟨hnm, h⟩]
          · simp [hnm]
        rw [hstep]
        apply ih (i + 1) (by omega) hr'
        intro j hj
        by_cases hji : j = i
        · rw [hji]; exact hmt
        · exact hpre j (by omega)
    · right
      obtain ⟨c, e, hc⟩ := h.fails i hi hb
      exact ⟨fun h => hb (h.2 i hi), c, by rw [sfsCreateLoop, hc]⟩

theorem createLoop_absent {fn : List UInt8} (hs : v.slotOf fn = none) (hr : ∀ j < v.count, ok j) :
    sfsCreateLoop κ fn m.sb.entryCount.toNat 0 m none = (m.tick v.count, some v.freeSlot) := by
  rw [← h.count]
  rcases h.createLoop fn v.count 0 (Nat.zero_add _) (fun _ h => by omega)
    (fun _ h => by omega) with ⟨_, _, h⟩ | ⟨h, _⟩
  · exact h
  · exact absurd ⟨hs, hr⟩ h

theorem createLoop_fails {fn : List UInt8} (hs : ¬ (v.slotOf fn = none ∧ ∀ j < v.count, ok j)) :
    ∃ c, sfsCreateLoop κ fn m.sb.entryCount.toNat 0 m none = (m.tick c, none) := by
  rw [← h.count]
  rcases h.createLoop fn v.count 0 (Nat.zero_add _) (fun _ h => by omega)
    (fun _ h => by omega) with ⟨hs', hr, _⟩ | ⟨_, hc⟩
  · exact absurd ⟨hs', hr⟩ hs
  · exact hc

end Scanned

/-! With the formatter's layout a scan fails at the first failing read. -/

/-- The first `k` reads of a scan of the table succeed. -/
def Kernel.Scans (κ : Kernel) (m : Mount) (k : ℕ) : Prop :=
  ∀ i < k, κ.bread (m.breads + i) (κ.slotBlock i) = true

theorem Kernel.Reliable.scans (hκ : κ.Reliable) (k : ℕ) : κ.Scans m k :=
  fun _ _ => hκ.bread _ _

/-- The reading step of a scan at slot `i`. -/
theorem readEntry_tick (hκ : κ.Sound) (hg : Geometry m.sb) {i : ℕ} (hi : i < m.sb.entryCount.toNat) :
    readEntry κ (m.tick i) i = (m.tick (i + 1),
      if κ.bread (m.breads + i) (κ.slotBlock i) then .ok (entryAt m.dev i) else .error (-eio)) := by
  rw [readEntry_eq (m := m.tick i) hκ hg hi, Mount.tick_tick]
  rfl

theorem Geometry.scanned (hκ : κ.Sound) (hg : Geometry m.sb) :
    Scanned κ m m.volume fun i => κ.bread (m.breads + i) (κ.slotBlock i) = true where
  count := rfl
  read := fun i hi hb => by rw [readEntry_tick hκ hg hi, if_pos hb]; rfl
  fails := fun i hi hb => ⟨i + 1, -eio, by rw [readEntry_tick hκ hg hi, if_neg hb]⟩

theorem sfsLookup_found (hκ : κ.Sound) (hg : Geometry m.sb) {fn : List UInt8} {s : ℕ}
    (hs : m.volume.slotOf fn = some s) (hr : κ.Scans m (s + 1)) :
    sfsLookup κ m fn = (m.tick (s + 1), (s : ℤ) + 1, entryAt m.dev s) :=
  (hg.scanned hκ).lookup_found hs hr

theorem sfsLookup_fails (hκ : κ.Sound) (hg : Geometry m.sb) {fn : List UInt8}
    (h : ¬ ∃ s, m.volume.slotOf fn = some s ∧ κ.Scans m (s + 1)) :
    ∃ c, sfsLookup κ m fn = (m.tick c, -1, .zero) :=
  (hg.scanned hκ).lookup_fails h

theorem sfsCreateLoop_absent (hκ : κ.Sound) (hg : Geometry m.sb) {fn : List UInt8}
    (hs : m.volume.slotOf fn = none) (hr : κ.Scans m m.sb.entryCount.toNat) :
    sfsCreateLoop κ fn m.sb.entryCount.toNat 0 m none =
      (m.tick m.sb.entryCount.toNat, some m.volume.freeSlot) :=
  (hg.scanned hκ).createLoop_absent hs hr

theorem sfsCreateLoop_fails (hκ : κ.Sound) (hg : Geometry m.sb) {fn : List UInt8}
    (h : ¬ (m.volume.slotOf fn = none ∧ κ.Scans m m.sb.entryCount.toNat)) :
    ∃ c, sfsCreateLoop κ fn m.sb.entryCount.toNat 0 m none = (m.tick c, none) :=
  (hg.scanned hκ).createLoop_fails h

end Scan

end Linuxpedia.Sfs
