import Linuxpedia.Sfs.Service
import Mathlib.Order.Interval.Finset.Nat

/-! What each request does to a mount and to the files it serves. The files are read off
the directory and the blocks; a request changes the file that it names, and the ledger of
the blocks keeps the data of all others. -/

namespace Linuxpedia.Sfs

open Lib

variable {κ : Kernel} {m : Mount}

/-! ### The device behind the entry table -/

/-- The data blocks of two mounts hold the same bytes. -/
def Mount.SameData (m m' : Mount) : Prop :=
  ∀ a, 512 * m.sb.dataBlockStart.toNat ≤ a → m'.dev a = m.dev a

section SameData

variable (hg : Geometry m.sb) {i : ℕ} (hi : i < m.sb.entryCount.toNat)

include hg hi

/-- A slot lies in front of the data. -/
theorem Mount.sameData_putEntry (fe : SfsFileEntry) : m.SameData (m.putEntry i fe) := by
  intro a ha
  have ht := hg.table_fits
  exact Store.blit_outside _ _ (by omega)

theorem Mount.sameData_released (n : ℕ) (bs : List UInt32) (fe : SfsFileEntry) :
    m.SameData ((m.tick n).released i bs fe) :=
  m.sameData_putEntry hg hi fe

theorem Mount.sameData_granted (n : ℕ) (k : Fin 9) (b : ℕ) :
    m.SameData ((m.tick n).granted i k b) :=
  m.sameData_putEntry hg hi _

end SameData

theorem Mount.sameData_tick (m : Mount) (n : ℕ) : m.SameData (m.tick n) := fun _ _ => rfl

/-- No operation of the driver touches a data block. -/
theorem step_sameData (hκ : κ.Reliable) (hm : m.Wf) {op : Op} (h : op.Addressed m.volume) :
    m.SameData (step κ m op) := by
  cases op with
  | create fn perms now =>
    by_cases hc : m.volume.slotOf fn = none ∧ κ.Scans m m.sb.entryCount.toNat ∧
        ∃ i, m.volume.freeSlot = some i
    · obtain ⟨hs, hr, i, hi⟩ := hc
      rw [step, Op.run, sfsCreate_writes hκ.toSound hm.geometry perms now hs hr hi,
        if_pos (hκ.bread _ _)]
      exact m.sameData_released hm.geometry (Volume.freeSlot_eq_some.mp hi).1 _ _ _
    · obtain ⟨c, hfail⟩ := sfsCreate_fails hκ.toSound hm.geometry perms now hc
      rw [step, Op.run, hfail]
      exact m.sameData_tick c
  | lookup fn =>
    obtain ⟨n, fe, he, _⟩ := sfsLookup_refines hκ hm fn
    rw [step, Op.run, he]
    exact m.sameData_tick n
  | remove fn =>
    cases hs : m.volume.slotOf fn with
    | none =>
      obtain ⟨c, hfail⟩ := sfsRemove_fails hκ.toSound hm.geometry
        (show ¬ ∃ s, m.volume.slotOf fn = some s ∧ κ.Scans m (s + 1) by simp [hs])
      rw [step, Op.run, hfail]
      exact m.sameData_tick c
    | some i =>
      rw [step, Op.run, sfsRemove_writes hκ.toSound hm.geometry hs (hκ.scans _),
        if_pos (hκ.bread _ _)]
      exact m.sameData_released hm.geometry (Volume.live_of_slotOf hs).1 _ _ _
  | getBlock ino iblock create =>
    obtain ⟨i, hi, rfl⟩ := h
    rw [step, Op.run]
    by_cases hk : iblock < 9
    · by_cases hne : (entryAt m.dev i).blocks ⟨iblock, hk⟩ = 0
      · cases create with
        | false =>
          rw [show sfsGetBlock κ m ((i : ℤ) + 1) iblock false = _ from
            sfsGetBlock_hole hκ.toSound hm hi ⟨iblock, hk⟩ (hκ.bread _ _) hne]
          exact m.sameData_tick 1
        | true =>
          cases hf : m.usedBlocks.free m.sb.dataBlockStart.toNat with
          | nil =>
            rw [show sfsGetBlock κ m ((i : ℤ) + 1) iblock true = _ from
              sfsGetBlock_full hκ.toSound hm hi ⟨iblock, hk⟩ (hκ.bread _ _) hne hf]
            exact m.sameData_tick 1
          | cons b bs =>
            rw [show sfsGetBlock κ m ((i : ℤ) + 1) iblock true = _ from
              sfsGetBlock_writes hκ.toSound hm hi ⟨iblock, hk⟩ (hκ.bread _ _) hne hf,
              if_pos (hκ.bread _ _)]
            exact m.sameData_granted hm.geometry hi _ _ _
      · rw [show sfsGetBlock κ m ((i : ℤ) + 1) iblock create = _ from
          sfsGetBlock_mapped hκ.toSound hm hi ⟨iblock, hk⟩ create (hκ.bread _ _) hne]
        exact m.sameData_tick 1
    · rw [sfsGetBlock_far hk]
      exact m.sameData_tick 0
  | update ino size timestamp perms =>
    obtain ⟨i, hi, rfl⟩ := h
    rw [step, Op.run, sfsUpdate_writes hκ.toSound hm.geometry hi (hκ.bread _ _) size timestamp
      perms rfl, if_pos (hκ.bread _ _)]
    exact m.sameData_released hm.geometry hi _ _ _

/-! ### The files of a mount -/

/-- The data of block `k` of a file, if it has one. -/
def blockAt (dev : Store) (f : File) (k : ℕ) : Option (List UInt8) :=
  if h : k < 9 then
    if f.blocks ⟨k, h⟩ = 0 then none else some (dev.slice (512 * (f.blocks ⟨k, h⟩).toNat) 512)
  else none

/-- A file of the directory with its data. -/
def nodeAt (dev : Store) (f : File) : Node :=
  ⟨f.size.toNat, modeOfPerms f.perms, f.timestamp, blockAt dev f⟩

/-- The files that a mount serves. -/
def Mount.nodes (m : Mount) : Nodes := fun fn => (m.volume.dir fn).map (nodeAt m.dev)

theorem blockAt_fin (dev : Store) (f : File) (k : Fin 9) : blockAt dev f k =
    if f.blocks k = 0 then none else some (dev.slice (512 * (f.blocks k).toNat) 512) :=
  dif_pos k.isLt

theorem blockAt_ne_none {dev : Store} {f : File} {k : ℕ} :
    blockAt dev f k ≠ none ↔ ∃ h : k < 9, f.blocks ⟨k, h⟩ ≠ 0 := by
  unfold blockAt
  split_ifs with hk h0
  · simp [hk, h0]
  · simp [hk, h0]
  · simp [hk]

theorem length_blockAt {dev : Store} {f : File} {k : ℕ} {d : List UInt8}
    (h : blockAt dev f k = some d) : d.length = 512 := by
  unfold blockAt at h
  split_ifs at h with hk h0
  rw [← Option.some.inj h, Store.length_slice]

/-- Files see only their blocks. -/
theorem blockAt_congr {dev dev' : Store} {f : File} {k : ℕ}
    (h : ∀ hk : k < 9, f.blocks ⟨k, hk⟩ ≠ 0 → ∀ j < 512,
      dev' (512 * (f.blocks ⟨k, hk⟩).toNat + j) = dev (512 * (f.blocks ⟨k, hk⟩).toNat + j)) :
    blockAt dev' f k = blockAt dev f k := by
  unfold blockAt
  split_ifs with hk h0
  · rfl
  · exact congrArg some (Store.bytes_congr (h hk h0))
  · rfl

theorem blockAt_update {dev : Store} {f : File} {k : Fin 9} {b : UInt32} {l : ℕ} (hl : l ≠ k.val) :
    blockAt dev { f with blocks := Function.update f.blocks k b } l = blockAt dev f l := by
  unfold blockAt
  by_cases hl9 : l < 9
  · have hne : (⟨l, hl9⟩ : Fin 9) ≠ k := fun he => hl (congrArg Fin.val he)
    simp only [dif_pos hl9, Function.update_of_ne hne]
  · simp only [dif_neg hl9]

section Nodes

variable {fn : List UInt8}

theorem nodes_eq_none : m.nodes fn = none ↔ m.volume.slotOf fn = none := by
  rw [Mount.nodes, Option.map_eq_none_iff, Volume.dir_eq_none]

theorem nodes_of_slot {i : ℕ} (hs : m.volume.slotOf fn = some i) :
    m.nodes fn = some (nodeAt m.dev (m.volume.file i)) := by
  rw [Mount.nodes, Volume.dir, hs]
  rfl

theorem nodes_eq_some {f : Node} : m.nodes fn = some f ↔
    ∃ i, m.volume.slotOf fn = some i ∧ f = nodeAt m.dev (m.volume.file i) := by
  cases hs : m.volume.slotOf fn with
  | none =>
    rw [nodes_eq_none.mpr hs]
    constructor
    · rintro ⟨⟩
    · rintro ⟨i, ⟨⟩, _⟩
  | some i =>
    rw [nodes_of_slot hs]
    constructor
    · exact fun h => ⟨i, rfl, (Option.some.inj h).symm⟩
    · rintro ⟨j, hj, rfl⟩
      rw [Option.some.inj hj]

end Nodes

/-- The data of a file that the directory holds stay as long as its blocks do. -/
theorem Volume.Owned.nodeAt_congr (ho : m.volume.Owned) {dev' : Store} {fn : List UInt8} {f : File}
    (hf : m.volume.dir fn = some f)
    (h : ∀ b : ℕ, (∃ i k, m.volume.slotOf fn = some i ∧ m.volume.Held (i, k) b) →
      m.volume.start ≤ b → ∀ j < 512, dev' (512 * b + j) = m.dev (512 * b + j)) :
    nodeAt dev' f = nodeAt m.dev f := by
  obtain ⟨i, hi, rfl⟩ := Option.map_eq_some_iff.mp hf
  have hlt := (Volume.live_of_slotOf hi).1
  refine Node.ext rfl rfl rfl (funext fun k => ?_)
  refine blockAt_congr fun hk h0 => ?_
  have hheld := Volume.held_of_ne (k := ⟨k, hk⟩) hlt h0
  exact h _ ⟨i, _, hi, hheld⟩ (ho.data hheld)

/-- Where one name of the directory changes, one file does. -/
theorem nodes_update {m' : Mount} {fn : List UInt8} {f : Option File}
    (hd : m'.volume.dir = Function.update m.volume.dir fn f)
    (hrest : ∀ g f, g ≠ fn → m.volume.dir g = some f → nodeAt m'.dev f = nodeAt m.dev f) :
    m'.nodes = Function.update m.nodes fn (f.map (nodeAt m'.dev)) := by
  funext g
  unfold Mount.nodes
  rw [hd]
  by_cases hg : g = fn
  · subst hg
    simp
  · rw [Function.update_of_ne hg, Function.update_of_ne hg]
    exact Option.map_congr fun f hf => hrest g f hg hf

/-! ### Mapped blocks -/

section Submit

variable {b : UInt32} (hm : m.Wf) (hb : m.volume.start ≤ b.toNat) (data : Store)

include hm

theorem Mount.Wf.sBlocksize_eq : m.sBlocksize = 512 := by
  rw [Mount.sBlocksize, hm.geometry.blockSize_eq]
  rfl

/-- The two ways to address a mapped block agree. -/
theorem submitRead_eq (b : UInt32) : m.submitRead b = m.dev.slice (512 * b.toNat) 512 := by
  have hs : m.sBlocksize = 2 ^ 9 := hm.sBlocksize_eq
  rw [Mount.submitRead, Mount.two_pow_sBlocksizeBits hs, hs, Nat.mul_comm]
  rfl

theorem submitWrite_dev : (m.submitWrite b data).dev = m.dev.blit (512 * b.toNat) 512 data := by
  rw [Mount.submitWrite, hm.sBlocksize_eq, Nat.mul_comm]

include hb

/-- Data go behind the entry table. -/
theorem submitWrite_low {a : ℕ} (ha : a < 512 * m.volume.start) :
    (m.submitWrite b data).dev a = m.dev a := by
  rw [submitWrite_dev hm]
  exact Store.blit_outside _ _ (by omega)

theorem submitWrite_same : m.volume.Same (m.submitWrite b data).volume where
  count := rfl
  start := rfl
  entry := by
    intro i hi
    have ht := hm.geometry.table_fits
    have hlt : i < m.sb.entryCount.toNat := hi
    refine SfsFileEntry.ofBytes_congr fun j hj => ?_
    rw [Store.window_apply, Store.window_apply]
    exact submitWrite_low hm hb data
      (show _ < 512 * m.sb.dataBlockStart.toNat by omega)
  size := rfl
  cell := fun _ _ => rfl

theorem submitWrite_wf : (m.submitWrite b data).Wf := by
  refine ⟨hm.geometry, ?_, hm.size⟩
  have hpos := hm.start_pos
  have hword : ∀ o ≤ 28, (m.submitWrite b data).dev.word o = m.dev.word o := fun o ho =>
    Store.word_congr fun k hk => submitWrite_low hm hb data (by omega)
  rw [show (m.submitWrite b data).sb = m.sb from rfl, ← hm.onDevice]
  simp [SfsSuperBlock.ofBytes, hword]

end Submit

/-- A settled mount whose directory has no name twice. -/
structure Mount.Serving (m : Mount) : Prop extends m.Settled where
  catalog : m.volume.Catalog

namespace Mount.Serving

theorem volume_settled (h : m.Serving) : m.volume.Settled := ⟨h.owned, h.packed, h.exact⟩

theorem of_same {m' : Mount} (h : m.Serving) (hw : m'.Wf) (hs : m.volume.Same m'.volume) :
    m'.Serving := by
  have hset := hs.settled h.volume_settled
  exact ⟨⟨⟨hw, hset.owned⟩, hset.packed, hset.exact⟩, hs.catalog h.catalog⟩

theorem tick (h : m.Serving) (n : ℕ) : (m.tick n).Serving :=
  h.of_same (h.wf.tick n) ⟨rfl, rfl, fun _ _ => rfl, rfl, fun _ _ => rfl⟩

theorem submitWrite (h : m.Serving) {b : UInt32} (hb : m.volume.start ≤ b.toNat) (data : Store) :
    (m.submitWrite b data).Serving :=
  h.of_same (submitWrite_wf h.wf hb data) (submitWrite_same h.wf hb data)

theorem step (hκ : κ.Reliable) (h : m.Serving) {op : Op} (hop : op.Legal m.volume)
    (hg : op.Gapless m) (hn : op.NamesOk) : (Sfs.step κ m op).Serving :=
  ⟨h.toSettled.step hκ hop hg, (step_directory hκ h.wf h.catalog hop hn).1⟩

/-- Mounting again builds the table that was in memory. -/
theorem remount (hκ : κ.Reliable) (h : m.Serving) : ∃ m', Sfs.remount κ m = (m', 0) ∧
    m'.Serving ∧ m'.sb = m.sb ∧ m'.dev = m.dev ∧ m.volume.Same m'.volume := by
  have h0 : m.sb.partitionSize ≠ 0 := by
    intro hz
    have hstart := h.wf.start_pos
    have hle := h.wf.geometry.start_le
    rw [hz, UInt32.toNat_zero] at hle
    exact Nat.not_lt.mpr hle hstart
  obtain ⟨mem, hmem⟩ := Option.isSome_iff_exists.mp (hκ.vmalloc _ h0)
  have he := initBrowsing_eq (m := kzallocInfo m.dev) hκ h.wf.onDevice h.wf.geometry hmem
  have hcells := h.exact.rebuild_eq h.owned h.packed h.wf.start_le h.wf.size_lt mem
  have hseen : ∀ b, m.volume.Seen b → b < m.volume.used.size :=
    fun b hb => (Volume.held_of_seen hb).elim fun p hp => h.owned.lt_size hp
  obtain ⟨hsize, _⟩ := Volume.rebuild_ok h.wf.start_le h.wf.size_lt hseen mem
  have htable : markSlots (entryAt m.dev) m.sb.entryCount.toNat 0
      (freshTable m.sb.partitionSize.toNat m.sb.dataBlockStart.toNat mem) =
      m.volume.rebuild mem := by
    rw [Volume.rebuild, show m.volume.used.size = _ from h.wf.size]
    rfl
  rw [show entryAt (kzallocInfo m.dev).dev = entryAt m.dev from rfl, htable] at he
  have hsame : m.volume.Same (m.volume.withUsed (m.volume.rebuild mem)) :=
    ⟨rfl, rfl, fun _ _ => rfl, hsize, hcells⟩
  exact ⟨_, he, h.of_same ⟨h.wf.geometry, h.wf.onDevice, hsize.trans h.wf.size⟩ hsame, rfl, rfl,
    hsame⟩

end Mount.Serving

/-! ### Room -/

/-- The block number behind a position of the store. -/
def Volume.blockOf (v : Volume) (p : List UInt8 × ℕ) : ℕ :=
  match v.dir p.1 with
  | none => 0
  | some f => if h : p.2 < 9 then (f.blocks ⟨p.2, h⟩).toNat else 0

/-- A position in use is a pointer of the table. -/
theorem mem_stored {p : List UInt8 × ℕ} : p ∈ m.nodes.stored ↔ ∃ i, ∃ k : Fin 9,
    m.volume.slotOf p.1 = some i ∧ p.2 = k.val ∧ m.volume.Held (i, k) (m.volume.blockOf p) := by
  have hiff : p ∈ m.nodes.stored ↔ ∃ f, m.nodes p.1 = some f ∧ f.block p.2 ≠ none := Iff.rfl
  rw [hiff]
  constructor
  · rintro ⟨f, hf, hk⟩
    obtain ⟨i, hi, rfl⟩ := nodes_eq_some.mp hf
    obtain ⟨hk9, h0⟩ := blockAt_ne_none.mp hk
    refine ⟨i, ⟨p.2, hk9⟩, hi, rfl, ?_⟩
    have hb : m.volume.blockOf p = ((m.volume.entry i).blocks ⟨p.2, hk9⟩).toNat := by
      simp only [Volume.blockOf, Volume.dir, hi, Option.map_some, dif_pos hk9, Volume.file]
    rw [hb]
    exact Volume.held_of_ne (Volume.live_of_slotOf hi).1 h0
  · rintro ⟨i, k, hi, hk, hheld⟩
    refine ⟨_, nodes_of_slot hi, blockAt_ne_none.mpr ⟨by omega, ?_⟩⟩
    have hne := (Volume.held_iff_blocks hheld.1).mp ⟨_, hheld⟩
    rwa [show (⟨p.2, by omega⟩ : Fin 9) = k from Fin.ext hk]

/-- A file is found under its name. -/
theorem Volume.Catalog.slotOf_cname {v : Volume} (h : v.Catalog) {i : ℕ} (hi : v.Live i) :
    v.slotOf (v.entry i).cname = some i := by
  refine slotOf_eq_some.mpr ⟨hi.1, ⟨hi.2, rfl⟩, ?_⟩
  rintro j hj ⟨hnj, hcj⟩
  exact absurd (h.unique j (Nat.lt_trans hj hi.1) i hi.1 hnj hi.2 hcj) (Nat.ne_of_lt hj)

/-- The blocks in use are the data blocks that are marked. -/
theorem image_stored (h : m.Serving) : m.volume.blockOf '' m.nodes.stored =
    {b | m.volume.start ≤ b ∧ b < m.volume.used.size ∧ m.volume.used.cell b ≠ 0} := by
  ext b
  constructor
  · rintro ⟨p, hp, rfl⟩
    obtain ⟨i, k, _, _, hheld⟩ := mem_stored.mp hp
    exact ⟨h.owned.data hheld, h.owned.ledger.marked hheld⟩
  · rintro ⟨hlo, hlt, hcell⟩
    obtain hlow | ⟨⟨i, k⟩, hheld⟩ := (h.exact.tight b).mp ⟨hlt, hcell⟩
    · exact absurd hlo (Nat.not_le.mpr hlow)
    · have hne : (m.volume.entry i).blocks k ≠ 0 :=
        (Volume.held_iff_blocks hheld.1).mp ⟨b, hheld⟩
      have hnamed : (m.volume.entry i).Named := by
        by_contra hn
        exact hne (h.owned.bare i hheld.1 hn k)
      have hslot := h.catalog.slotOf_cname ⟨hheld.1, hnamed⟩
      have hb : m.volume.blockOf ((m.volume.entry i).cname, k.val) = b := by
        simp only [Volume.blockOf, Volume.dir, hslot, Option.map_some, dif_pos k.isLt, Volume.file]
        exact hheld.2.1
      exact ⟨_, mem_stored.mpr ⟨i, k, hslot, rfl, by rwa [hb]⟩, hb⟩

theorem blockOf_injOn (h : m.Serving) : Set.InjOn m.volume.blockOf m.nodes.stored := by
  rintro ⟨fn, k⟩ hp ⟨gn, l⟩ hq he
  obtain ⟨i, k', hi, hk, hheld⟩ := mem_stored.mp hp
  obtain ⟨j, l', hj, hl, hheld'⟩ := mem_stored.mp hq
  rw [he] at hheld
  obtain ⟨rfl, rfl⟩ := Prod.mk.inj (h.owned.ledger.inj hheld hheld')
  have hfn := (Volume.slotOf_eq_some.mp hi).2.1.2
  have hgn := (Volume.slotOf_eq_some.mp hj).2.1.2
  exact Prod.ext (hfn.symm.trans hgn) (hk.trans hl.symm)

/-- How much a super block leaves room for. -/
def SfsSuperBlock.capacity (sb : SfsSuperBlock) : Capacity :=
  ⟨sb.entryCount.toNat, sb.partitionSize.toNat - sb.dataBlockStart.toNat⟩

/-- The free blocks are those that no file uses. -/
theorem length_free (h : m.Serving) : (m.usedBlocks.free m.sb.dataBlockStart.toNat).length +
    m.nodes.stored.ncard = m.sb.capacity.blocks := by
  have hsize : m.volume.used.size = m.sb.partitionSize.toNat := h.wf.size
  set blocks := Finset.Ico m.volume.start m.volume.used.size with hblocks
  have hfree : (m.usedBlocks.free m.sb.dataBlockStart.toNat).length =
      (blocks.filter fun b => m.volume.used.cell b = 0).card := by
    rw [← List.toFinset_card_of_nodup (m.usedBlocks.free_nodup _)]
    refine congrArg Finset.card (Finset.ext fun b => ?_)
    rw [List.mem_toFinset, Buffer.mem_free, Finset.mem_filter, hblocks, Finset.mem_Ico, and_assoc]
    rfl
  have hset : ((blocks.filter fun b => ¬ m.volume.used.cell b = 0 : Finset ℕ) : Set ℕ) =
      m.volume.blockOf '' m.nodes.stored := by
    rw [image_stored h]
    ext b
    rw [Finset.mem_coe, Finset.mem_filter, Finset.mem_Ico, and_assoc]
    rfl
  have hstored : m.nodes.stored.ncard =
      (blocks.filter fun b => ¬ m.volume.used.cell b = 0).card := by
    rw [← Set.ncard_coe_finset, hset, Set.InjOn.ncard_image (blockOf_injOn h)]
  rw [hfree, hstored, Finset.card_filter_add_card_filter_not, hblocks, Nat.card_Ico, hsize]
  rfl

/-- There is a free block as long as fewer blocks are stored than there are. -/
theorem stored_lt_iff (h : m.Serving) :
    m.nodes.stored.ncard < m.sb.capacity.blocks ↔
      m.usedBlocks.free m.sb.dataBlockStart.toNat ≠ [] := by
  have hlen := length_free h
  rw [← List.length_pos_iff]
  omega

end Linuxpedia.Sfs
