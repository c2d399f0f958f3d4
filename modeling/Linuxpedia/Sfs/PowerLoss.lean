import Linuxpedia.Sfs.Serving
import Linuxpedia.Lib.PowerLoss

/-! Losing power under the driver. `write_to_real_sfs` only marks its buffer dirty, a page of
a file is written back when the kernel sees fit, and `fsync` does nothing, so the sectors of
a device that lost its power are from different moments. Eight entries share a sector. The
device is mounted again, with the files as they were at some moments since the last sync,
exactly when no slot was given a name or a block that a slot of another sector had since
then. -/

namespace Linuxpedia.Sfs

open Lib PowerLoss

/-! ### Entry tables in order -/

/-- The entries share a name or a block. -/
def SfsFileEntry.Clash (fe ge : SfsFileEntry) : Prop :=
  (fe.Named ∧ ge.Named ∧ fe.cname = ge.cname) ∨ ∃ k l, fe.blocks k ≠ 0 ∧ fe.blocks k = ge.blocks l

/-- An entry that is in order by itself. -/
structure SoundSlot (sb : SfsSuperBlock) (fe : SfsFileEntry) : Prop where
  data : ∀ k, fe.blocks k ≠ 0 → sb.dataBlockStart.toNat ≤ (fe.blocks k).toNat ∧
    (fe.blocks k).toNat < sb.partitionSize.toNat
  bare : ¬ fe.Named → ∀ k, fe.blocks k = 0
  packed : ∀ k, fe.blocks k ≠ 0 → ∀ j < k, fe.blocks j ≠ 0
  inj : ∀ k l, fe.blocks k ≠ 0 → fe.blocks k = fe.blocks l → k = l
  terminated : fe.Named → fe.name 15 = 0

/-- A device whose super block is `sb` and whose entries are in order and do not clash. -/
structure SoundTable (sb : SfsSuperBlock) (dev : Store) : Prop where
  superBlock : SfsSuperBlock.ofBytes dev = sb
  slot : ∀ i < sb.entryCount.toNat, SoundSlot sb (entryAt dev i)
  apart : ∀ i < sb.entryCount.toNat, ∀ j < sb.entryCount.toNat, i ≠ j →
    ¬ (entryAt dev i).Clash (entryAt dev j)

theorem SfsFileEntry.Clash.symm {fe ge : SfsFileEntry} (h : fe.Clash ge) : ge.Clash fe := by
  rcases h with ⟨hf, hg, hc⟩ | ⟨k, l, h0, he⟩
  · exact Or.inl ⟨hg, hf, hc.symm⟩
  · exact Or.inr ⟨l, k, he ▸ h0, he.symm⟩

variable {κ : Kernel} {m : Mount} {sb : SfsSuperBlock} {dev : Store}

/-- A mount that serves has a table in order. -/
theorem Mount.Serving.soundTable (h : m.Serving) : SoundTable m.sb m.dev where
  superBlock := h.wf.onDevice
  slot := by
    intro i hi
    have hheld : ∀ k, (m.volume.entry i).blocks k ≠ 0 →
        m.volume.Held (i, k) ((m.volume.entry i).blocks k).toNat := fun k => Volume.held_of_ne hi
    refine ⟨fun k hk => ⟨h.owned.data (hheld k hk), ?_⟩, h.owned.bare i hi, h.packed i hi,
      fun k l hk he => ?_, h.catalog.terminated i hi⟩
    · rw [← h.wf.size]
      exact h.owned.lt_size (hheld k hk)
    · have hl := hheld l (show (m.volume.entry i).blocks l ≠ 0 from he ▸ hk)
      rw [show (m.volume.entry i).blocks l = (m.volume.entry i).blocks k from he.symm] at hl
      exact congrArg Prod.snd (h.owned.ledger.inj (hheld k hk) hl)
  apart := by
    rintro i hi j hj hij (⟨hni, hnj, hc⟩ | ⟨k, l, h0, he⟩)
    · exact hij (h.catalog.unique i hi j hj hni hnj hc)
    · have hk : m.volume.Held (i, k) ((m.volume.entry i).blocks k).toNat := Volume.held_of_ne hi h0
      have hl : m.volume.Held (j, l) ((m.volume.entry j).blocks l).toNat :=
        Volume.held_of_ne hj (show (m.volume.entry j).blocks l ≠ 0 from he ▸ h0)
      rw [show (m.volume.entry j).blocks l = (m.volume.entry i).blocks k from he.symm] at hl
      exact hij (congrArg Prod.fst (h.owned.ledger.inj hk hl))

namespace SoundTable

variable (h : SoundTable sb dev)

include h

/-- No block is held twice, whatever the allocation table says. -/
theorem held_inj {v : Volume} (hc : v.count = sb.entryCount.toNat) (he : v.entry = entryAt dev)
    {p q : ℕ × Fin 9} {b : ℕ} (hp : v.Held p b) (hq : v.Held q b) : p = q := by
  obtain ⟨i, k⟩ := p
  obtain ⟨j, l⟩ := q
  obtain ⟨hi, hk, h0⟩ := hp
  obtain ⟨hj, hl, _⟩ := hq
  simp only [he, hc] at hi hk hj hl
  have heq : (entryAt dev i).blocks k = (entryAt dev j).blocks l :=
    UInt32.toNat_inj.mp (hk.trans hl.symm)
  have hne : (entryAt dev i).blocks k ≠ 0 := by
    intro hz
    rw [hz] at hk
    exact h0 hk.symm
  by_cases hij : i = j
  · subst hij
    rw [(h.slot i hi).inj k l hne heq]
  · exact absurd (Or.inr ⟨k, l, hne, heq⟩) (h.apart i hi j hj hij)

/-- The volume with the table that mounting builds is settled. -/
theorem settled_rebuild (hg : Geometry sb) {v : Volume} (hc : v.count = sb.entryCount.toNat)
    (hs : v.start = sb.dataBlockStart.toNat) (he : v.entry = entryAt dev)
    (hsize : v.used.size = sb.partitionSize.toNat) (mem : Store) :
    (v.withUsed (v.rebuild mem)).Settled ∧ (v.rebuild mem).size = v.used.size := by
  have hsmall := hg.small
  have hstart := hg.start_le
  have hslot : ∀ i < v.count, SoundSlot sb (v.entry i) := by
    intro i hi
    rw [he]
    exact h.slot i (hc ▸ hi)
  have hne : ∀ {p : ℕ × Fin 9} {b : ℕ}, v.Held p b → (v.entry p.1).blocks p.2 ≠ 0 :=
    fun {p b} hp => (Volume.held_iff_blocks hp.1).mp ⟨b, hp⟩
  have hdata : ∀ {p : ℕ × Fin 9} {b : ℕ}, v.Held p b → v.start ≤ b ∧ b < v.used.size := by
    intro p b hp
    have hb := (hslot p.1 hp.1).data p.2 (hne hp)
    rw [hp.2.1] at hb
    omega
  have hpacked : v.Packed := fun i hi => (hslot i hi).packed
  have hbare : ∀ i < v.count, ¬ (v.entry i).Named → ∀ k, (v.entry i).blocks k = 0 :=
    fun i hi => (hslot i hi).bare
  have hseen : ∀ b, v.Seen b ↔ ∃ p, v.Held p b := by
    intro b
    refine ⟨Volume.held_of_seen, ?_⟩
    rintro ⟨⟨i, k⟩, hp⟩
    have hnamed : (v.entry i).Named := by
      by_contra hn
      exact hne hp (hbare i hp.1 hn k)
    exact ⟨i, hp.1, hnamed, _, (hpacked.mem_prefixPtrs hp.1).mpr ⟨hne hp, k, rfl⟩, hp.2.1⟩
  obtain ⟨hsz, _, hin, hout⟩ := v.rebuild_ok (by omega) (by omega)
    (fun b hb => ((hseen b).mp hb).elim fun p hp => (hdata hp).2) mem
  have hmarked : ∀ b, b ∈ (v.withUsed (v.rebuild mem)).marked ↔ b < v.start ∨ ∃ p, v.Held p b := by
    intro b
    rw [← hseen]
    constructor
    · rintro ⟨hlt, hcell⟩
      by_contra hno
      exact hcell (hout b (hsz ▸ hlt) hno)
    · intro hb
      have hlt : b < v.used.size := by
        rcases hb with hb | hb
        · omega
        · exact ((hseen b).mp hb).elim fun p hp => (hdata hp).2
      refine ⟨hsz.symm ▸ hlt, ?_⟩
      rw [Volume.withUsed_used, hin b hb]
      decide
  refine ⟨⟨⟨⟨fun hp hq => h.held_inj hc he hp hq, fun hp => (hmarked _).mpr (Or.inr ⟨_, hp⟩)⟩,
    fun hp => (hdata hp).1, hbare⟩, hpacked, ⟨hmarked, fun b hb hlt => ?_⟩⟩, hsz⟩
  have hm : b ∈ (v.withUsed (v.rebuild mem)).marked := ⟨hlt, hb⟩
  rw [hmarked, ← hseen] at hm
  exact hin b hm

end SoundTable

/-! ### Mounting -/

/-- What `init_browsing` makes of a device. -/
def mountOf (κ : Kernel) (dev : Store) : Mount := (initBrowsing κ (kzallocInfo dev)).1

/-- The device is mounted, and the mount serves. -/
structure MountsSoundly (κ : Kernel) (dev : Store) : Prop where
  code : (initBrowsing κ (kzallocInfo dev)).2 = 0
  serving : (mountOf κ dev).Serving
  dev_eq : (mountOf κ dev).dev = dev

/-- A device whose table is in order is mounted soundly. -/
theorem SoundTable.mounts (hκ : κ.Reliable) (hg : Geometry sb) (h : SoundTable sb dev) :
    MountsSoundly κ dev ∧ (mountOf κ dev).sb = sb := by
  have hpos : 0 < sb.dataBlockStart.toNat := by
    have hfits := hg.table_fits
    omega
  have h0 : sb.partitionSize ≠ 0 := by
    intro hz
    have hle := hg.start_le
    rw [hz, UInt32.toNat_zero] at hle
    omega
  obtain ⟨mem, hmem⟩ := Option.isSome_iff_exists.mp (hκ.vmalloc _ h0)
  have he := initBrowsing_eq (m := kzallocInfo dev) hκ h.superBlock hg hmem
  set v : Volume := ⟨sb.entryCount.toNat, sb.dataBlockStart.toNat, entryAt dev,
    ⟨sb.partitionSize.toNat, fun _ => 0, false⟩⟩ with hv
  obtain ⟨hset, hsize⟩ := h.settled_rebuild hg (v := v) rfl rfl rfl rfl mem
  have hm : mountOf κ dev = _ := congrArg Prod.fst he
  have hvol : (mountOf κ dev).volume = v.withUsed (v.rebuild mem) := by
    rw [hm]
    rfl
  have hwf : (mountOf κ dev).Wf := by
    rw [hm]
    exact ⟨hg, h.superBlock, hsize⟩
  rw [← hvol] at hset
  refine ⟨⟨congrArg Prod.snd he, ⟨⟨⟨hwf, hset.owned⟩, hset.packed, hset.exact⟩, ?_, ?_⟩, ?_⟩, ?_⟩
  · rw [hvol]
    intro i hi j hj hni hnj hc
    by_contra hij
    exact h.apart i hi j hj hij (Or.inl ⟨hni, hnj, hc⟩)
  · rw [hvol]
    exact fun i hi => (h.slot i hi).terminated
  · rw [hm]
    rfl
  · rw [hm]

/-! ### Mixed tables -/

/-- Slots of different sectors do not clash. -/
def TablesApart (sb : SfsSuperBlock) (u v : Store) : Prop :=
  ∀ i < sb.entryCount.toNat, ∀ j < sb.entryCount.toNat, i / 8 ≠ j / 8 →
    ¬ (entryAt u i).Clash (entryAt v j)

theorem TablesApart.symm {u v : Store} (h : TablesApart sb u v) : TablesApart sb v u :=
  fun i hi j hj hij hc => h j hj i hi (Ne.symm hij) hc.symm

theorem SoundTable.apart_self (h : SoundTable sb dev) : TablesApart sb dev dev :=
  fun i hi j hj hij => h.apart i hi j hj fun he => hij (congrArg (· / 8) he)

theorem Mount.Serving.tablesApart (h : m.Serving) (hsb : m.sb = sb) :
    TablesApart sb m.dev m.dev := by
  rw [← hsb]
  exact h.soundTable.apart_self

section Mix

variable {versions : List Store} (hmix : Mix 512 versions dev)

include hmix

/-- The entries of a sector are those of one version. -/
theorem mix_entries (q : ℕ) : ∃ u ∈ versions, ∀ i, i / 8 = q → entryAt dev i = entryAt u i := by
  obtain ⟨u, hu, he⟩ := hmix (q + 1)
  refine ⟨u, hu, fun i hi => SfsFileEntry.ofBytes_congr fun j hj => ?_⟩
  rw [Store.window_apply, Store.window_apply]
  exact he _ (by omega)

/-- A mix of tables in order is in order, when slots of different sectors do not clash. -/
theorem mix_sound (hsound : ∀ u ∈ versions, SoundTable sb u)
    (hapart : ∀ u ∈ versions, ∀ v ∈ versions, TablesApart sb u v) : SoundTable sb dev where
  superBlock := by
    obtain ⟨u, hu, he⟩ := hmix 0
    have hword : ∀ o ≤ 28, dev.word o = Store.word u o :=
      fun o ho => Store.word_congr fun k hk => he _ (by omega)
    rw [← (hsound u hu).superBlock]
    simp [SfsSuperBlock.ofBytes, hword]
  slot := by
    intro i hi
    obtain ⟨u, hu, he⟩ := mix_entries hmix (i / 8)
    rw [he i rfl]
    exact (hsound u hu).slot i hi
  apart := by
    intro i hi j hj hij
    obtain ⟨u, hu, heu⟩ := mix_entries hmix (i / 8)
    by_cases hq : i / 8 = j / 8
    · rw [heu i rfl, heu j hq.symm]
      exact (hsound u hu).apart i hi j hj hij
    · obtain ⟨v, hv, hev⟩ := mix_entries hmix (j / 8)
      rw [heu i rfl, hev j rfl]
      exact hapart u hu v hv i hi j hj hq

end Mix

/-! ### What an operation gives to a slot -/

/-- The operation creates `fn` in slot `i`. -/
def Op.Names (v : Volume) (op : Op) (i : ℕ) (fn : List UInt8) : Prop :=
  (∃ perms now, op = .create fn perms now) ∧ v.slotOf fn = none ∧ v.freeSlot = some i

/-- The operation points slot `i` at block `b`. -/
def Op.Points (v : Volume) (op : Op) (i b : ℕ) : Prop :=
  (∃ k : Fin 9, op = .getBlock ((i : ℤ) + 1) k true ∧ (v.entry i).blocks k = 0) ∧
    ∃ bs, v.used.free v.start = b :: bs

namespace Volume

variable {v : Volume} {op : Op}

/-- A name in the table after an operation was there before, or is created. -/
theorem run_named (hc : v.Catalog) (hop : op.Legal v) (hn : op.NamesOk) {i : ℕ}
    (hi : i < v.count) (h : ((v.run op).1.entry i).Named) :
    (v.entry i).Named ∧ (v.entry i).cname = ((v.run op).1.entry i).cname ∨
      op.Names v i ((v.run op).1.entry i).cname := by
  cases op with
  | create fn perms now =>
    simp only [run, create] at h ⊢
    split at h
    · next j hs hj =>
      simp only [put_entry] at h ⊢
      split_ifs at h ⊢ with hij
      · subst hij
        rw [SfsFileEntry.cname_fresh hn]
        exact Or.inr ⟨⟨perms, now, rfl⟩, hs, hj⟩
      · exact Or.inl ⟨h, rfl⟩
    · exact Or.inl ⟨h, rfl⟩
  | lookup fn => exact Or.inl ⟨h, rfl⟩
  | remove fn =>
    simp only [run, remove] at h ⊢
    split at h
    · simp only [release_entry] at h ⊢
      split_ifs at h ⊢ with hij
      · exact absurd h SfsFileEntry.zero_not_named
      · exact Or.inl ⟨h, rfl⟩
    · exact Or.inl ⟨h, rfl⟩
  | getBlock ino iblock c =>
    obtain ⟨j, rfl, hj⟩ := hop
    have hname : ((v.run (.getBlock ((j : ℤ) + 1) iblock c)).1.entry i).name =
        (v.entry i).name := by
      simp only [run, getBlock, v2s_succ, Int.toNat_natCast]
      split_ifs
      · rfl
      · split
        · rfl
        · rw [grant_entry]
          split_ifs with hij
          · rw [hij]
            rfl
          · rfl
      · rfl
      · rfl
    have hold : (v.entry i).Named := by
      unfold SfsFileEntry.Named at h ⊢
      rwa [hname] at h
    exact Or.inl ⟨hold, (SfsFileEntry.cname_congr hname (hc.terminated i hi hold)).symm⟩
  | update ino size timestamp perms =>
    obtain ⟨j, rfl, hj⟩ := hop
    have hname : ((v.run (.update ((j : ℤ) + 1) size timestamp perms)).1.entry i).name =
        (v.entry i).name := by
      simp only [run, update, v2s_succ, Int.toNat_natCast, release_entry]
      split_ifs with hij
      · rw [hij]
        rfl
      · rfl
    have hold : (v.entry i).Named := by
      unfold SfsFileEntry.Named at h ⊢
      rwa [hname] at h
    exact Or.inl ⟨hold, (SfsFileEntry.cname_congr hname (hc.terminated i hi hold)).symm⟩

/-- A created name is in its slot. -/
theorem run_names {i : ℕ} {fn : List UInt8} (h : op.Names v i fn) (hn : op.NamesOk) :
    ((v.run op).1.entry i).Named ∧ ((v.run op).1.entry i).cname = fn := by
  obtain ⟨⟨perms, now, rfl⟩, hs, hi⟩ := h
  simp only [run, create, hs, hi, put_entry_self]
  exact ⟨named_fresh hn _ _, SfsFileEntry.cname_fresh hn _ _⟩

/-- A move sets no pointer that was another one. -/
theorem Move.pointer {v' : Volume} (h : v.Move v') {i : ℕ} {k : Fin 9}
    (hold : (v.entry i).blocks k ≠ 0) (hnew : (v'.entry i).blocks k ≠ 0) :
    (v'.entry i).blocks k = (v.entry i).blocks k := by
  cases h with
  | stay => rfl
  | create j fn now perms hj hfree =>
    rw [put_entry] at hnew ⊢
    split_ifs at hnew ⊢
    · exact absurd rfl hnew
    · rfl
  | remove j hj =>
    rw [release_entry] at hnew ⊢
    split_ifs at hnew ⊢
    · exact absurd rfl hnew
    · rfl
  | update j fe n hj hname hblocks =>
    rw [release_entry] at hnew ⊢
    split_ifs at hnew ⊢ with hij
    · subst hij
      rw [keep_blocks] at hnew ⊢
      split_ifs at hnew ⊢
      · exact absurd rfl hnew
      · rw [hblocks]
    · rfl
  | grant j l b bs hj hl hb =>
    rw [grant_entry]
    split_ifs with hij
    · subst hij
      rw [point_blocks, if_neg]
      rintro rfl
      exact hold hl
    · rfl

/-- A pointer in the table after an operation was there before, or is granted. -/
theorem run_pointed (hop : op.Legal v) (hs : v.used.size ≤ 2 ^ 31) {i : ℕ} {k : Fin 9}
    (h : ((v.run op).1.entry i).blocks k ≠ 0) :
    ((v.run op).1.entry i).blocks k = (v.entry i).blocks k ∨
      op.Points v i (((v.run op).1.entry i).blocks k).toNat := by
  by_cases hz : (v.entry i).blocks k = 0
  · obtain ⟨rfl, hfree⟩ := run_sets hop hz h
    obtain ⟨b, bs, hb⟩ := List.exists_cons_of_ne_nil hfree
    have hlt := (free_head hb).2.1
    have hgrant : ((v.run (.getBlock ((i : ℤ) + 1) k true)).1.entry i).blocks k =
        UInt32.ofNat b := by
      rw [run_getBlock_grant hz hb, grant_entry, if_pos rfl, point_blocks, if_pos rfl]
    rw [hgrant, UInt32.toNat_ofNat', Nat.mod_eq_of_lt (by omega)]
    exact Or.inr ⟨⟨k, rfl, hz⟩, bs, hb⟩
  · exact Or.inl ((move_run hop).pointer hz h)

/-- A granted block is in its slot. -/
theorem run_points {i b : ℕ} (h : op.Points v i b) (hs : v.used.size ≤ 2 ^ 31) :
    ∃ k, (((v.run op).1.entry i).blocks k).toNat = b := by
  obtain ⟨⟨k, rfl, hz⟩, bs, hb⟩ := h
  have hlt := (free_head hb).2.1
  refine ⟨k, ?_⟩
  rw [run_getBlock_grant hz hb, grant_entry, if_pos rfl, point_blocks, if_pos rfl,
    UInt32.toNat_ofNat', Nat.mod_eq_of_lt (by omega)]

end Volume

/-- The operation gives a slot a name or a block that a slot of another sector has in one of
the versions. -/
def Op.Reuses (m : Mount) (versions : List Store) (op : Op) : Prop :=
  ∃ u ∈ versions, ∃ i < m.volume.count, ∃ j < m.volume.count, i / 8 ≠ j / 8 ∧
    ((∃ fn, op.Names m.volume i fn ∧ (entryAt u j).Named ∧ (entryAt u j).cname = fn) ∨
      ∃ b k, op.Points m.volume i b ∧ ((entryAt u j).blocks k).toNat = b)

/-- The table after an operation is apart from the older ones exactly when nothing is reused. -/
theorem step_apart_iff (hκ : κ.Reliable) (hm : m.Serving) {op : Op} (hop : op.Legal m.volume)
    (hn : op.NamesOk) {versions : List Store}
    (hold : ∀ u ∈ versions, TablesApart m.sb u m.dev) :
    (∀ u ∈ versions, TablesApart m.sb u (step κ m op).dev) ↔ ¬ op.Reuses m versions := by
  have hb := step_becomes hκ hm.wf hop.addressed
  have hentry : ∀ i, entryAt (step κ m op).dev i = (m.volume.run op).1.entry i := by
    intro i
    rw [← hb.volume]
    rfl
  have h31 : m.volume.used.size ≤ 2 ^ 31 := hm.wf.size_lt
  constructor
  · rintro hall ⟨u, hu, i, hi, j, hj, hij, ⟨fn, hnames, hnamed, hc⟩ | ⟨b, k, hpoints, hk⟩⟩
    · obtain ⟨hnew, hfn⟩ := Volume.run_names hnames hn
      refine hall u hu j hj i hi (Ne.symm hij) (Or.inl ⟨hnamed, ?_, ?_⟩)
      · rw [hentry]
        exact hnew
      · rw [hentry, hc, hfn]
    · obtain ⟨l, hl⟩ := Volume.run_points hpoints h31
      obtain ⟨bs, hfree⟩ := hpoints.2
      have hpos : 0 < b := Nat.lt_of_lt_of_le hm.wf.start_pos (Volume.free_head hfree).1
      refine hall u hu j hj i hi (Ne.symm hij) (Or.inr ⟨k, l, fun hz => ?_, ?_⟩)
      · rw [hz] at hk
        exact Nat.ne_of_lt hpos hk
      · rw [hentry]
        exact UInt32.toNat_inj.mp (hk.trans hl.symm)
  · rintro hno u hu j hj i hi hji hclash
    rw [hentry] at hclash
    rcases hclash with ⟨hnj, hni, hc⟩ | ⟨k, l, h0, he⟩
    · rcases Volume.run_named hm.catalog hop hn hi hni with ⟨hni', hc'⟩ | hnames
      · exact hold u hu j hj i hi hji (Or.inl ⟨hnj, hni', hc.trans hc'.symm⟩)
      · exact hno ⟨u, hu, i, hi, j, hj, Ne.symm hji, Or.inl ⟨_, hnames, hnj, hc⟩⟩
    · rcases Volume.run_pointed hop h31 (he ▸ h0) with he' | hpoints
      · exact hold u hu j hj i hi hji (Or.inr ⟨k, l, h0, he.trans he'⟩)
      · exact hno ⟨u, hu, i, hi, j, hj, Ne.symm hji, Or.inr ⟨_, k, hpoints, congrArg _ he⟩⟩

/-! ### The driver behind the buffer cache -/

/-- What the kernel does to a mount: an operation of the driver, or the writing back of the
page of block `k` of the file in slot `i`. -/
inductive Deed where
  | op (o : Op)
  | writepage (i : ℕ) (k : Fin 9) (data : Store)

namespace Deed

def next (κ : Kernel) (m : Mount) : Deed → Mount
  | .op o => Sfs.step κ m o
  | .writepage i k data => m.submitWrite ((entryAt m.dev i).blocks k) data

/-- Inodes are those of files, blocks are allocated in their order, names are proper, and a
page that is written back has a block. -/
def Ok (m : Mount) : Deed → Prop
  | .op o => o.Legal m.volume ∧ o.Gapless m ∧ o.NamesOk
  | .writepage i k _ => m.volume.Live i ∧ (entryAt m.dev i).blocks k ≠ 0

def Reuses (m : Mount) (versions : List Store) : Deed → Prop
  | .op o => o.Reuses m versions
  | .writepage _ _ _ => False

/-- The deed may change the file `fn` or its data. -/
def Touches (m : Mount) (fn : List UInt8) : Deed → Prop
  | .op (.remove gn) => gn = fn
  | .op (.getBlock ino _ _) => ∃ i : ℕ, m.volume.slotOf fn = some i ∧ ino = (i : ℤ) + 1
  | .op (.update ino _ _ _) => ∃ i : ℕ, m.volume.slotOf fn = some i ∧ ino = (i : ℤ) + 1
  | .op _ => False
  | .writepage i _ _ => m.volume.slotOf fn = some i

variable {a : Deed}

theorem serving (hκ : κ.Reliable) (hm : m.Serving) (ha : a.Ok m) :
    (a.next κ m).Serving ∧ (a.next κ m).sb = m.sb := by
  cases a with
  | op o => exact ⟨hm.step hκ ha.1 ha.2.1 ha.2.2, (step_becomes hκ hm.wf ha.1.addressed).sb⟩
  | writepage i k data =>
    exact ⟨hm.submitWrite (hm.owned.data (Volume.held_of_ne ha.1.1 ha.2)) data, rfl⟩

/-- The device after a deed is apart from the older versions exactly when nothing is reused. -/
theorem apart_iff (hκ : κ.Reliable) (hm : m.Serving) (ha : a.Ok m) {versions : List Store}
    (hold : ∀ u ∈ versions, TablesApart m.sb u m.dev) :
    (∀ u ∈ versions, TablesApart m.sb u (a.next κ m).dev) ↔ ¬ a.Reuses m versions := by
  cases a with
  | op o => exact step_apart_iff hκ hm ha.1 ha.2.2 hold
  | writepage i k data =>
    have hsame := submitWrite_same hm.wf (hm.owned.data (Volume.held_of_ne ha.1.1 ha.2)) data
    refine iff_of_true (fun u hu p hp j hj hpj hc => ?_) id
    have hentry : entryAt (m.submitWrite ((entryAt m.dev i).blocks k) data).dev j =
      entryAt m.dev j := hsame.entry j hj
    rw [next, hentry] at hc
    exact hold u hu p hp j hj hpj hc

end Deed

/-- The driver behind the buffer cache. -/
abbrev cachedStep (κ : Kernel) :
    State Mount UInt8 → PowerLoss.Event Deed UInt8 → State Mount UInt8 :=
  PowerLoss.step (Deed.next κ) Mount.dev (mountOf κ)

/-- The events that may happen, when no deed reuses what was changed since the last sync. -/
abbrev CachedLegal : State Mount UInt8 → PowerLoss.Event Deed UInt8 → Prop :=
  PowerLoss.Legal 512 fun s a => a.Ok s.now ∧ ¬ a.Reuses s.now s.versions

/-- The driver serves, as does a mount of every version, and slots of different sectors did
not clash since the last sync. -/
abbrev CachedGood (sb : SfsSuperBlock) : State Mount UInt8 → Prop :=
  Good Mount.dev (fun m => m.Serving ∧ m.sb = sb) (TablesApart sb)

variable {s : State Mount UInt8}

theorem CachedGood.sound (h : CachedGood sb s) : ∀ u ∈ s.versions, SoundTable sb u := by
  intro u hu
  obtain ⟨m, ⟨hm, rfl⟩, rfl⟩ := h.made u hu
  exact hm.soundTable

theorem CachedGood.geometry (h : CachedGood sb s) : Geometry sb := by
  obtain ⟨hm, rfl⟩ := h.now
  exact hm.wf.geometry

/-- Whatever a loss of power leaves is mounted soundly. -/
theorem CachedGood.mounts (hκ : κ.Reliable) (h : CachedGood sb s) (hmix : Mix 512 s.versions dev) :
    SoundTable sb dev ∧ MountsSoundly κ dev ∧ (mountOf κ dev).sb = sb := by
  have hsound := mix_sound hmix h.sound h.apart
  exact ⟨hsound, hsound.mounts hκ h.geometry⟩

theorem CachedGood.act (hκ : κ.Reliable) (h : CachedGood sb s) {a : Deed}
    (ha : a.Ok s.now ∧ ¬ a.Reuses s.now s.versions) :
    ((a.next κ s.now).Serving ∧ (a.next κ s.now).sb = sb) ∧
      ∀ u ∈ s.versions, TablesApart sb u (a.next κ s.now).dev := by
  obtain ⟨hm, rfl⟩ := h.now
  exact ⟨a.serving hκ hm ha.1,
    (a.apart_iff hκ hm ha.1 fun u hu => h.apart u hu _ h.head).mpr ha.2⟩

/-- The driver is in order after every loss of power. -/
theorem driver_restarts (hκ : κ.Reliable) (sb : SfsSuperBlock) :
    Restarts (Deed.next κ) Mount.dev (mountOf κ) 512
      (fun s a => a.Ok s.now ∧ ¬ a.Reuses s.now s.versions) (fun m => m.Serving ∧ m.sb = sb)
      (TablesApart sb) where
  self := fun _ ht => ht.1.tablesApart ht.2
  symm := fun _ _ h => h.symm
  act := fun _ _ hs ha => CachedGood.act hκ hs ha
  boot := by
    intro s dev hs hmix
    obtain ⟨_, hmounts, hsb⟩ := CachedGood.mounts hκ hs hmix
    exact ⟨⟨hmounts.serving, hsb⟩, hmounts.dev_eq⟩

theorem cachedGood_flushed (hκ : κ.Reliable) (h : m.Serving) :
    CachedGood m.sb (flushed Mount.dev m) := (driver_restarts hκ m.sb).flushed ⟨h, rfl⟩

theorem Mounted.serving (hκ : κ.Reliable) (hm : Mounted κ m) : m.Serving :=
  (hm.fresh hκ).serves.serving

/-! ### After a loss of power -/

/-- The entry table of a device. -/
def tableOn (sb : SfsSuperBlock) (dev : Store) : Volume :=
  ⟨sb.entryCount.toNat, sb.dataBlockStart.toNat, entryAt dev, ⟨0, fun _ => 0, false⟩⟩

@[simp] theorem tableOn_entry (sb : SfsSuperBlock) (dev : Store) (i : ℕ) :
    (tableOn sb dev).entry i = entryAt dev i := rfl

/-- In a table in order a name is in one slot. -/
theorem SoundTable.slotOf_iff (h : SoundTable sb dev) {fn : List UInt8} {i : ℕ} :
    (tableOn sb dev).slotOf fn = some i ↔
      i < sb.entryCount.toNat ∧ (entryAt dev i).Named ∧ (entryAt dev i).cname = fn := by
  rw [Volume.slotOf_eq_some]
  constructor
  · rintro ⟨hi, hfn, _⟩
    exact ⟨hi, hfn⟩
  · rintro ⟨hi, hn, hc⟩
    refine ⟨hi, ⟨hn, hc⟩, ?_⟩
    rintro j hj ⟨hnj, hcj⟩
    exact h.apart j (Nat.lt_trans hj hi) i hi (Nat.ne_of_lt hj)
      (Or.inl ⟨hnj, hn, hcj.trans hc.symm⟩)

section Mix

variable {versions : List Store} (hmix : Mix 512 versions dev)
  (hsound : ∀ u ∈ versions, SoundTable sb u)
  (hapart : ∀ u ∈ versions, ∀ v ∈ versions, TablesApart sb u v)

include hmix hsound hapart

/-- In a mix every name stands for what it did in one of the versions. -/
theorem mix_dir (fn : List UInt8) :
    ∃ u ∈ versions, (tableOn sb dev).dir fn = (tableOn sb u).dir fn := by
  have hdev := mix_sound hmix hsound hapart
  cases hs : (tableOn sb dev).slotOf fn with
  | some i =>
    obtain ⟨hi, hn, hc⟩ := hdev.slotOf_iff.mp hs
    obtain ⟨u, hu, he⟩ := mix_entries hmix (i / 8)
    have hslot : (tableOn sb u).slotOf fn = some i := by
      rw [(hsound u hu).slotOf_iff, ← he i rfl]
      exact ⟨hi, hn, hc⟩
    have hfile : (tableOn sb dev).file i = (tableOn sb u).file i := by
      simp only [Volume.file, tableOn_entry, he i rfl]
    exact ⟨u, hu, by rw [Volume.dir, Volume.dir, hs, hslot, Option.map_some, hfile]; rfl⟩
  | none =>
    by_contra hno
    -- then every version has the name, all of them in the same sector
    have hall : ∀ u ∈ versions, ∃ i, (tableOn sb u).slotOf fn = some i := by
      intro u hu
      by_contra hu'
      refine hno ⟨u, hu, ?_⟩
      rw [Volume.dir, Volume.dir, hs, Option.eq_none_iff_forall_ne_some.mpr fun i hi => hu' ⟨i, hi⟩]
      rfl
    obtain ⟨u₀, hu₀, _⟩ := hmix 0
    obtain ⟨i, hi⟩ := hall u₀ hu₀
    obtain ⟨hi, hni, hci⟩ := (hsound u₀ hu₀).slotOf_iff.mp hi
    obtain ⟨u, hu, he⟩ := mix_entries hmix (i / 8)
    obtain ⟨j, hj⟩ := hall u hu
    obtain ⟨hj, hnj, hcj⟩ := (hsound u hu).slotOf_iff.mp hj
    by_cases hij : i / 8 = j / 8
    · rw [← he j hij.symm] at hnj hcj
      rw [hdev.slotOf_iff.mpr ⟨hj, hnj, hcj⟩] at hs
      cases hs
    · exact hapart u₀ hu₀ u hu i hi j hj hij (Or.inl ⟨hni, hnj, hci.trans hcj.symm⟩)

end Mix

/-- Along every run of operations, written pages, syncs and losses of power after the mount of
a formatted image, in which no deed reuses what was changed since the last sync, the device
is mounted again after every loss, the mount is in order, and every name stands for what it
stood for at some moment since the last sync. -/
theorem power_loss_keeps_order (hκ : κ.Reliable) (hm : Mounted κ m)
    (events : List (PowerLoss.Event Deed UInt8))
    (hl : Run.Along (cachedStep κ) CachedLegal (flushed Mount.dev m) events) :
    Run.Along (cachedStep κ) (fun s e => ∀ dev, e = .lose dev → MountsSoundly κ dev ∧
      ∀ fn, ∃ u ∈ s.versions, (mountOf κ dev).volume.dir fn = (tableOn m.sb u).dir fn)
      (flushed Mount.dev m) events := by
  have hr := driver_restarts hκ m.sb
  have hstep : ∀ s e, CachedGood m.sb s → CachedLegal s e → CachedGood m.sb (cachedStep κ s e) :=
    fun _ _ hs he => hr.step hs he
  refine Run.along_of_inv hstep ?_ (cachedGood_flushed hκ (hm.serving hκ)) hl
  rintro s e hs he dev rfl
  obtain ⟨hsound, hmounts, hsb⟩ := CachedGood.mounts hκ hs he
  refine ⟨hmounts, fun fn => ?_⟩
  obtain ⟨u, hu, hdir⟩ := mix_dir he hs.sound hs.apart fn
  refine ⟨u, hu, ?_⟩
  rw [← hdir, ← hsb]
  have hentry : (mountOf κ dev).volume.entry = entryAt dev := by
    rw [Mount.volume, hmounts.dev_eq]
  unfold Volume.dir Volume.slotOf Volume.first Volume.file
  rw [hentry]
  rfl

/-- A table of one sector is written back as a whole, so nothing in it is reused. -/
theorem Deed.not_reuses_of_small (h : m.volume.count ≤ 8) (versions : List Store) (a : Deed) :
    ¬ a.Reuses m versions := by
  cases a with
  | op o =>
    rintro ⟨u, _, i, hi, j, hj, hij, _⟩
    omega
  | writepage i k data => exact id

/-- A removal that was not synced is lost, and the name is there again. -/
theorem power_loss_keeps_order_sample :
    Run.Along (cachedStep sampleKernel) (fun s e => ∀ dev, e = .lose dev →
      MountsSoundly sampleKernel dev ∧ ∀ fn, ∃ u ∈ s.versions,
        (mountOf sampleKernel dev).volume.dir fn = (tableOn sampleMount.sb u).dir fn)
      (flushed Mount.dev sampleMount)
      [.act (.op (.create [97] 6 5)), .sync, .act (.op (.remove [97])),
        .lose (step sampleKernel sampleMount (.create [97] 6 5)).dev] := by
  have hsmall : ∀ op, (step sampleKernel sampleMount op).volume.count ≤ 8 →
      ∀ (versions : List Store) (a : Deed),
        ¬ a.Reuses (step sampleKernel sampleMount op) versions :=
    fun op h => Deed.not_reuses_of_small h
  exact power_loss_keeps_order sampleKernel_reliable sampleMount_mounted _
    ⟨⟨⟨trivial, trivial, (by decide : SfsFileEntry.NameOk [97])⟩,
        Deed.not_reuses_of_small (by decide) _ _⟩, trivial,
      ⟨⟨trivial, trivial, (by decide : SfsFileEntry.NameOk [97])⟩,
        hsmall _ (by decide +kernel) _ _⟩,
      mix_of_mem (List.mem_cons_of_mem _ (List.mem_singleton_self _)), trivial⟩

/-! ### When a reuse is fatal -/

/-- What is left when slots of different sectors clash. -/
theorem unsound_mix {versions : List Store} {u v : Store} (hu : u ∈ versions) (hv : v ∈ versions)
    (hsound : SoundTable sb u) (h : ¬ TablesApart sb u v) :
    ∃ dev, Mix 512 versions dev ∧ ¬ MountsSoundly κ dev := by
  simp only [TablesApart, not_forall, not_not] at h
  obtain ⟨i, hi, j, hj, hij, hclash⟩ := h
  -- slot `j` from the one version, everything else from the other
  set pick : ℕ → Store := fun b => if b = 1 + j / 8 then v else u with hpick
  have hmem : ∀ b, pick b ∈ versions := by
    intro b
    rw [hpick]
    dsimp only
    split_ifs
    · exact hv
    · exact hu
  have hentry : ∀ l, entryAt (fun a => pick (a / 512) a) l = entryAt (pick (1 + l / 8)) l := by
    intro l
    refine SfsFileEntry.ofBytes_congr fun c hc => ?_
    rw [Store.window_apply, Store.window_apply, show (512 + 64 * l + c) / 512 = 1 + l / 8 by omega]
  have hsb : SfsSuperBlock.ofBytes (fun a => pick (a / 512) a) = sb := by
    have hword : ∀ o ≤ 28, Store.word (fun a => pick (a / 512) a) o = Store.word u o := by
      refine fun o ho => Store.word_congr fun k hk => ?_
      rw [show (o + k) / 512 = 0 by omega, hpick]
      simp only [show ¬ 0 = 1 + j / 8 by omega, ↓reduceIte]
    rw [← hsound.superBlock]
    simp [SfsSuperBlock.ofBytes, hword]
  refine ⟨fun a => pick (a / 512) a, mix_pick hmem, fun hmounts => ?_⟩
  have htable := hmounts.serving.soundTable
  rw [hmounts.dev_eq] at htable
  have hsb' : (mountOf κ fun a => pick (a / 512) a).sb = sb := htable.superBlock.symm.trans hsb
  rw [hsb'] at htable
  refine htable.apart i hi j hj (fun he => hij (congrArg (· / 8) he)) ?_
  rw [hentry, hentry, hpick]
  simp only [Nat.add_left_cancel_iff, hij, ↓reduceIte]
  exact hclash

/-- Two versions since the last sync clash. -/
structure Clashed (s : State Mount UInt8) : Prop where
  serving : s.now.Serving
  sound : ∀ u ∈ s.versions, SoundTable s.now.sb u
  clash : ∃ u ∈ s.versions, ∃ v ∈ s.versions, ¬ TablesApart s.now.sb u v

theorem Clashed.act (hκ : κ.Reliable) (h : Clashed s) {a : Deed} (ha : a.Ok s.now) :
    Clashed (cachedStep κ s (.act a)) := by
  obtain ⟨hserving, hsb⟩ := a.serving hκ h.serving ha
  obtain ⟨u, hu, v, hv, hno⟩ := h.clash
  refine ⟨hserving, ?_, u, List.mem_cons_of_mem _ hu, v, List.mem_cons_of_mem _ hv, ?_⟩
  · intro u hu
    rcases List.mem_cons.mp hu with rfl | hu
    · exact hserving.soundTable
    · change SoundTable (a.next κ s.now).sb u
      rw [hsb]
      exact h.sound u hu
  · change ¬ TablesApart (a.next κ s.now).sb u v
    rwa [hsb]

/-- A deed that reuses what was changed since the last sync makes two versions clash. -/
theorem CachedGood.clashed (hκ : κ.Reliable) (h : CachedGood sb s) {a : Deed} (ha : a.Ok s.now)
    (hr : a.Reuses s.now s.versions) : Clashed (cachedStep κ s (.act a)) := by
  obtain ⟨hm, rfl⟩ := h.now
  obtain ⟨hserving, hsb⟩ := a.serving hκ hm ha
  have hno := (a.apart_iff hκ hm ha fun u hu => h.apart u hu _ h.head).not_left.mpr hr
  push Not at hno
  obtain ⟨u, hu, hclash⟩ := hno
  refine ⟨hserving, ?_, u, List.mem_cons_of_mem _ hu, _, List.mem_cons_self, ?_⟩
  · intro w hw
    rcases List.mem_cons.mp hw with rfl | hw
    · exact hserving.soundTable
    · change SoundTable (a.next κ s.now).sb w
      rw [hsb]
      exact CachedGood.sound h w hw
  · change ¬ TablesApart (a.next κ s.now).sb u _
    rwa [hsb]

/-- From a mount in order whose device is written back on, every loss of power leaves a device
that is mounted soundly exactly when no deed reuses what was changed before it. A table of at
most eight entries is always safe. -/
theorem power_loss_safe_iff (hκ : κ.Reliable) (hm : m.Serving) (deeds : List Deed)
    (hl : Run.Along (fun s a => cachedStep κ s (.act a)) (fun s a => a.Ok s.now)
      (flushed Mount.dev m) deeds) :
    ((∀ dev, Mix 512 (Run.exec (fun s a => cachedStep κ s (.act a)) (flushed Mount.dev m)
      deeds).versions dev → MountsSoundly κ dev) ↔
    Run.Along (fun s a => cachedStep κ s (.act a)) (fun s a => ¬ a.Reuses s.now s.versions)
      (flushed Mount.dev m) deeds) ∧
    (m.volume.count ≤ 8 → ∀ dev, Mix 512 (Run.exec (fun s a => cachedStep κ s (.act a))
      (flushed Mount.dev m) deeds).versions dev → MountsSoundly κ dev) := by
  have hstep : ∀ (s : State Mount UInt8) (a : Deed), CachedGood m.sb s → a.Ok s.now →
      ¬ a.Reuses s.now s.versions → CachedGood m.sb (cachedStep κ s (.act a)) :=
    fun _ _ hs ha hr => (driver_restarts hκ m.sb).step hs (e := .act _) ⟨ha, hr⟩
  have hbreak : ∀ (s : State Mount UInt8) (a : Deed), CachedGood m.sb s → a.Ok s.now →
      ¬ ¬ a.Reuses s.now s.versions → Clashed (cachedStep κ s (.act a)) :=
    fun _ _ hs ha hr => CachedGood.clashed hκ hs ha (not_not.mp hr)
  have hbad : ∀ (s : State Mount UInt8) (a : Deed), Clashed s → a.Ok s.now →
      Clashed (cachedStep κ s (.act a)) := fun _ _ hs ha => hs.act hκ ha
  have hiff : (∀ dev, Mix 512 (Run.exec (fun s a => cachedStep κ s (.act a)) (flushed Mount.dev m)
      deeds).versions dev → MountsSoundly κ dev) ↔
      Run.Along (fun s a => cachedStep κ s (.act a)) (fun s a => ¬ a.Reuses s.now s.versions)
        (flushed Mount.dev m) deeds := by
    rcases Run.exec_or_bad hstep hbreak hbad (cachedGood_flushed hκ hm) hl with ⟨halong, hgood⟩ |
      ⟨hnot, hclashed⟩
    · exact iff_of_true (fun dev hmix => (CachedGood.mounts hκ hgood hmix).2.1) halong
    · refine iff_of_false (fun hall => ?_) hnot
      obtain ⟨u, hu, v, hv, hno⟩ := hclashed.clash
      obtain ⟨dev, hmix, hbroken⟩ := unsound_mix (κ := κ) hu hv (hclashed.sound u hu) hno
      exact hbroken (hall dev hmix)
  refine ⟨hiff, fun hsmall => hiff.mpr ?_⟩
  have hnone : ∀ (s : State Mount UInt8) (a : Deed), CachedGood m.sb s →
      ¬ a.Reuses s.now s.versions := by
    intro s a hs
    have hcount : s.now.volume.count = m.volume.count := by
      rw [Mount.volume, hs.now.2, Mount.volume]
    exact Deed.not_reuses_of_small (hcount ▸ hsmall) _ a
  exact Run.along_of_inv (fun s a hs ha => hstep s a hs ha (hnone s a hs))
    (fun s a hs _ => hnone s a hs) (cachedGood_flushed hκ hm) hl

/-- A formatted device of twenty blocks: sixteen slots in two sectors, data blocks 3 to 19. -/
def twoSectors : Mount :=
  (initBrowsing sampleKernel (kzallocInfo (formatRealSfs 10240 (fun _ => 9) fun _ => 5))).1

theorem twoSectors_mounted : Mounted sampleKernel twoSectors :=
  ⟨10240, fun _ => 9, fun _ => 5, by decide, Prod.ext rfl (by decide +kernel)⟩

/-- The creation of nine files. -/
def nineFiles : List Deed := (List.range 9).map fun i => .op (.create [97 + UInt8.ofNat i] 6 5)

/-- The block of a removed file is given to a file of another sector, before a sync: a loss of
power may leave it in both. -/
theorem power_loss_safe_iff_sample : ¬ ∀ dev, Mix 512
    (Run.exec (fun s a => cachedStep sampleKernel s (.act a)) (flushed Mount.dev twoSectors)
      (nineFiles ++ [.op (.getBlock 1 0 true), .op (.remove [97]),
        .op (.getBlock 9 0 true)])).versions dev → MountsSoundly sampleKernel dev := by
  have hnames : ∀ i ∈ List.range 9, SfsFileEntry.NameOk [97 + UInt8.ofNat i] := by decide
  have hok : ∀ a ∈ nineFiles, ∀ m : Mount, a.Ok m := by
    intro a ha m
    obtain ⟨i, hi, rfl⟩ := List.mem_map.mp ha
    exact ⟨trivial, trivial, hnames i hi⟩
  have hcreates : Run.Along (fun s a => cachedStep sampleKernel s (.act a)) (fun s a => a.Ok s.now)
      (flushed Mount.dev twoSectors) nineFiles :=
    (Run.along_of_mem _ hok).imp fun s a h => h s.now
  have hl : Run.Along (fun s a => cachedStep sampleKernel s (.act a)) (fun s a => a.Ok s.now)
      (flushed Mount.dev twoSectors)
      (nineFiles ++ [.op (.getBlock 1 0 true), .op (.remove [97]), .op (.getBlock 9 0 true)]) := by
    rw [Run.along_append]
    refine ⟨hcreates, ⟨⟨0, rfl, by decide +kernel⟩, ?_, trivial⟩,
      ⟨trivial, trivial, (by decide : SfsFileEntry.NameOk [97])⟩,
      ⟨⟨8, rfl, by decide +kernel⟩, ?_, trivial⟩, trivial⟩
    · exact fun i k _ hk _ _ j hj => absurd hj (by omega)
    · exact fun i k _ hk _ _ j hj => absurd hj (by omega)
  intro hall
  have hnone := (power_loss_safe_iff sampleKernel_reliable
    (twoSectors_mounted.serving sampleKernel_reliable) _ hl).1.mp hall
  rw [Run.along_append] at hnone
  obtain ⟨_, _, _, hlast, _⟩ := hnone
  refine hlast ⟨_, List.mem_cons_of_mem _ List.mem_cons_self, 8, by decide +kernel, 0,
    by decide +kernel, by decide, Or.inr ⟨3, 0, ⟨⟨0, rfl, ?_⟩, ?_⟩, ?_⟩⟩
  · decide +kernel
  · exact ⟨(List.range 16).map (4 + ·), by decide +kernel⟩
  · decide +kernel

/-! ### Synced files -/

/-- The entry of slot `i` is `fe` and its blocks hold what they hold in `base`. -/
def Holds (base : Store) (i : ℕ) (fe : SfsFileEntry) (dev : Store) : Prop :=
  entryAt dev i = fe ∧ ∀ k, fe.blocks k ≠ 0 → ∀ j < 512,
    dev (512 * (fe.blocks k).toNat + j) = base (512 * (fe.blocks k).toNat + j)

theorem mix_holds {versions : List Store} (hmix : Mix 512 versions dev) {base : Store} {i : ℕ}
    {fe : SfsFileEntry} (h : ∀ u ∈ versions, Holds base i fe u) : Holds base i fe dev := by
  constructor
  · obtain ⟨u, hu, he⟩ := mix_entries hmix (i / 8)
    rw [he i rfl, (h u hu).1]
  · exact fun k hk j hj => hmix.agree fun u hu => (h u hu).2 k hk j hj

theorem Holds.trans {base u v : Store} {i : ℕ} {fe : SfsFileEntry} (h : Holds base i fe u)
    (h' : Holds u i (entryAt u i) v) : Holds base i fe v := by
  obtain ⟨rfl, hdata⟩ := h
  exact ⟨h'.1, fun k hk j hj => (h'.2 k hk j hj).trans (hdata k hk j hj)⟩

/-- The file of the slot is the same. -/
theorem Holds.nodes {i : ℕ} {m' : Mount} (h : Holds m.dev i (entryAt m.dev i) m'.dev)
    {fn : List UInt8} (hs : m.volume.slotOf fn = some i) (hm : m'.Serving) (hsb : m'.sb = m.sb) :
    m'.volume.slotOf fn = some i ∧ m'.nodes fn = m.nodes fn := by
  obtain ⟨hi, ⟨hn, hc⟩, _⟩ := Volume.slotOf_eq_some.mp hs
  have hentry : m'.volume.entry i = m.volume.entry i := h.1
  have hslot : m'.volume.slotOf fn = some i := by
    rw [← hc, ← hentry]
    refine hm.catalog.slotOf_cname ⟨?_, hentry ▸ hn⟩
    change i < m'.sb.entryCount.toNat
    rw [hsb]
    exact hi
  have hfile : m'.volume.file i = m.volume.file i := by
    unfold Volume.file
    rw [hentry]
  refine ⟨hslot, ?_⟩
  rw [nodes_of_slot hslot, nodes_of_slot hs, hfile]
  refine congrArg some (Node.ext rfl rfl rfl (funext fun k => ?_))
  exact blockAt_congr fun hk h0 j hj => h.2 ⟨k, hk⟩ h0 j hj

/-- A deed that does not touch a file leaves its entry and its data. -/
theorem Deed.holds (hκ : κ.Reliable) (hm : m.Serving) {a : Deed} (ha : a.Ok m) {fn : List UInt8}
    {i : ℕ} (hs : m.volume.slotOf fn = some i) (hno : ¬ a.Touches m fn) :
    Holds m.dev i (entryAt m.dev i) (a.next κ m).dev := by
  obtain ⟨hi, ⟨hn, hc⟩, _⟩ := Volume.slotOf_eq_some.mp hs
  have hdata : ∀ k, (entryAt m.dev i).blocks k ≠ 0 →
      m.sb.dataBlockStart.toNat ≤ ((entryAt m.dev i).blocks k).toNat :=
    fun k hk => hm.owned.data (Volume.held_of_ne hi hk)
  cases a with
  | op o =>
    have hb := step_becomes hκ hm.wf ha.1.addressed
    have hsame := step_sameData hκ hm.wf ha.1.addressed
    refine ⟨?_, fun k hk j _ => hsame _ (by have hlo := hdata k hk; omega)⟩
    change (step κ m o).volume.entry i = m.volume.entry i
    rw [hb.volume]
    cases o with
    | create gn perms now =>
      simp only [Volume.run, Volume.create]
      split
      · next j _ hj =>
        have hfree := (Volume.freeSlot_eq_some.mp hj).2.1
        apply Volume.put_entry_of_ne
        rintro rfl
        exact hfree hn
      · rfl
    | lookup gn => rfl
    | remove gn =>
      simp only [Volume.run, Volume.remove]
      split
      · next j hj =>
        rw [Volume.release_entry, if_neg]
        rintro rfl
        exact hno ((Volume.slotOf_eq_some.mp hj).2.1.2.symm.trans hc)
      · rfl
    | getBlock ino iblock c =>
      obtain ⟨j, rfl, hj⟩ := ha.1
      have hne : i ≠ j := by
        rintro rfl
        exact hno ⟨i, hs, rfl⟩
      simp only [Volume.run, Volume.getBlock, v2s_succ, Int.toNat_natCast]
      split_ifs
      · rfl
      · split
        · rfl
        · rw [Volume.grant_entry, if_neg hne]
      · rfl
      · rfl
    | update ino size timestamp perms =>
      obtain ⟨j, rfl, hj⟩ := ha.1
      have hne : i ≠ j := by
        rintro rfl
        exact hno ⟨i, hs, rfl⟩
      simp only [Volume.run, Volume.update, v2s_succ, Int.toNat_natCast]
      rw [Volume.release_entry, if_neg hne]
  | writepage j l data =>
    have hheld := Volume.held_of_ne ha.1.1 ha.2
    refine ⟨(submitWrite_same hm.wf (hm.owned.data hheld) data).entry i hi, fun k hk r hr => ?_⟩
    have hne : ((entryAt m.dev j).blocks l).toNat ≠ ((entryAt m.dev i).blocks k).toNat := by
      intro he
      have hk' : m.volume.Held (i, k) ((entryAt m.dev i).blocks k).toNat := Volume.held_of_ne hi hk
      have hl : m.volume.Held (j, l) ((entryAt m.dev j).blocks l).toNat := hheld
      rw [he] at hl
      obtain rfl := congrArg Prod.fst (hm.owned.ledger.inj hl hk')
      exact hno hs
    change (m.submitWrite ((entryAt m.dev j).blocks l) data).dev _ = m.dev _
    rw [submitWrite_dev hm.wf]
    exact Store.blit_outside _ _ (by omega)

/-- A file that was there at a sync is there after any further deeds on other files and any
losses of power, with the same size, mode, time and data. -/
theorem synced_file_survives (hκ : κ.Reliable) (hm : Mounted κ m)
    (pre post : List (PowerLoss.Event Deed UInt8)) (fn : List UInt8)
    (hl : Run.Along (cachedStep κ) CachedLegal (flushed Mount.dev m) (pre ++ .sync :: post))
    (hf : (Run.exec (cachedStep κ) (flushed Mount.dev m) pre).now.nodes fn ≠ none)
    (hkeep : Run.Along (cachedStep κ) (fun s e => ∀ a, e = .act a → ¬ a.Touches s.now fn)
      (Run.exec (cachedStep κ) (flushed Mount.dev m) (pre ++ [.sync])) post) :
    (Run.exec (cachedStep κ) (flushed Mount.dev m) (pre ++ .sync :: post)).now.nodes fn =
      (Run.exec (cachedStep κ) (flushed Mount.dev m) pre).now.nodes fn := by
  have hr := driver_restarts hκ m.sb
  obtain ⟨hlpre, _, hlpost⟩ := (Run.along_append _ _ _ _ _).mp hl
  have hpre := hr.run (cachedGood_flushed hκ (hm.serving hκ)) hlpre
  rw [Run.exec_append, Run.exec_cons] at hkeep ⊢
  set s₀ := Run.exec (cachedStep κ) (flushed Mount.dev m) pre
  obtain ⟨hnow, hsb⟩ := hpre.now
  obtain ⟨i, hs⟩ := Option.ne_none_iff_exists'.mp (mt nodes_eq_none.mpr hf)
  have hsync : CachedGood m.sb (cachedStep κ s₀ .sync) := hr.flushed hpre.now
  have hbase : ∀ u ∈ (cachedStep κ s₀ .sync).versions,
      Holds s₀.now.dev i (entryAt s₀.now.dev i) u := by
    intro u hu
    rw [List.mem_singleton.mp hu]
    exact ⟨rfl, fun _ _ _ _ => rfl⟩
  have hkept : ∀ s e, (CachedLegal s e ∧ ∀ a, e = .act a → ¬ a.Touches s.now fn) →
      CachedLegal s e ∧ ∀ a, e = .act a → (s.now.Serving ∧ s.now.sb = m.sb) →
        Holds s₀.now.dev i (entryAt s₀.now.dev i) s.now.dev →
        Holds s₀.now.dev i (entryAt s₀.now.dev i) (a.next κ s.now).dev := by
    rintro s e ⟨he, hno⟩
    refine ⟨he, ?_⟩
    rintro a rfl ⟨hserving, hsb'⟩ hP
    have hslot := (hP.nodes hs hserving (hsb'.trans hsb.symm)).1
    exact hP.trans (a.holds hκ hserving he.1 hslot (hno a rfl))
  have hend := hr.run hsync hlpost
  have hall := hr.keeps (fun _ _ hP hmix => mix_holds hmix hP) hsync hbase
    ((hlpost.and hkeep).imp hkept)
  exact ((hall _ hend.head).nodes hs hend.now.1 (hend.now.2.trans hsb.symm)).2

/-- A file and its data are found after a loss of power that takes the creation of another one
back. -/
theorem synced_file_survives_sample :
    (Run.exec (cachedStep sampleKernel) (flushed Mount.dev sampleMount)
      ([.act (.op (.create [97] 6 5)), .act (.op (.getBlock 1 0 true)),
        .act (.writepage 0 0 fun _ => 3)] ++ .sync :: [.act (.op (.create [98] 6 5)),
        .lose (Run.exec (cachedStep sampleKernel) (flushed Mount.dev sampleMount)
          [.act (.op (.create [97] 6 5)), .act (.op (.getBlock 1 0 true)),
            .act (.writepage 0 0 fun _ => 3)]).now.dev])).now.nodes [97] =
    (Run.exec (cachedStep sampleKernel) (flushed Mount.dev sampleMount)
      [.act (.op (.create [97] 6 5)), .act (.op (.getBlock 1 0 true)),
        .act (.writepage 0 0 fun _ => 3)]).now.nodes [97] := by
  refine synced_file_survives sampleKernel_reliable sampleMount_mounted _ _ [97] ?_ ?_ ?_
  · refine ⟨⟨⟨trivial, trivial, (by decide : SfsFileEntry.NameOk [97])⟩, ?_⟩,
      ⟨⟨⟨0, rfl, by decide +kernel⟩, ?_, trivial⟩, ?_⟩,
      ⟨⟨by decide +kernel, by decide +kernel⟩, id⟩, trivial,
      ⟨⟨trivial, trivial, (by decide : SfsFileEntry.NameOk [98])⟩, ?_⟩, ?_, trivial⟩
    · exact Deed.not_reuses_of_small (by decide +kernel) _ _
    · exact fun i k _ hk _ _ j hj => absurd hj (by omega)
    · exact Deed.not_reuses_of_small (by decide +kernel) _ _
    · exact Deed.not_reuses_of_small (by decide +kernel) _ _
    · exact mix_of_mem (List.mem_cons_of_mem _ (List.mem_singleton_self _))
  · exact fun h => absurd (nodes_eq_none.mp h) (by decide +kernel)
  · refine ⟨?_, ?_, trivial⟩
    · rintro a ⟨⟩
      exact id
    · rintro a ⟨⟩

end Linuxpedia.Sfs
