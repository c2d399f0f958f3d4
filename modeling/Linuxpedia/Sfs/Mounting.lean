import Linuxpedia.Sfs.RawTable

/-! Mounting. The allocation table is rebuilt from the entry table: everything in
front of the data blocks is used, and so is every block that the pointers of a
named slot mention before their first zero. Mounting a formatted image gives an
empty volume that satisfies every invariant. -/

namespace Linuxpedia.Sfs

open Lib

/-- The table before any slot is looked at, in memory that held `mem`. -/
def freshTable (size start : ℕ) (mem : Store) : Buffer :=
  Buffer.fill 0 (size - start) start (Buffer.fill 1 start 0 ⟨size, mem, false⟩)

/-- The marking loop over `n` slots from `i` on. -/
def markSlots (entry : ℕ → SfsFileEntry) : ℕ → ℕ → Buffer → Buffer
  | 0, _, t => t
  | n + 1, i, t =>
    markSlots entry n (i + 1) (if (entry i).Named then markBlocks (entry i) t else t)

theorem freshTable_ok {size start : ℕ} (h : start ≤ size) (hs : size ≤ 2 ^ 31) (mem : Store) :
    freshTable size start mem = ⟨size, fun j => if start ≤ j ∧ j < size then 0
      else if j < start then 1 else mem j, false⟩ := by
  rw [freshTable, Buffer.fill_ok _ 0 _ _ (by simp only [Buffer.size_fill]; omega)
    (by simpa using hs), Buffer.fill_ok _ 1 _ _ (by simpa using h) hs]
  have hb : start + (size - start) = size := by omega
  simp [hb]

@[simp] theorem size_freshTable (size start : ℕ) (mem : Store) :
    (freshTable size start mem).size = size := by
  rw [freshTable, Buffer.size_fill, Buffer.size_fill]

/-- The two loops stay in range exactly when the table is as long as they take it for
and indexed by an `int`. -/
theorem fault_freshTable {size start : ℕ} (hsize : size < 2 ^ 32) (hstart : start < 2 ^ 32)
    (mem : Store) :
    (freshTable size start mem).fault = false ↔ start ≤ size ∧ size ≤ 2 ^ 31 := by
  rw [freshTable, Buffer.fault_fill, Buffer.fault_fill, Buffer.size_fill]
  constructor
  · rintro ⟨⟨_, hlow⟩, hhigh⟩
    have hle : start ≤ size := by
      by_contra hlt
      obtain ⟨h0, h1⟩ := hlow size (Nat.zero_le _) (by omega)
      by_cases h31 : size < 2 ^ 31
      · rw [asInt_ofNat h31] at h1
        exact absurd h1 (lt_irrefl _)
      · have hneg := asInt_neg (Nat.not_lt.mp h31) hsize
        omega
    refine ⟨hle, ?_⟩
    by_contra h31
    have hneg := asInt_neg (Nat.le_refl (2 ^ 31)) (by omega)
    by_cases hs : 2 ^ 31 < start
    · have h0 := (hlow (2 ^ 31) (Nat.zero_le _) (by omega)).1
      omega
    · have h0 := (hhigh (2 ^ 31) (by omega) (by omega)).1
      omega
  · rintro ⟨hle, h31⟩
    have hin : ∀ j < size, 0 ≤ asInt (UInt32.ofNat j) ∧ asInt (UInt32.ofNat j) < size := by
      intro j hj
      rw [asInt_ofNat (by omega)]
      omega
    exact ⟨⟨rfl, fun j _ hj => hin j (by omega)⟩, fun j _ hj => hin j (by omega)⟩

/-- Block `b` is mentioned by slot `i` of a table before its first zero pointer. -/
def Mentions (entry : ℕ → SfsFileEntry) (i b : ℕ) : Prop :=
  (entry i).Named ∧ ∃ w ∈ (entry i).prefixPtrs, w.toNat = b

/-- The loop sets exactly the cells of the blocks mentioned. -/
theorem markSlots_ok (entry : ℕ → SfsFileEntry) (n i : ℕ) (t : Buffer)
    (h : ∀ j b, i ≤ j → j < i + n → Mentions entry j b → b < t.size) :
    ∃ c, markSlots entry n i t = { t with cell := c } ∧
      (∀ j b, i ≤ j → j < i + n → Mentions entry j b → c b = 1) ∧
      ∀ b, (∀ j, i ≤ j → j < i + n → ¬ Mentions entry j b) → c b = t.cell b := by
  induction n generalizing i t with
  | zero => exact ⟨t.cell, rfl, fun j b h1 h2 => by omega, fun _ _ => rfl⟩
  | succ n ih =>
    by_cases hn : (entry i).Named
    · have hlt : ∀ w ∈ (entry i).prefixPtrs, w.toNat < t.size :=
        fun w hw => h i _ (Nat.le_refl i) (by omega) ⟨hn, w, hw, rfl⟩
      have ht := t.mark_ok _ hlt
      change markBlocks (entry i) t = _ at ht
      obtain ⟨c, hc, hin, hout⟩ := ih (i + 1) (markBlocks (entry i) t) fun j b h1 h2 hm => by
        rw [ht]
        exact h j b (by omega) (by omega) hm
      refine ⟨c, by rw [markSlots, if_pos hn, hc, ht], ?_, ?_⟩
      · intro j b h1 h2 hm
        by_cases hlater : ∃ l, i + 1 ≤ l ∧ l < i + 1 + n ∧ Mentions entry l b
        · obtain ⟨l, hl1, hl2, hl⟩ := hlater
          exact hin l b hl1 hl2 hl
        · have hji : j = i := by
            by_contra hne
            exact hlater ⟨j, by omega, by omega, hm⟩
          subst hji
          rw [hout b (fun l hl1 hl2 hl => hlater ⟨l, hl1, hl2, hl⟩), ht]
          exact if_pos (List.mem_map.mpr hm.2)
      · intro b hb
        rw [hout b (fun l hl1 hl2 => hb l (by omega) (by omega)), ht]
        refine if_neg fun hmem => hb i (Nat.le_refl i) (by omega) ⟨hn, ?_⟩
        exact List.mem_map.mp hmem
    · obtain ⟨c, hc, hin, hout⟩ := ih (i + 1) t fun j b h1 h2 hm => h j b (by omega) (by omega) hm
      refine ⟨c, by rw [markSlots, if_neg hn, hc], ?_, ?_⟩
      · intro j b h1 h2 hm
        have hne : j ≠ i := by
          rintro rfl
          exact hn hm.1
        exact hin j b (by omega) (by omega) hm
      · exact fun b hb => hout b fun l hl1 hl2 => hb l (by omega) (by omega)

/-- Marking makes no fault exactly when every block mentioned is in range. -/
theorem fault_markSlots (entry : ℕ → SfsFileEntry) (n i : ℕ) (t : Buffer) :
    (markSlots entry n i t).fault = false ↔ t.fault = false ∧
      ∀ j b, i ≤ j → j < i + n → Mentions entry j b → b < t.size := by
  induction n generalizing i t with
  | zero =>
    refine (and_iff_left ?_).symm
    intro j b h1 h2
    omega
  | succ n ih =>
    rw [markSlots, ih]
    by_cases hn : (entry i).Named
    · rw [if_pos hn, markBlocks, Buffer.fault_mark, Buffer.size_mark, and_assoc]
      refine and_congr_right fun _ => ?_
      constructor
      · rintro ⟨hhead, htail⟩ j b h1 h2 hm
        rcases Nat.eq_or_lt_of_le h1 with rfl | hlt
        · obtain ⟨_, w, hw, rfl⟩ := hm
          exact hhead w hw
        · exact htail j b hlt (by omega) hm
      · intro h
        constructor
        · exact fun w hw => h i w.toNat (Nat.le_refl i) (by omega) ⟨hn, w, hw, rfl⟩
        · exact fun j b h1 h2 => h j b (by omega) (by omega)
    · rw [if_neg hn]
      refine and_congr_right fun _ => ?_
      constructor
      · intro h j b h1 h2 hm
        rcases Nat.eq_or_lt_of_le h1 with rfl | hlt
        · exact absurd hm.1 hn
        · exact h j b hlt (by omega) hm
      · exact fun h j b h1 h2 => h j b (by omega) (by omega)

theorem size_markSlots (entry : ℕ → SfsFileEntry) (n i : ℕ) (t : Buffer) :
    (markSlots entry n i t).size = t.size := by
  induction n generalizing i t with
  | zero => rfl
  | succ n ih =>
    unfold markSlots
    rw [ih]
    split_ifs
    · exact t.size_mark _
    · rfl

namespace Volume

variable (v : Volume)

/-- The allocation table that mounting builds for the slots of a volume. -/
def rebuild (mem : Store) : Buffer :=
  markSlots v.entry v.count 0 (freshTable v.used.size v.start mem)

/-- A named slot mentions block `b` before its first zero pointer. -/
def Seen (b : ℕ) : Prop := ∃ i < v.count, Mentions v.entry i b

variable {v}

/-- Where every block mentioned is in range, the rebuilt table marks the blocks in
front of the data and the ones mentioned. -/
theorem rebuild_ok (hs : v.start ≤ v.used.size) (h31 : v.used.size ≤ 2 ^ 31)
    (h : ∀ b, v.Seen b → b < v.used.size) (mem : Store) : (v.rebuild mem).size = v.used.size ∧ (v.rebuild mem).fault = false ∧
      (∀ b, b < v.start ∨ v.Seen b → (v.rebuild mem).cell b = 1) ∧
      ∀ b < v.used.size, ¬ (b < v.start ∨ v.Seen b) → (v.rebuild mem).cell b = 0 := by
  have hf := freshTable_ok hs h31 mem
  obtain ⟨c, hc, hin, hout⟩ := markSlots_ok v.entry v.count 0 (freshTable v.used.size v.start mem)
    fun j b _ h2 hm => by
      rw [hf]
      exact h b ⟨j, by omega, hm⟩
  have hr : v.rebuild mem = { freshTable v.used.size v.start mem with cell := c } := hc
  have hskip : ∀ b, ¬ v.Seen b → c b = (freshTable v.used.size v.start mem).cell b :=
    fun b hb => hout b fun j _ hj hm => hb ⟨j, by omega, hm⟩
  rw [hr]
  refine ⟨by rw [hf], by rw [hf], ?_, ?_⟩
  · intro b hb
    by_cases hseen : v.Seen b
    · obtain ⟨j, hj, hm⟩ := hseen
      exact hin j b (Nat.zero_le j) (by omega) hm
    · have hlt : b < v.start := hb.resolve_right hseen
      have hc0 : c b = (freshTable v.used.size v.start mem).cell b := hskip b hseen
      rw [hf] at hc0
      simpa [hlt, Nat.not_le.mpr hlt] using hc0
  · intro b hlt hb
    have hseen : ¬ v.Seen b := fun h => hb (Or.inr h)
    have hge : v.start ≤ b := by
      by_contra hn
      exact hb (Or.inl (by omega))
    have hc0 : c b = (freshTable v.used.size v.start mem).cell b := hskip b hseen
    rw [hf] at hc0
    simpa [hge, hlt] using hc0

/-- Mounting makes no fault exactly when every block mentioned is in range. -/
theorem fault_rebuild (hs : v.start ≤ v.used.size) (h31 : v.used.size ≤ 2 ^ 31) (mem : Store) :
    (v.rebuild mem).fault = false ↔ ∀ b, v.Seen b → b < v.used.size := by
  unfold rebuild
  rw [fault_markSlots, freshTable_ok hs h31]
  constructor
  · rintro ⟨_, h⟩ b ⟨j, hj, hm⟩
    exact h j b (Nat.zero_le j) (by omega) hm
  · exact fun h => ⟨rfl, fun j b _ hj hm => h b ⟨j, by omega, hm⟩⟩

/-- Memory behind the table is left alone. -/
theorem rebuild_outside (hs : v.start ≤ v.used.size) (h31 : v.used.size ≤ 2 ^ 31)
    (h : ∀ b, v.Seen b → b < v.used.size) (mem : Store) {b : ℕ} (hb : v.used.size ≤ b) : (v.rebuild mem).cell b = mem b := by
  have hf := freshTable_ok hs h31 mem
  obtain ⟨c, hc, _, hout⟩ := markSlots_ok v.entry v.count 0 (freshTable v.used.size v.start mem)
    fun j b _ h2 hm => by
      rw [hf]
      exact h b ⟨j, by omega, hm⟩
  have hskip : c b = (freshTable v.used.size v.start mem).cell b :=
    hout b fun j _ hj hm => Nat.not_lt.mpr hb (h b ⟨j, by omega, hm⟩)
  unfold rebuild
  rw [hc]
  change c b = mem b
  rw [hskip, hf]
  change (if v.start ≤ b ∧ b < v.used.size then 0 else if b < v.start then 1 else mem b) = mem b
  rw [if_neg fun hlt => Nat.not_lt.mpr hb hlt.2, if_neg (by omega)]

/-- A block seen is held. -/
theorem held_of_seen {b : ℕ} (h : v.Seen b) : ∃ p, v.Held p b := by
  obtain ⟨i, hi, _, w, hw, rfl⟩ := h
  obtain ⟨k, hk⟩ := held_of_mem_prefixPtrs hi hw
  exact ⟨(i, k), hk⟩

/-- Where the pointers are packed every block held is seen. -/
theorem Packed.seen (hp : v.Packed) (ho : v.Owned) {p : ℕ × Fin 9} {b : ℕ} (h : v.Held p b) :
    v.Seen b := by
  obtain ⟨i, k⟩ := p
  have hne : (v.entry i).blocks k ≠ 0 := (held_iff_blocks h.1).mp ⟨b, h⟩
  have hnamed : (v.entry i).Named := by
    by_contra hn
    exact hne (ho.bare i h.1 hn k)
  exact ⟨i, h.1, hnamed, _, (hp.mem_prefixPtrs h.1).mpr ⟨hne, k, rfl⟩, h.2.1⟩

/-- A packed volume with exact marks is mounted with the table it has. -/
theorem Exact.rebuild_eq (h : v.Exact) (ho : v.Owned) (hp : v.Packed) (hs : v.start ≤ v.used.size)
    (h31 : v.used.size ≤ 2 ^ 31) (mem : Store) : ∀ b < v.used.size, (v.rebuild mem).cell b = v.used.cell b := by
  obtain ⟨_, _, hin, hout⟩ := rebuild_ok hs h31
    (fun b hb => (held_of_seen hb).elim fun p hp => ho.lt_size hp) mem
  intro b hb
  have hmem : b ∈ v.marked ↔ b < v.start ∨ v.Seen b := by
    rw [h.tight b]
    refine or_congr_right ⟨?_, held_of_seen⟩
    rintro ⟨p, hpb⟩
    exact hp.seen ho hpb
  by_cases hm : b ∈ v.marked
  · rw [hin b (hmem.mp hm), h.bit b hm.2 hb]
  · rw [hout b hb (fun hx => hm (hmem.mpr hx))]
    by_contra hne
    exact hm ⟨hb, fun h0 => hne h0.symm⟩

/-- A volume without files whose table was just built. -/
structure Fresh (v : Volume) : Prop where
  start_le : v.start ≤ v.used.size
  small : v.used.size ≤ 2 ^ 31
  empty : ∀ i < v.count, v.entry i = .zero
  used : ∃ mem, v.used = v.rebuild mem

namespace Fresh

variable (h : v.Fresh)

include h

theorem not_held (p : ℕ × Fin 9) (b : ℕ) : ¬ v.Held p b := by
  rintro ⟨hi, hb, h0⟩
  rw [h.empty p.1 hi] at hb
  exact h0 hb.symm

theorem owned : v.Owned where
  ledger := ⟨fun hi => (h.not_held _ _ hi).elim, fun hi => (h.not_held _ _ hi).elim⟩
  data := fun hi => (h.not_held _ _ hi).elim
  bare := fun i hi _ k => by rw [h.empty i hi]; rfl

theorem packed : v.Packed := by
  intro i hi k hk
  rw [h.empty i hi] at hk
  exact absurd rfl hk

theorem not_seen (b : ℕ) : ¬ v.Seen b := fun hb =>
  (held_of_seen hb).elim fun p hp => h.not_held p b hp

theorem table : v.used.fault = false ∧ (∀ b < v.start, v.used.cell b = 1) ∧
    ∀ b < v.used.size, v.start ≤ b → v.used.cell b = 0 := by
  obtain ⟨mem, hmem⟩ := h.used
  obtain ⟨hsize, hfault, hin, hout⟩ := rebuild_ok h.start_le h.small
    (fun b hb => absurd hb (h.not_seen b)) mem
  rw [hmem]
  refine ⟨hfault, fun b hb => hin b (Or.inl hb), fun b hb hs => ?_⟩
  rw [hsize] at hb
  exact hout b hb fun hor => hor.elim (fun hlt => absurd hlt (Nat.not_lt.mpr hs)) (h.not_seen b)

theorem exact : v.Exact := by
  obtain ⟨_, hlow, hhigh⟩ := h.table
  constructor
  · intro b
    have hno : ¬ ∃ p, v.Held p b := fun ⟨p, hp⟩ => h.not_held p b hp
    simp only [hno, or_false, Set.mem_ofPred_eq]
    constructor
    · rintro ⟨hb, hne⟩
      by_contra hlt
      exact hne (hhigh b hb (by omega))
    · intro hb
      refine ⟨Nat.lt_of_lt_of_le hb h.start_le, ?_⟩
      rw [hlow b hb]
      decide
  · intro b hne hb
    by_cases hlt : b < v.start
    · exact hlow b hlt
    · exact absurd (hhigh b hb (by omega)) hne

theorem settled : v.Settled := ⟨h.owned, h.packed, h.exact⟩

end Fresh

end Volume

/-! ### `init_browsing` -/

variable {κ : Kernel} {m : Mount}

/-- The loop over the entry table, where every slot is read. -/
theorem Scanned.initLoop {v : Volume} {ok : ℕ → Prop} (h : Scanned κ m v ok)
    (hall : ∀ i < v.count, ok i) (n i : ℕ) (hn : i + n = v.count) (t : Buffer) :
    initBrowsingLoop κ n i (m.tick i) t = (m.tick v.count, .ok (markSlots v.entry n i t)) := by
  induction n generalizing i t with
  | zero =>
    obtain rfl : i = v.count := hn
    rfl
  | succ n ih =>
    have hi : i < v.count := by omega
    rw [initBrowsingLoop, h.read i hi (hall i hi)]
    exact ih (i + 1) (by omega) _

/-- It gives up at a slot that cannot be read. -/
theorem Scanned.initLoop_fails {v : Volume} {ok : ℕ → Prop} (h : Scanned κ m v ok) (n i : ℕ)
    (hn : i + n = v.count) (hbad : ∃ j, i ≤ j ∧ j < v.count ∧ ¬ ok j) (t : Buffer) :
    ∃ c, initBrowsingLoop κ n i (m.tick i) t = (m.tick c, .error (-enomem)) := by
  obtain ⟨j, hij, hj, hno⟩ := hbad
  induction n generalizing i t with
  | zero => omega
  | succ n ih =>
    have hi : i < v.count := by omega
    by_cases hok : ok i
    · rw [initBrowsingLoop, h.read i hi hok]
      have hne : i ≠ j := fun he => hno (he ▸ hok)
      exact ih (i + 1) (by omega) _ (by omega)
    · obtain ⟨c, e, hc⟩ := h.fails i hi hok
      exact ⟨c, by rw [initBrowsingLoop, hc]⟩

theorem readSb_eq (hb : κ.bread m.breads 0 = true) :
    readSbFromRealSfs κ m = (m.tick 1, .ok (SfsSuperBlock.ofBytes m.dev)) := by
  have hw : m.dev.window ((0 : UInt32).toNat * κ.bdBlockSize.toNat) = m.dev := by
    funext i
    simp [Store.window]
  rw [readSbFromRealSfs, sbBread]
  simp only [hb, ↓reduceIte, hw]
  rfl

/-- Mounting a device whose table is read as the slots of `v`. -/
theorem initBrowsing_scanned {sb : SfsSuperBlock} (hb : κ.bread m.breads 0 = true)
    (hsb : SfsSuperBlock.ofBytes m.dev = sb) (htype : sb.type = simulaFsType) {mem : Store}
    (hmem : κ.vmalloc sb.partitionSize = some mem) {v : Volume} {ok : ℕ → Prop}
    (h : Scanned κ { m.tick 1 with sb := sb } v ok) (hall : ∀ i < v.count, ok i) :
    initBrowsing κ m = ({ m with
      sb := sb
      breads := m.breads + 1 + sb.entryCount.toNat
      usedBlocks := markSlots v.entry sb.entryCount.toNat 0
        (freshTable sb.partitionSize.toNat sb.dataBlockStart.toNat mem) }, 0) := by
  have hcount : v.count = sb.entryCount.toNat := h.count
  have hloop := h.initLoop hall v.count 0 (Nat.zero_add _)
    (freshTable sb.partitionSize.toNat sb.dataBlockStart.toNat mem)
  rw [Mount.tick_zero, hcount] at hloop
  rw [initBrowsing, readSb_eq hb, hsb]
  simp only [htype, ne_eq, not_true_eq_false, ↓reduceIte, hmem]
  rw [freshTable] at hloop ⊢
  rw [hloop]
  rfl

/-- Mounting a device whose super block describes a layout. -/
theorem initBrowsing_eq (hκ : κ.Reliable) {sb : SfsSuperBlock}
    (hsb : SfsSuperBlock.ofBytes m.dev = sb) (hg : Geometry sb) {mem : Store}
    (hmem : κ.vmalloc sb.partitionSize = some mem) :
    initBrowsing κ m = ({ m with
      sb := sb
      breads := m.breads + 1 + sb.entryCount.toNat
      usedBlocks := markSlots (entryAt m.dev) sb.entryCount.toNat 0
        (freshTable sb.partitionSize.toNat sb.dataBlockStart.toNat mem) }, 0) :=
  initBrowsing_scanned (hκ.bread _ _) hsb hg.type_eq hmem
    (Geometry.scanned (m := { m.tick 1 with sb := sb }) hκ.toSound hg) fun _ _ => hκ.bread _ _

/-! Any image at all. -/

/-- What `init_browsing` needs to return 0: block 0 is read, the magic number is
right, there is memory for the table and every slot is read. -/
structure Mountable (κ : Kernel) (m : Mount) : Prop where
  superBlock : κ.bread m.breads 0 = true
  type : (SfsSuperBlock.ofBytes m.dev).type = simulaFsType
  memory : (κ.vmalloc (SfsSuperBlock.ofBytes m.dev).partitionSize).isSome
  slots : ∀ i < (SfsSuperBlock.ofBytes m.dev).entryCount.toNat,
    κ.Reads (m.breads + 1 + i) ((SfsSuperBlock.ofBytes m.dev).slotAddr i)

theorem Mountable.mounts (h : Mountable κ m) {sb : SfsSuperBlock}
    (hsb : SfsSuperBlock.ofBytes m.dev = sb) : ∃ mem, initBrowsing κ m = ({ m with
      sb := sb
      breads := m.breads + 1 + sb.entryCount.toNat
      usedBlocks := markSlots (rawEntry sb m.dev) sb.entryCount.toNat 0
        (freshTable sb.partitionSize.toNat sb.dataBlockStart.toNat mem) }, 0) := by
  subst hsb
  obtain ⟨mem, hmem⟩ := Option.isSome_iff_exists.mp h.memory
  exact ⟨mem, initBrowsing_scanned h.superBlock rfl h.type hmem
    (raw_scanned κ { m.tick 1 with sb := .ofBytes m.dev }) h.slots⟩

theorem initBrowsing_fails (h : ¬ Mountable κ m) : (initBrowsing κ m).2 < 0 := by
  have heio : -eio < 0 := by decide
  have heinval : -einval < 0 := by decide
  have henomem : -enomem < 0 := by decide
  set sb := SfsSuperBlock.ofBytes m.dev with hsb
  set m₁ : Mount := { m.tick 1 with sb := sb } with hm₁
  by_cases hb : κ.bread m.breads 0 = true
  · rw [initBrowsing, readSb_eq hb]
    by_cases htype : sb.type = simulaFsType
    · simp only [← hsb, htype, ne_eq, not_true_eq_false, ↓reduceIte]
      cases hmem : κ.vmalloc sb.partitionSize with
      | none => exact henomem
      | some mem =>
        have hbad : ∃ j, 0 ≤ j ∧ j < m₁.table.count ∧
            ¬ κ.Reads (m₁.breads + j) (m₁.sb.slotAddr j) := by
          by_contra hall
          push Not at hall
          exact h ⟨hb, htype, by rw [← hsb, hmem]; rfl, fun i => hall i (Nat.zero_le i)⟩
        obtain ⟨c, hloop⟩ := (raw_scanned κ m₁).initLoop_fails _ 0 (Nat.zero_add _) hbad
          (freshTable sb.partitionSize.toNat sb.dataBlockStart.toNat mem)
        rw [Mount.tick_zero, freshTable] at hloop
        have hfail : initBrowsingLoop κ sb.entryCount.toNat 0 ⟨(m.tick 1).dev, sb,
            (m.tick 1).usedBlocks, (m.tick 1).breads, (m.tick 1).writes⟩ _ = _ := hloop
        simp only [hfail]
        exact henomem
    · simp only [← hsb, ne_eq, htype, not_false_eq_true, ↓reduceIte]
      exact heinval
  · rw [initBrowsing, readSbFromRealSfs, sbBread]
    simp only [hb, Bool.false_eq_true, ↓reduceIte]
    exact heio

theorem mountable_iff : Mountable κ m ↔ (initBrowsing κ m).2 = 0 := by
  constructor
  · intro h
    obtain ⟨mem, hm⟩ := h.mounts rfl
    rw [hm]
  · intro h
    by_contra hno
    exact absurd h (ne_of_lt (initBrowsing_fails hno))

/-! Formatted images. -/

/-- A device without blocks is not mounted: `vmalloc(0)` is `NULL`. -/
theorem initBrowsing_empty (hκ : κ.Reliable) {sb : SfsSuperBlock}
    (hsb : SfsSuperBlock.ofBytes m.dev = sb) (h0 : sb.partitionSize = 0) :
    (initBrowsing κ m).2 ≠ 0 := by
  rw [initBrowsing, readSb_eq (hκ.bread _ _), hsb]
  by_cases ht : sb.type = simulaFsType
  · simp only [ht, ne_eq, not_true_eq_false, ↓reduceIte, h0, hκ.vmalloc_zero]
    decide
  · simp only [ne_eq, ht, not_false_eq_true, ↓reduceIte]
    decide

/-- `m` is a mount of an image that the formatter made of some device of at most
`2 ^ 31` blocks. -/
def Mounted (κ : Kernel) (m : Mount) : Prop :=
  ∃ (size : ℕ) (dev stack : Store), (formatSb size).partitionSize.toNat < 2 ^ 31 ∧
    initBrowsing κ (kzallocInfo (formatRealSfs size dev stack)) = (m, 0)

/-- What a fresh mount is: an empty table over the formatter's layout. -/
structure Mount.Fresh (m : Mount) : Prop where
  wf : m.Wf
  empty : ∀ i < m.volume.count, m.volume.entry i = .zero
  used : ∃ mem, m.usedBlocks = m.volume.rebuild mem

theorem Mounted.fresh (hκ : κ.Reliable) (h : Mounted κ m) : m.Fresh := by
  obtain ⟨size, dev, stack, hP, hm⟩ := h
  set img := formatRealSfs size dev stack with himg
  have hsb : SfsSuperBlock.ofBytes (kzallocInfo img).dev = formatSb size :=
    formatRealSfs_sb size dev stack
  have h0 : (formatSb size).partitionSize ≠ 0 :=
    fun h0 => initBrowsing_empty hκ hsb h0 (by rw [hm])
  have hg := formatSb_geometry h0 hP
  obtain ⟨mem, hmem⟩ := Option.isSome_iff_exists.mp (hκ.vmalloc _ h0)
  rw [initBrowsing_eq hκ hsb hg hmem] at hm
  have hsize : m.usedBlocks.size = m.sb.partitionSize.toNat := by
    obtain ⟨rfl, _⟩ := Prod.mk.inj hm
    have hz : ∀ j b, Mentions (entryAt img) j b → j < (formatSb size).entryCount.toNat → False := by
      intro j b hm hj
      have hn := hm.1
      rw [entryAt_formatRealSfs size dev stack h0 hP hj] at hn
      exact SfsFileEntry.zero_not_named hn
    obtain ⟨c, hc, _⟩ := markSlots_ok (entryAt img) (formatSb size).entryCount.toNat 0
      (freshTable (formatSb size).partitionSize.toNat (formatSb size).dataBlockStart.toNat mem)
      fun j b _ h2 hm => (hz j b hm (by omega)).elim
    have hf := freshTable_ok hg.start_le hP.le mem
    change (markSlots (entryAt img) _ _ _).size = _
    rw [hc, hf]
  have hwf : m.Wf := by
    obtain ⟨rfl, _⟩ := Prod.mk.inj hm
    exact ⟨hg, hsb, hsize⟩
  refine ⟨hwf, ?_, mem, ?_⟩
  · obtain ⟨rfl, _⟩ := Prod.mk.inj hm
    exact fun i hi => entryAt_formatRealSfs size dev stack h0 hP hi
  · rw [Volume.rebuild, show m.volume.used.size = m.sb.partitionSize.toNat from hsize]
    obtain ⟨rfl, _⟩ := Prod.mk.inj hm
    rfl

theorem Mount.Fresh.volume (h : m.Fresh) : m.volume.Fresh := ⟨h.wf.start_le, h.wf.size_lt, h.empty, h.used⟩

theorem Mount.Fresh.owned (h : m.Fresh) : m.volume.Owned := h.volume.settled.owned

/-! ### A small device -/

/-- A kernel with 512-byte device blocks whose reads succeed and whose `vmalloc`
memory is not zeroed. -/
def sampleKernel : Kernel := ⟨512, fun _ _ => true, fun n => if n = 0 then none else some fun _ => 7⟩

/-- A device of ten blocks, formatted and mounted: eight slots, data blocks 2 to 9. -/
def sampleMount : Mount :=
  (initBrowsing sampleKernel (kzallocInfo (formatRealSfs 5120 (fun _ => 9) fun _ => 5))).1

theorem sampleKernel_reliable : sampleKernel.Reliable where
  pos := by decide
  mult := by decide
  vmalloc_zero := rfl
  bread := fun _ _ => rfl
  vmalloc := by
    intro n hn
    simp [sampleKernel, hn]

theorem sampleMount_mounted : Mounted sampleKernel sampleMount :=
  ⟨5120, fun _ => 9, fun _ => 5, by decide, Prod.ext rfl (by decide +kernel)⟩

end Linuxpedia.Sfs
