import Linuxpedia.Sfs.Volume

/-! The moves of a volume. Whatever works on an image does one of five things to
it: nothing, fill a free slot, clear a slot, rewrite a slot without its pointers
from some index on, or point an empty index at the first free block. Ownership
survives each of them; that the marks are exact survives a clearing only when the
pointers cleared form a prefix. -/

namespace Linuxpedia.Sfs.Volume

open Lib

variable (v : Volume)

/-- Free the blocks `bs` and rewrite slot `i`. -/
def release (i : ℕ) (bs : List UInt32) (fe : SfsFileEntry) : Volume :=
  (v.withUsed (v.used.clear bs)).put i fe

/-- Take block `b` and point index `k` of slot `i` at it. -/
def grant (i : ℕ) (k : Fin 9) (b : ℕ) : Volume :=
  (v.withUsed (v.used.take b)).put i ((v.entry i).point k (UInt32.ofNat b))

/-- What one operation can do to a volume. -/
inductive Move : Volume → Prop where
  | stay : Move v
  | create (i : ℕ) (fn : List UInt8) (now perms : UInt32) (hi : i < v.count)
      (hfree : ¬ (v.entry i).Named) : Move (v.put i (.fresh fn now perms))
  | remove (i : ℕ) (hi : v.Live i) : Move (v.release i (v.entry i).prefixPtrs .zero)
  | update (i : ℕ) (fe : SfsFileEntry) (n : ℕ) (hi : i < v.count)
      (hname : fe.name = (v.entry i).name) (hblocks : fe.blocks = (v.entry i).blocks) :
      Move (v.release i (fe.dropped n) (fe.keep n))
  | grant (i : ℕ) (k : Fin 9) (b : ℕ) (bs : List ℕ) (hi : v.Live i)
      (hk : (v.entry i).blocks k = 0) (hb : v.used.free v.start = b :: bs) : Move (v.grant i k b)

@[simp] theorem release_count (i bs fe) : (v.release i bs fe).count = v.count := rfl
@[simp] theorem release_start (i bs fe) : (v.release i bs fe).start = v.start := rfl
@[simp] theorem release_used (i bs fe) : (v.release i bs fe).used = v.used.clear bs := rfl
@[simp] theorem grant_count (i k b) : (v.grant i k b).count = v.count := rfl
@[simp] theorem grant_start (i k b) : (v.grant i k b).start = v.start := rfl
@[simp] theorem grant_used (i k b) : (v.grant i k b).used = v.used.take b := rfl

theorem release_entry (i j : ℕ) (bs : List UInt32) (fe : SfsFileEntry) :
    (v.release i bs fe).entry j = if j = i then fe else v.entry j :=
  (v.withUsed _).put_entry i j fe

theorem grant_entry (i j : ℕ) (k : Fin 9) (b : ℕ) : (v.grant i k b).entry j =
    if j = i then (v.entry i).point k (UInt32.ofNat b) else v.entry j :=
  (v.withUsed _).put_entry i j _

theorem point_blocks (fe : SfsFileEntry) (k j : Fin 9) (b : UInt32) :
    (fe.point k b).blocks j = if j = k then b else fe.blocks j := by
  simp [SfsFileEntry.point, Function.update_apply]

theorem keep_blocks (fe : SfsFileEntry) (n : ℕ) (k : Fin 9) :
    (fe.keep n).blocks k = if n ≤ k.val then 0 else fe.blocks k := rfl

@[simp] theorem point_named (fe : SfsFileEntry) (k : Fin 9) (b : UInt32) :
    (fe.point k b).Named ↔ fe.Named := Iff.rfl

@[simp] theorem keep_named (fe : SfsFileEntry) (n : ℕ) : (fe.keep n).Named ↔ fe.Named := Iff.rfl

variable {v}

theorem Move.count_eq {v' : Volume} (h : v.Move v') : v'.count = v.count := by cases h <;> rfl

theorem Move.start_eq {v' : Volume} (h : v.Move v') : v'.start = v.start := by cases h <;> rfl

theorem Move.size_eq {v' : Volume} (h : v.Move v') : v'.used.size = v.used.size := by
  cases h <;> simp

/-! ### Pointers before and after -/

theorem held_of_release {i : ℕ} {bs : List UInt32} {fe : SfsFileEntry} {p : ℕ × Fin 9} {b : ℕ}
    (hp : p.1 ≠ i) : (v.release i bs fe).Held p b ↔ v.Held p b := by
  rw [Held, Held, release_entry, if_neg hp]
  rfl

theorem held_release_self {i : ℕ} {bs : List UInt32} {fe : SfsFileEntry} {k : Fin 9} {b : ℕ} :
    (v.release i bs fe).Held (i, k) b ↔ i < v.count ∧ (fe.blocks k).toNat = b ∧ b ≠ 0 := by
  rw [Held, release_entry, if_pos rfl]
  rfl

theorem held_grant {i : ℕ} {k : Fin 9} {b c : ℕ} {p : ℕ × Fin 9} (hp : p ≠ (i, k)) :
    (v.grant i k b).Held p c ↔ v.Held p c := by
  obtain ⟨j, l⟩ := p
  rw [Held, Held, grant_entry]
  by_cases hj : j = i
  · subst hj
    have hl : l ≠ k := fun h => hp (by rw [h])
    simp [point_blocks, hl]
  · simp [hj]

theorem held_grant_self {i : ℕ} {k : Fin 9} {b c : ℕ} (hi : i < v.count) (hb : b < 2 ^ 32)
    (h0 : b ≠ 0) : (v.grant i k b).Held (i, k) c ↔ c = b := by
  rw [Held, grant_entry, if_pos rfl, point_blocks, if_pos rfl, UInt32.toNat_ofNat',
    Nat.mod_eq_of_lt hb]
  constructor
  · rintro ⟨_, rfl, _⟩
    rfl
  · rintro rfl
    exact ⟨hi, rfl, h0⟩

/-! ### Marks before and after -/

theorem mem_marked_clear {bs : List UInt32} {b : ℕ} (hs : v.used.size ≤ 2 ^ 31)
    (hbs : ∀ c ∈ bs, c.toNat < v.used.size) :
    b ∈ (v.withUsed (v.used.clear bs)).marked ↔ b ∈ v.marked ∧ b ∉ bs.map UInt32.toNat := by
  simp only [marked, Set.mem_ofPred_eq, withUsed_used,
    Buffer.clear_ok v.used bs hs hbs]
  by_cases hb : b ∈ bs.map UInt32.toNat
  · simp [hb]
  · simp [hb]

theorem mem_marked_take {b c : ℕ} (hb : b < v.used.size) :
    c ∈ (v.withUsed (v.used.take b)).marked ↔ c = b ∨ c ∈ v.marked := by
  simp only [marked, Set.mem_ofPred_eq, withUsed_used, Buffer.size_take, Buffer.cell_take]
  by_cases hc : c = b
  · subst hc
    simp [hb]
  · simp [hc]

theorem mem_marked_takes {t : Buffer} {bs : List ℕ} {b : ℕ} :
    b ∈ (v.withUsed (t.takes bs)).marked ↔ b < t.size ∧ (b ∈ bs ∨ t.cell b ≠ 0) := by
  unfold marked
  rw [Set.mem_ofPred_eq, withUsed_used, Buffer.size_takes, Buffer.cell_takes]
  by_cases hb : b ∈ bs
  · simp [hb]
  · simp [hb]

/-- The first free block is a data block that is not marked. -/
theorem free_head {b : ℕ} {bs : List ℕ} (h : v.used.free v.start = b :: bs) :
    v.start ≤ b ∧ b < v.used.size ∧ b ∉ v.marked := by
  have hb : b ∈ v.used.free v.start := by simp [h]
  obtain ⟨h1, h2, h3⟩ := (v.used.mem_free).mp hb
  exact ⟨h1, h2, fun hm => hm.2 h3⟩

/-! ### Ownership -/

namespace Owned

/-- Rewriting a slot with some of its own pointers, none of them freed, and
freeing only pointers of the slot. -/
theorem release (h : v.Owned) (hs : v.used.size ≤ 2 ^ 31) {i : ℕ} {bs : List UInt32}
    {fe : SfsFileEntry} (hbs : ∀ b ∈ bs, ∃ k, v.Held (i, k) b.toNat)
    (hsub : ∀ k, fe.blocks k ≠ 0 → fe.blocks k = (v.entry i).blocks k ∧ fe.blocks k ∉ bs)
    (hbare : ¬ fe.Named → ∀ k, fe.blocks k = 0) : (v.release i bs fe).Owned := by
  have hlt : ∀ b ∈ bs, b.toNat < v.used.size := by
    intro b hb
    obtain ⟨k, hk⟩ := hbs b hb
    exact h.lt_size hk
  have hheld : ∀ p b, (v.release i bs fe).Held p b → v.Held p b := by
    intro p b hp
    by_cases hpi : p.1 = i
    · obtain ⟨j, k⟩ := p
      obtain rfl : j = i := hpi
      obtain ⟨hi, hb, h0⟩ := held_release_self.mp hp
      have hne : fe.blocks k ≠ 0 := by
        intro hz
        rw [hz] at hb
        exact h0 hb.symm
      exact ⟨hi, by rw [← (hsub k hne).1]; exact hb, h0⟩
    · exact (held_of_release hpi).mp hp
  have hmark : ∀ p b, (v.release i bs fe).Held p b → b ∈ (v.release i bs fe).marked := by
    intro p b hp
    refine (mem_marked_clear hs hlt).mpr ⟨h.ledger.marked (hheld p b hp), ?_⟩
    intro hmem
    obtain ⟨c, hc, rfl⟩ := List.mem_map.mp hmem
    obtain ⟨k, hk⟩ := hbs c hc
    -- a freed block is held at slot `i` only, at an index that the rewrite gave up
    obtain rfl : p = (i, k) := h.ledger.inj (hheld p _ hp) hk
    obtain ⟨_, hb, h0⟩ := held_release_self.mp hp
    have hck : fe.blocks k = c := UInt32.toNat_inj.mp hb
    have hne : fe.blocks k ≠ 0 := by
      rintro hz
      rw [hz] at hb
      exact h0 hb.symm
    exact (hsub k hne).2 (hck ▸ hc)
  refine ⟨h.ledger.shrink hheld hmark, fun hp => h.data (hheld _ _ hp), ?_⟩
  intro j hj hn k
  rw [release_entry] at hn ⊢
  by_cases hji : j = i
  · simp only [if_pos hji] at hn ⊢
    exact hbare hn k
  · simp only [if_neg hji] at hn ⊢
    exact h.bare j hj hn k

/-- Granting the first free block to a live slot. -/
theorem grant (h : v.Owned) (hs : v.used.size ≤ 2 ^ 31) {i : ℕ} {k : Fin 9} {b : ℕ}
    {bs : List ℕ} (hi : v.Live i) (hb : v.used.free v.start = b :: bs) :
    (v.grant i k b).Owned := by
  obtain ⟨hlo, hlt, hfree⟩ := free_head hb
  have hself : ∀ c, (v.grant i k b).Held (i, k) c → c = b := by
    rintro c ⟨_, hc, _⟩
    rw [grant_entry, if_pos rfl, point_blocks, if_pos rfl, UInt32.toNat_ofNat',
      Nat.mod_eq_of_lt (by omega)] at hc
    exact hc.symm
  have hkeep : ∀ p c, p ≠ (i, k) → (v.grant i k b).Held p c → v.Held p c :=
    fun p c hp hc => (held_grant hp).mp hc
  refine ⟨h.ledger.grant hfree hself hkeep fun c hc => (mem_marked_take hlt).mpr hc, ?_, ?_⟩
  · intro p c hp
    by_cases hpi : p = (i, k)
    · subst hpi
      rw [hself c hp]
      exact hlo
    · exact h.data (hkeep p c hpi hp)
  · intro j hj hn l
    rw [grant_entry] at hn ⊢
    by_cases hji : j = i
    · rw [if_pos hji] at hn
      exact absurd hi.2 hn
    · rw [if_neg hji] at hn ⊢
      exact h.bare j hj hn l

/-- Every move keeps ownership. -/
theorem move (h : v.Owned) (hs : v.used.size ≤ 2 ^ 31) {v' : Volume} (hm : v.Move v') :
    v'.Owned := by
  cases hm with
  | stay => exact h
  | create i fn now perms hi hfree =>
    have hz : ∀ k, (SfsFileEntry.fresh fn now perms).blocks k = 0 := fun _ => rfl
    have hr : (v.release i [] (.fresh fn now perms)).Owned :=
      h.release hs (by simp) (fun k hk => absurd (hz k) hk) fun _ => hz
    exact hr
  | remove i hi =>
    have hz : ∀ k, SfsFileEntry.zero.blocks k = 0 := fun _ => rfl
    exact h.release hs (fun b hb => held_of_mem_prefixPtrs hi.1 hb)
      (fun k hk => absurd (hz k) hk) fun _ => hz
  | update i fe n hi hname hblocks =>
    refine h.release hs ?_ ?_ ?_
    · intro b hb
      obtain ⟨h0, k, _, rfl⟩ := SfsFileEntry.mem_dropped.mp hb
      rw [hblocks] at h0 ⊢
      exact ⟨k, held_of_ne hi h0⟩
    · intro k hk
      rw [keep_blocks] at hk ⊢
      split_ifs at hk ⊢ with hn
      · exact absurd rfl hk
      · refine ⟨by rw [hblocks], ?_⟩
        intro hd
        -- a pointer kept and dropped would be held at two indices
        obtain ⟨_, j, hj, hjk⟩ := SfsFileEntry.mem_dropped.mp hd
        rw [hblocks] at hk hjk
        have hkj : (i, j) = (i, k) := by
          refine h.ledger.inj (held_of_ne hi (hjk ▸ hk)) ?_
          rw [hjk]
          exact held_of_ne hi hk
        simp only [Prod.mk.injEq, true_and] at hkj
        omega
    · intro hn k
      have hfree : ¬ (v.entry i).Named := by
        rw [SfsFileEntry.Named, ← hname]
        exact hn
      rw [keep_blocks, hblocks, h.bare i hi hfree k, ite_self]
  | grant i k b bs hi hk hb => exact h.grant hs hi hb

end Owned

/-! ### Prefixes and exact marks -/

/-- Where the pointers of an entry form a prefix, the loop that stops at a zero
pointer sees them all. -/
theorem Packed.mem_prefixPtrs (h : v.Packed) {i : ℕ} (hi : i < v.count) {b : UInt32} :
    b ∈ (v.entry i).prefixPtrs ↔ b ≠ 0 ∧ ∃ k, (v.entry i).blocks k = b := by
  rw [mem_prefixPtrs_iff]
  constructor
  · rintro ⟨k, rfl, hall⟩
    exact ⟨hall k (Nat.le_refl k), k, rfl⟩
  · rintro ⟨h0, k, rfl⟩
    refine ⟨k, rfl, fun j hj => ?_⟩
    rcases Nat.lt_or_eq_of_le hj with hlt | heq
    · exact h i hi k h0 j hlt
    · rw [Fin.ext heq]
      exact h0

/-- The freeing loop frees the blocks that the slot holds. -/
theorem Packed.mem_map_prefixPtrs (h : v.Packed) {i : ℕ} (hi : i < v.count) {b : ℕ} :
    b ∈ (v.entry i).prefixPtrs.map UInt32.toNat ↔ ∃ k, v.Held (i, k) b := by
  constructor
  · intro hb
    obtain ⟨c, hc, rfl⟩ := List.mem_map.mp hb
    exact held_of_mem_prefixPtrs hi hc
  · rintro ⟨k, hk⟩
    have h0 : (v.entry i).blocks k ≠ 0 := (held_iff_blocks hi).mp ⟨b, hk⟩
    exact List.mem_map.mpr ⟨_, (h.mem_prefixPtrs hi).mpr ⟨h0, k, rfl⟩, hk.2.1⟩

/-- A move that sets no pointer behind a zero one keeps the pointers packed. -/
theorem Packed.move (h : v.Packed) {v' : Volume} (hm : v.Move v')
    (hgap : ∀ i k, (v.entry i).blocks k = 0 → (v'.entry i).blocks k ≠ 0 →
      ∀ j < k, (v.entry i).blocks j ≠ 0) : v'.Packed := by
  intro i hi k hk j hj
  have hc : i < v.count := by rwa [hm.count_eq] at hi
  have hold : ∀ l < k, (v.entry i).blocks l ≠ 0 := by
    by_cases hz : (v.entry i).blocks k = 0
    · exact hgap i k hz hk
    · exact h i hc k hz
  have hne := hold j hj
  cases hm with
  | stay => exact hne
  | create s fn now perms hs hfree =>
    rw [put_entry] at hk ⊢
    split_ifs at hk ⊢ with his
    · exact absurd rfl hk
    · exact hne
  | remove s hs =>
    rw [release_entry] at hk ⊢
    split_ifs at hk ⊢ with his
    · exact absurd rfl hk
    · exact hne
  | update s fe n hs hname hblocks =>
    rw [release_entry] at hk ⊢
    split_ifs at hk ⊢ with his
    · subst his
      rw [keep_blocks, hblocks] at hk ⊢
      by_cases hn : n ≤ k.val
      · rw [if_pos hn] at hk
        exact absurd rfl hk
      · have hlt : j.val < k.val := hj
        rw [if_neg (by omega)]
        exact hne
    · exact hne
  | grant s l b bs hs hl hb =>
    rw [grant_entry]
    split_ifs with his
    · subst his
      have hjl : j ≠ l := by
        rintro rfl
        exact hne hl
      rw [point_blocks, if_neg hjl]
      exact hne
    · exact hne

namespace Exact

/-- Freeing exactly the pointers that a rewrite gives up. -/
theorem release (h : v.Exact) (ho : v.Owned) (hs : v.used.size ≤ 2 ^ 31) {i : ℕ}
    {bs : List UInt32} {fe : SfsFileEntry}
    (hbs : ∀ b, b ∈ bs ↔ b ≠ 0 ∧ ∃ k, (v.entry i).blocks k = b ∧ fe.blocks k = 0)
    (hsub : ∀ k, fe.blocks k ≠ 0 → fe.blocks k = (v.entry i).blocks k) (hi : i < v.count) :
    (v.release i bs fe).Exact := by
  have hfreed : ∀ b, b ∈ bs.map UInt32.toNat ↔
      ∃ p ∈ {p : ℕ × Fin 9 | p.1 = i ∧ fe.blocks p.2 = 0}, v.Held p b := by
    intro b
    simp only [List.mem_map, hbs, Set.mem_ofPred_eq, Prod.exists]
    constructor
    · rintro ⟨c, ⟨h0, k, rfl, hz⟩, rfl⟩
      exact ⟨i, k, ⟨rfl, hz⟩, held_of_ne hi h0⟩
    · rintro ⟨j, k, ⟨rfl, hz⟩, _, hb, h0⟩
      exact ⟨_, ⟨fun he => h0 (by rw [← hb, he]; rfl), k, rfl, hz⟩, hb⟩
  have hlt : ∀ c ∈ bs, c.toNat < v.used.size := by
    intro c hc
    obtain ⟨p, _, hp⟩ := (hfreed c.toNat).mp (List.mem_map_of_mem hc)
    exact ho.lt_size hp
  constructor
  · refine h.tight.release ho.ledger {p | p.1 = i ∧ fe.blocks p.2 = 0} ?_ ?_ ?_
    · intro p b hp hb
      exact absurd (ho.data hp) (Nat.not_le.mpr hb)
    · rintro ⟨j, k⟩ b
      by_cases hj : j = i
      · subst hj
        rw [held_release_self]
        simp only [Set.mem_ofPred_eq, true_and]
        constructor
        · rintro ⟨hc, hb, h0⟩
          have hne : fe.blocks k ≠ 0 := fun hz => h0 (by rw [← hb, hz]; rfl)
          exact ⟨hne, hc, hsub k hne ▸ hb, h0⟩
        · rintro ⟨hne, hc, hb, h0⟩
          exact ⟨hc, (hsub k hne).symm ▸ hb, h0⟩
      · rw [held_of_release hj]
        simp [hj]
    · intro b
      rw [← hfreed]
      exact mem_marked_clear hs hlt
  · intro b
    rw [release_used, Buffer.clear_ok v.used bs hs hlt]
    by_cases hb : b ∈ bs.map UInt32.toNat
    · simp [hb]
    · simpa [hb] using h.bit b

theorem grant (h : v.Exact) (hs : v.used.size ≤ 2 ^ 31) (h0 : 0 < v.start) {i : ℕ} {k : Fin 9}
    {b : ℕ} {bs : List ℕ} (hi : i < v.count) (hk : (v.entry i).blocks k = 0)
    (hb : v.used.free v.start = b :: bs) : (v.grant i k b).Exact := by
  obtain ⟨hlo, hlt, _⟩ := free_head hb
  have hself : ∀ c, (v.grant i k b).Held (i, k) c ↔ c = b :=
    fun c => held_grant_self hi (by omega) (by omega)
  constructor
  · refine h.tight.grant (i := (i, k)) (b := b) ((hself b).mpr rfl) ?_ ?_ ?_ ?_
    · intro c hc
      exact (held_iff_blocks hi).mp ⟨c, hc⟩ hk
    · exact fun p c hp => held_grant hp
    · exact fun c hc => (hself c).mp hc
    · exact fun c => mem_marked_take hlt
  · intro c
    rw [grant_used, Buffer.cell_take, Buffer.size_take]
    split_ifs with hc
    · exact fun _ _ => rfl
    · exact h.bit c

/-- Every move keeps the marks exact as long as the pointers are packed. -/
theorem move (h : v.Exact) (ho : v.Owned) (hp : v.Packed) (hs : v.used.size ≤ 2 ^ 31)
    (h0 : 0 < v.start) {v' : Volume} (hm : v.Move v') : v'.Exact := by
  cases hm with
  | stay => exact h
  | create i fn now perms hi hfree =>
    have hz : ∀ k, (SfsFileEntry.fresh fn now perms).blocks k = 0 := fun _ => rfl
    have hb := ho.bare i hi hfree
    have hr : (v.release i [] (.fresh fn now perms)).Exact := by
      refine h.release ho hs (fun b => ?_) (fun k hk => absurd (hz k) hk) hi
      simp only [List.not_mem_nil, hb, hz, and_true, false_iff, not_and, not_exists]
      exact fun h0 _ he => h0 he.symm
    exact hr
  | remove i hi =>
    have hz : ∀ k, SfsFileEntry.zero.blocks k = 0 := fun _ => rfl
    refine h.release ho hs (fun b => ?_) (fun k hk => absurd (hz k) hk) hi.1
    simp [hp.mem_prefixPtrs hi.1, hz]
  | update i fe n hi hname hblocks =>
    refine h.release ho hs (fun b => ?_) (fun k hk => ?_) hi
    · rw [SfsFileEntry.mem_dropped, ← hblocks]
      refine and_congr_right fun hne => exists_congr fun k => ?_
      rw [keep_blocks]
      constructor
      · rintro ⟨hn, hb⟩
        exact ⟨hb, if_pos hn⟩
      · rintro ⟨hb, hz⟩
        refine ⟨by_contra fun hn => hne ?_, hb⟩
        rw [if_neg hn, hb] at hz
        exact hz
    · rw [keep_blocks] at hk ⊢
      split_ifs at hk ⊢ with hn
      · exact absurd rfl hk
      · rw [hblocks]
  | grant i k b bs hi hk hb => exact h.grant hs h0 hi.1 hk hb

end Exact

/-! ### Rewriting a slot -/

/-- A volume whose pointers are packed and whose marks are exact. -/
structure Settled (v : Volume) : Prop where
  owned : v.Owned
  packed : v.Packed
  exact : v.Exact

/-- Any rewrite of slot `i` that unmarks what it held and marks what it holds now. -/
theorem Settled.rewrite (h : v.Settled) {v' : Volume} {i : ℕ} (hcount : v'.count = v.count)
    (hstart : v'.start = v.start) (hent : ∀ j < v.count, j ≠ i → v'.entry j = v.entry j)
    (hbare : ¬ (v'.entry i).Named → ∀ k, (v'.entry i).blocks k = 0)
    (hpack : ∀ k, (v'.entry i).blocks k ≠ 0 → ∀ j < k, (v'.entry i).blocks j ≠ 0)
    (hself : ∀ k b, v'.Held (i, k) b → v.start ≤ b ∧ ∀ p, p.1 ≠ i → ¬ v.Held p b)
    (hinj : ∀ k l b, v'.Held (i, k) b → v'.Held (i, l) b → k = l)
    (hmark : ∀ b, b ∈ v'.marked ↔
      (∃ k, v'.Held (i, k) b) ∨ b ∈ v.marked ∧ ¬ ∃ k, v.Held (i, k) b)
    (hbit : ∀ b, v'.used.cell b ≠ 0 → b < v'.used.size → v'.used.cell b = 1) : v'.Settled := by
  have hkeep : ∀ (p : ℕ × Fin 9) (b : ℕ), p.1 ≠ i → (v'.Held p b ↔ v.Held p b) := by
    intro p b hp
    unfold Held
    rw [hcount]
    refine and_congr_right fun hlt => ?_
    rw [hent p.1 hlt hp]
  have hslot : ∀ (w : Volume) (b : ℕ),
      (∃ p ∈ {p : ℕ × Fin 9 | p.1 = i}, w.Held p b) ↔ ∃ k, w.Held (i, k) b := by
    intro w b
    constructor
    · rintro ⟨⟨j, k⟩, rfl, hp⟩
      exact ⟨k, hp⟩
    · rintro ⟨k, hk⟩
      exact ⟨(i, k), rfl, hk⟩
  have hout : ∀ (p : ℕ × Fin 9) (b : ℕ), p ∉ {p : ℕ × Fin 9 | p.1 = i} → v.Held p b →
      ¬ ∃ q ∈ {p : ℕ × Fin 9 | p.1 = i}, v.Held q b :=
    fun p b hp hb => h.owned.ledger.not_released hp hb
  refine ⟨⟨?_, ?_, ?_⟩, ?_, ?_, hbit⟩
  · apply h.owned.ledger.rewrite {p | p.1 = i}
    · exact fun p b hp hb => (hkeep p b hp).mp hb
    · rintro ⟨j, k⟩ b rfl hb p hp
      exact (hself k b hb).2 p hp
    · rintro ⟨_, k⟩ ⟨_, l⟩ b rfl rfl hk hl
      exact congrArg (Prod.mk _) (hinj k l b hk hl)
    · intro p b hb
      by_cases hp : p.1 = i
      · obtain ⟨j, k⟩ := p
        obtain rfl : j = i := hp
        exact (hmark b).mpr (Or.inl ⟨k, hb⟩)
      · have hold := (hkeep p b hp).mp hb
        exact (hmark b).mpr
          (Or.inr ⟨h.owned.ledger.marked hold, fun hk => hout p b hp hold ((hslot v b).mpr hk)⟩)
  · rintro ⟨j, k⟩ b hb
    rw [hstart]
    by_cases hj : j = i
    · subst hj
      exact (hself k b hb).1
    · exact h.owned.data ((hkeep (j, k) b hj).mp hb)
  · intro j hj hn k
    rw [hcount] at hj
    by_cases hji : j = i
    · subst hji
      exact hbare hn k
    · rw [hent j hj hji] at hn ⊢
      exact h.owned.bare j hj hn k
  · intro j hj k hk l hl
    rw [hcount] at hj
    by_cases hji : j = i
    · subst hji
      exact hpack k hk l hl
    · rw [hent j hj hji] at hk ⊢
      exact h.packed j hj k hk l hl
  · rw [hstart]
    apply h.exact.tight.rewrite {p | p.1 = i}
    · exact fun p b _ hp hb => Nat.not_lt.mpr (h.owned.data hp) hb
    · exact hout
    · exact fun p b hp => hkeep p b hp
    · intro b
      rw [hmark, hslot, hslot]

end Linuxpedia.Sfs.Volume
