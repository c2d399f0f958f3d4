import Mathlib.Data.Set.Basic

/-! Ownership of blocks. Positions hold blocks and a set of blocks is marked used.
A ledger is sound when no block is held at two positions and every held block is
marked; it is tight over a base when nothing else is marked. Every change of a
ledger rewrites a set of positions: the positions outside keep what they hold,
the rewritten ones hold blocks that nobody outside holds. -/

namespace Linuxpedia.Lib

variable {ι β : Type*}

/-- No block is held twice and every held block is marked. -/
structure Ledger (held : ι → β → Prop) (used : Set β) : Prop where
  inj : ∀ {i j b}, held i b → held j b → i = j
  marked : ∀ {i b}, held i b → b ∈ used

namespace Ledger

variable {held held' : ι → β → Prop} {used used' : Set β}

/-- A block held outside a set of positions is none of those held inside it, so
releasing the latter does not free it. -/
theorem not_released (h : Ledger held used) {S : Set ι} {i : ι} {b : β} (hi : i ∉ S)
    (hb : held i b) : ¬ ∃ j ∈ S, held j b := by
  rintro ⟨j, hj, hjb⟩
  exact hi (h.inj hb hjb ▸ hj)

/-- An unmarked block is held nowhere. -/
theorem not_held (h : Ledger held used) {b : β} (hb : b ∉ used) (i : ι) : ¬ held i b :=
  fun hi => hb (h.marked hi)

/-- Rewriting the positions of `S`. -/
theorem rewrite (h : Ledger held used) (S : Set ι)
    (hkeep : ∀ i b, i ∉ S → held' i b → held i b)
    (hfresh : ∀ i b, i ∈ S → held' i b → ∀ j, j ∉ S → ¬ held j b)
    (hinj : ∀ i j b, i ∈ S → j ∈ S → held' i b → held' j b → i = j)
    (hmark : ∀ i b, held' i b → b ∈ used') : Ledger held' used' where
  inj := by
    intro i j b hi hj
    by_cases hiS : i ∈ S <;> by_cases hjS : j ∈ S
    · exact hinj i j b hiS hjS hi hj
    · exact absurd (hkeep j b hjS hj) (hfresh i b hiS hi j hjS)
    · exact absurd (hkeep i b hiS hi) (hfresh j b hjS hj i hiS)
    · exact h.inj (hkeep i b hiS hi) (hkeep j b hjS hj)
  marked := hmark _ _

/-- Positions may be given up as long as what is still held stays marked. -/
theorem shrink (h : Ledger held used) (hsub : ∀ i b, held' i b → held i b)
    (hmark : ∀ i b, held' i b → b ∈ used') : Ledger held' used' :=
  h.rewrite ∅ (fun i b _ => hsub i b) (fun i _ hi => absurd hi (Set.notMem_empty i))
    (fun i _ _ hi => absurd hi (Set.notMem_empty i)) hmark

/-- One position is granted an unmarked block. -/
theorem grant (h : Ledger held used) {i : ι} {b : β} (hb : b ∉ used)
    (hself : ∀ c, held' i c → c = b) (hkeep : ∀ j c, j ≠ i → held' j c → held j c)
    (hmark : ∀ c, c = b ∨ c ∈ used → c ∈ used') : Ledger held' used' := by
  refine h.rewrite {i} (fun j c hj hc => hkeep j c hj hc) ?_ ?_ ?_
  · rintro j c rfl hc k _ hk
    exact h.not_held hb k (hself c hc ▸ hk)
  · rintro j k c rfl rfl _ _
    rfl
  · intro j c hc
    by_cases hj : j = i
    · subst hj
      exact hmark c (Or.inl (hself c hc))
    · exact hmark c (Or.inr (h.marked (hkeep j c hj hc)))

end Ledger

/-- Exactly the base and the held blocks are marked. -/
def Tight (base : Set β) (held : ι → β → Prop) (used : Set β) : Prop :=
  ∀ b, b ∈ used ↔ b ∈ base ∨ ∃ i, held i b

namespace Tight

variable {base : Set β} {held held' : ι → β → Prop} {used used' : Set β}

/-- Rewriting the positions of `S`: what they held is unmarked and what they hold now
is marked. -/
theorem rewrite (h : Tight base held used) (S : Set ι)
    (hbase : ∀ i b, i ∈ S → held i b → b ∉ base)
    (hout : ∀ i b, i ∉ S → held i b → ¬ ∃ j ∈ S, held j b)
    (hkeep : ∀ i b, i ∉ S → (held' i b ↔ held i b))
    (hmark : ∀ b, b ∈ used' ↔ (∃ i ∈ S, held' i b) ∨ b ∈ used ∧ ¬ ∃ i ∈ S, held i b) :
    Tight base held' used' := by
  intro b
  rw [hmark, h]
  constructor
  · rintro (⟨i, _, hi⟩ | ⟨hb | ⟨i, hi⟩, hS⟩)
    · exact Or.inr ⟨i, hi⟩
    · exact Or.inl hb
    · by_cases hiS : i ∈ S
      · exact absurd ⟨i, hiS, hi⟩ hS
      · exact Or.inr ⟨i, (hkeep i b hiS).mpr hi⟩
  · rintro (hb | ⟨i, hi⟩)
    · exact Or.inr ⟨Or.inl hb, fun ⟨j, hj, hjb⟩ => hbase j b hj hjb hb⟩
    · by_cases hiS : i ∈ S
      · exact Or.inl ⟨i, hiS, hi⟩
      · have hold := (hkeep i b hiS).mp hi
        exact Or.inr ⟨Or.inr ⟨i, hold⟩, hout i b hiS hold⟩

/-- Granting a block to an empty position and marking it. -/
theorem grant (h : Tight base held used) {i : ι} {b : β} (hself : held' i b)
    (hempty : ∀ c, ¬ held i c) (hkeep : ∀ j c, j ≠ i → (held' j c ↔ held j c))
    (hi : ∀ c, held' i c → c = b) (hmark : ∀ c, c ∈ used' ↔ c = b ∨ c ∈ used) :
    Tight base held' used' := by
  have hnone : ∀ c, ¬ ∃ j ∈ ({i} : Set ι), held j c := by
    rintro c ⟨j, rfl, hj⟩
    exact hempty c hj
  apply h.rewrite {i}
  · rintro j c rfl hc
    exact absurd hc (hempty c)
  · exact fun _ c _ _ => hnone c
  · exact fun j c hj => hkeep j c hj
  · intro c
    rw [hmark, and_iff_left (hnone c)]
    refine or_congr_left ⟨?_, ?_⟩
    · rintro rfl
      exact ⟨i, rfl, hself⟩
    · rintro ⟨j, rfl, hj⟩
      exact hi c hj

/-- Emptying the positions of `S` and unmarking exactly what they held. -/
theorem release (h : Tight base held used) (hl : Ledger held used) (S : Set ι)
    (hbase : ∀ i b, held i b → b ∉ base) (hdrop : ∀ i b, held' i b ↔ i ∉ S ∧ held i b)
    (hmark : ∀ b, b ∈ used' ↔ b ∈ used ∧ ¬ ∃ i ∈ S, held i b) : Tight base held' used' := by
  apply h.rewrite S
  · exact fun i b _ => hbase i b
  · exact fun i b hi => hl.not_released hi
  · exact fun i b hi => (hdrop i b).trans (and_iff_right hi)
  · intro b
    have hnone : ¬ ∃ i ∈ S, held' i b := by
      rintro ⟨i, hi, hb⟩
      exact ((hdrop i b).mp hb).1 hi
    rw [hmark, or_iff_right hnone]

end Tight

end Linuxpedia.Lib
