import Mathlib.Data.Set.Card

/-! Tables of slots as finite maps. A table of `n` slots, each empty or holding a
key and a value, represents a partial map when no key occurs twice. Filling an
empty slot with a new key, rewriting a slot under its key and emptying a slot are
the three updates of the map, and the table has room exactly while the map has
fewer than `n` keys. -/

namespace Linuxpedia.Lib.SlotMap

variable {α β : Type*} {n : ℕ} {slot : ℕ → Option (α × β)} {d : α → Option β}

/-- No key occurs in two slots. -/
def Distinct (n : ℕ) (slot : ℕ → Option (α × β)) : Prop :=
  ∀ i < n, ∀ j < n, ∀ a b c, slot i = some (a, b) → slot j = some (a, c) → i = j

/-- The table holds exactly the keys and values of the map. -/
def Represents (n : ℕ) (slot : ℕ → Option (α × β)) (d : α → Option β) : Prop :=
  ∀ a b, d a = some b ↔ ∃ i < n, slot i = some (a, b)

/-- The keys of a map. -/
def keys (d : α → Option β) : Set α := {a | d a ≠ none}

theorem mem_keys {a : α} : a ∈ keys d ↔ d a ≠ none := Iff.rfl

theorem Represents.eq_none (h : Represents n slot d) {a : α} :
    d a = none ↔ ∀ i < n, ∀ b, slot i ≠ some (a, b) := by
  constructor
  · intro ha i hi b hb
    have hs := (h a b).mpr ⟨i, hi, hb⟩
    rw [ha] at hs
    cases hs
  · intro hno
    cases hd : d a with
    | none => rfl
    | some b =>
      obtain ⟨i, hi, hb⟩ := (h a b).mp hd
      exact absurd hb (hno i hi b)

theorem Represents.mem_keys (h : Represents n slot d) {a : α} :
    a ∈ keys d ↔ ∃ i < n, ∃ b, slot i = some (a, b) := by
  rw [SlotMap.mem_keys, Ne, h.eq_none]
  push Not
  rfl

section Update

variable [DecidableEq α] {i : ℕ} {a : α} {b : β}

/-- What slot `i` holds after the write is new or was there under the same key. -/
theorem Represents.put (h : Represents n slot d) (hd : Distinct n slot) (hi : i < n)
    (hold : ∀ a' c, slot i = some (a', c) → a' = a)
    (hnew : ∀ j < n, ∀ c, slot j = some (a, c) → j = i) :
    Represents n (Function.update slot i (some (a, b))) (Function.update d a (some b)) ∧
      Distinct n (Function.update slot i (some (a, b))) := by
  constructor
  · intro a' c
    by_cases ha : a' = a
    · subst ha
      rw [Function.update_self]
      constructor
      · intro hc
        obtain rfl := Option.some.inj hc
        exact ⟨i, hi, by rw [Function.update_self]⟩
      · rintro ⟨j, hj, hjc⟩
        by_cases hji : j = i
        · subst hji
          rw [Function.update_self] at hjc
          rw [(Prod.mk.inj (Option.some.inj hjc)).2]
        · rw [Function.update_of_ne hji] at hjc
          exact absurd (hnew j hj c hjc) hji
    · rw [Function.update_of_ne ha, h]
      refine exists_congr fun j => and_congr_right fun _ => ?_
      by_cases hji : j = i
      · subst hji
        rw [Function.update_self]
        constructor
        · exact fun hc => absurd (hold a' c hc) ha
        · exact fun hc => absurd (Prod.mk.inj (Option.some.inj hc)).1.symm ha
      · rw [Function.update_of_ne hji]
  · intro j hj l hl a' c e hc he
    by_cases hji : j = i <;> by_cases hli : l = i
    · exact hji.trans hli.symm
    · rw [hji, Function.update_self] at hc
      rw [Function.update_of_ne hli] at he
      obtain ⟨rfl, _⟩ := Prod.mk.inj (Option.some.inj hc)
      exact absurd (hnew l hl e he) hli
    · rw [hli, Function.update_self] at he
      rw [Function.update_of_ne hji] at hc
      obtain ⟨rfl, _⟩ := Prod.mk.inj (Option.some.inj he)
      exact absurd (hnew j hj c hc) hji
    · rw [Function.update_of_ne hji] at hc
      rw [Function.update_of_ne hli] at he
      exact hd j hj l hl a' c e hc he

/-- Filling an empty slot with a key that the map has not. -/
theorem Represents.insert (h : Represents n slot d) (hd : Distinct n slot) (hi : i < n)
    (hempty : slot i = none) (ha : d a = none) :
    Represents n (Function.update slot i (some (a, b))) (Function.update d a (some b)) ∧
      Distinct n (Function.update slot i (some (a, b))) := by
  refine h.put hd hi ?_ ?_
  · intro a' c hc
    rw [hempty] at hc
    cases hc
  · exact fun j hj c hc => absurd hc (h.eq_none.mp ha j hj c)

/-- Rewriting the value of a slot. -/
theorem Represents.rewrite (h : Represents n slot d) (hd : Distinct n slot) (hi : i < n) {c : β}
    (hc : slot i = some (a, c)) :
    Represents n (Function.update slot i (some (a, b))) (Function.update d a (some b)) ∧
      Distinct n (Function.update slot i (some (a, b))) := by
  refine h.put hd hi ?_ fun j hj e he => hd j hj i hi a e c he hc
  intro a' e he
  rw [hc] at he
  exact (Prod.mk.inj (Option.some.inj he)).1.symm

/-- Emptying a slot removes its key and no other. -/
theorem Represents.erase (h : Represents n slot d) (hd : Distinct n slot) (hi : i < n)
    (hb : slot i = some (a, b)) :
    Represents n (Function.update slot i none) (Function.update d a none) ∧
      Distinct n (Function.update slot i none) := by
  constructor
  · intro a' c
    by_cases ha : a' = a
    · subst ha
      rw [Function.update_self]
      refine iff_of_false (by simp) ?_
      rintro ⟨j, hj, hjc⟩
      by_cases hji : j = i
      · rw [hji, Function.update_self] at hjc
        cases hjc
      · rw [Function.update_of_ne hji] at hjc
        exact hji (hd j hj i hi a' c b hjc hb)
    · rw [Function.update_of_ne ha, h]
      refine exists_congr fun j => and_congr_right fun _ => ?_
      by_cases hji : j = i
      · subst hji
        rw [Function.update_self, hb]
        constructor
        · exact fun hc => absurd (Prod.mk.inj (Option.some.inj hc)).1.symm ha
        · exact fun hc => absurd hc (by simp)
      · rw [Function.update_of_ne hji]
  · intro j hj l hl a' c e hc he
    have hji : j ≠ i := by
      rintro rfl
      rw [Function.update_self] at hc
      cases hc
    have hli : l ≠ i := by
      rintro rfl
      rw [Function.update_self] at he
      cases he
    rw [Function.update_of_ne hji] at hc
    rw [Function.update_of_ne hli] at he
    exact hd j hj l hl a' c e hc he

end Update

/-- The number of keys is the number of slots in use. -/
theorem Represents.ncard_keys (h : Represents n slot d) (hd : Distinct n slot) :
    (keys d).ncard = ((Finset.range n).filter fun i => slot i ≠ none).card := by
  rw [← Set.ncard_coe_finset]
  symm
  have hsome : ∀ i ∈ (((Finset.range n).filter fun i => slot i ≠ none : Finset ℕ) : Set ℕ),
      i < n ∧ (slot i).isSome := by
    intro i hi
    obtain ⟨hr, hne⟩ := Finset.mem_filter.mp (Finset.mem_coe.mp hi)
    exact ⟨Finset.mem_range.mp hr, Option.isSome_iff_ne_none.mpr hne⟩
  refine Set.ncard_congr (fun i hi => ((slot i).get (hsome i hi).2).1) ?_ ?_ ?_
  · intro i hi
    exact h.mem_keys.mpr ⟨i, (hsome i hi).1, _, (Option.some_get (hsome i hi).2).symm⟩
  · intro i j hi hj he
    obtain ⟨⟨a, b⟩, hb⟩ := Option.isSome_iff_exists.mp (hsome i hi).2
    obtain ⟨⟨a', c⟩, hc⟩ := Option.isSome_iff_exists.mp (hsome j hj).2
    simp only [hb, hc, Option.get_some] at he
    subst he
    exact hd i (hsome i hi).1 j (hsome j hj).1 a b c hb hc
  · intro a ha
    obtain ⟨i, hi, b, hb⟩ := h.mem_keys.mp ha
    have hmem : i ∈ (((Finset.range n).filter fun i => slot i ≠ none : Finset ℕ) : Set ℕ) := by
      simp [hi, hb]
    exact ⟨i, hmem, by simp [hb]⟩

/-- There is an empty slot exactly while the map has fewer keys than the table has
slots. -/
theorem Represents.ncard_lt_iff (h : Represents n slot d) (hd : Distinct n slot) :
    (keys d).ncard < n ↔ ∃ i < n, slot i = none := by
  rw [h.ncard_keys hd]
  constructor
  · intro hlt
    by_contra hno
    have hall : (Finset.range n).filter (fun i => slot i ≠ none) = Finset.range n := by
      refine Finset.filter_true_of_mem fun i hi hne => ?_
      exact hno ⟨i, Finset.mem_range.mp hi, hne⟩
    rw [hall, Finset.card_range] at hlt
    exact Nat.lt_irrefl n hlt
  · rintro ⟨i, hi, hnone⟩
    have hss : (Finset.range n).filter (fun i => slot i ≠ none) ⊂ Finset.range n := by
      refine Finset.filter_ssubset.mpr ⟨i, Finset.mem_range.mpr hi, ?_⟩
      simp [hnone]
    simpa using Finset.card_lt_card hss

end Linuxpedia.Lib.SlotMap
