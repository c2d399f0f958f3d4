import Linuxpedia.Sfs.Layout
import Linuxpedia.Lib.Buffer
import Linuxpedia.Lib.Ledger

/-! What a mounted image means, whoever works on it: the slots of the entry table
and the allocation table kept in memory. The driver and the browsing shells are
shown to act on it by a few operations: write a slot, free a list of blocks, take
the first free block, scan the table. The invariants live here. -/

namespace Linuxpedia.Sfs

open Lib

/-- Slots `0 .. count-1`, data blocks `start .. used.size-1`. -/
structure Volume where
  count : ℕ
  start : ℕ
  entry : ℕ → SfsFileEntry
  used : Buffer

namespace Volume

variable (v : Volume)

/-- Write slot `i`. -/
def put (i : ℕ) (fe : SfsFileEntry) : Volume := { v with entry := Function.update v.entry i fe }

/-- Replace the allocation table. -/
def withUsed (t : Buffer) : Volume := { v with used := t }

@[simp] theorem put_count (i fe) : (v.put i fe).count = v.count := rfl
@[simp] theorem put_start (i fe) : (v.put i fe).start = v.start := rfl
@[simp] theorem put_used (i fe) : (v.put i fe).used = v.used := rfl
@[simp] theorem withUsed_count (t) : (v.withUsed t).count = v.count := rfl
@[simp] theorem withUsed_start (t) : (v.withUsed t).start = v.start := rfl
@[simp] theorem withUsed_entry (t) : (v.withUsed t).entry = v.entry := rfl
@[simp] theorem withUsed_used (t) : (v.withUsed t).used = t := rfl

theorem put_entry (i j : ℕ) (fe : SfsFileEntry) :
    (v.put i fe).entry j = if j = i then fe else v.entry j := by
  simp [put, Function.update_apply]

@[simp] theorem put_entry_self (i : ℕ) (fe : SfsFileEntry) : (v.put i fe).entry i = fe := by
  simp [put_entry]

theorem put_entry_of_ne {i j : ℕ} (fe : SfsFileEntry) (h : j ≠ i) :
    (v.put i fe).entry j = v.entry j := by
  simp [put_entry, h]

/-! ### Scans of the entry table -/

/-- The first slot with property `p`. -/
def first (p : SfsFileEntry → Prop) [DecidablePred p] : Option ℕ :=
  (List.range v.count).find? (fun i => p (v.entry i))

variable {v}

theorem first_eq_some {p : SfsFileEntry → Prop} [DecidablePred p] {i : ℕ} :
    v.first p = some i ↔ i < v.count ∧ p (v.entry i) ∧ ∀ j < i, ¬ p (v.entry j) := by
  rw [first, List.find?_range_eq_some]
  simp only [decide_eq_true_eq, List.mem_range, Bool.not_eq_true', decide_eq_false_iff_not]
  tauto

theorem first_eq_none {p : SfsFileEntry → Prop} [DecidablePred p] :
    v.first p = none ↔ ∀ i < v.count, ¬ p (v.entry i) := by
  simp [first]

variable (v)

/-- The slot a search for `fn` finds. -/
def slotOf (fn : List UInt8) : Option ℕ := v.first (fun fe => fe.Named ∧ fe.cname = fn)

/-- The slot a creation uses. -/
def freeSlot : Option ℕ := v.first (fun fe => ¬ fe.Named)

/-- Slot `i` of the table holds a file. -/
def Live (i : ℕ) : Prop := i < v.count ∧ (v.entry i).Named

instance (i : ℕ) : Decidable (v.Live i) := inferInstanceAs (Decidable (_ ∧ _))

variable {v}

theorem slotOf_eq_some {fn : List UInt8} {i : ℕ} : v.slotOf fn = some i ↔
    i < v.count ∧ ((v.entry i).Named ∧ (v.entry i).cname = fn) ∧
      ∀ j < i, ¬ ((v.entry j).Named ∧ (v.entry j).cname = fn) := first_eq_some

/-- A search sees only names. -/
theorem slotOf_congr {v' : Volume} {fn : List UInt8} (hc : v'.count = v.count)
    (h : ∀ i < v.count, ((v'.entry i).Named ∧ (v'.entry i).cname = fn) ↔
      ((v.entry i).Named ∧ (v.entry i).cname = fn)) : v'.slotOf fn = v.slotOf fn := by
  apply Option.ext
  intro i
  rw [slotOf_eq_some, slotOf_eq_some, hc]
  constructor
  · rintro ⟨hi, hm, hpre⟩
    exact ⟨hi, (h i hi).mp hm, fun j hj hmj => hpre j hj ((h j (by omega)).mpr hmj)⟩
  · rintro ⟨hi, hm, hpre⟩
    exact ⟨hi, (h i hi).mpr hm, fun j hj hmj => hpre j hj ((h j (by omega)).mp hmj)⟩

theorem live_of_slotOf {fn : List UInt8} {i : ℕ} (h : v.slotOf fn = some i) : v.Live i :=
  ⟨(slotOf_eq_some.mp h).1, (slotOf_eq_some.mp h).2.1.1⟩

theorem freeSlot_eq_some {i : ℕ} : v.freeSlot = some i ↔
    i < v.count ∧ ¬ (v.entry i).Named ∧ ∀ j < i, (v.entry j).Named := by
  rw [freeSlot, first_eq_some]
  simp

variable (v)

/-- The slot that a shell's creation of `fn` fills: its scan stops at the first free
slot, unless it meets the name before. -/
def createSlot (fn : List UInt8) : Option ℕ :=
  v.freeSlot.filter fun i => ∀ j < i, (v.entry j).cname ≠ fn

variable {v}

theorem createSlot_eq_some {fn : List UInt8} {i : ℕ} : v.createSlot fn = some i ↔
    i < v.count ∧ ¬ (v.entry i).Named ∧
      ∀ j < i, (v.entry j).Named ∧ (v.entry j).cname ≠ fn := by
  unfold createSlot
  rw [Option.filter_eq_some_iff, freeSlot_eq_some]
  simp only [decide_eq_true_eq]
  constructor
  · rintro ⟨⟨hi, hfree, hpre⟩, hne⟩
    exact ⟨hi, hfree, fun j hj => ⟨hpre j hj, hne j hj⟩⟩
  · rintro ⟨hi, hfree, hpre⟩
    exact ⟨⟨hi, hfree, fun j hj => (hpre j hj).1⟩, fun j hj => (hpre j hj).2⟩

/-! ### Blocks -/

variable (v)

/-- Position `p = (slot, index)` points at block `b`. -/
def Held (p : ℕ × Fin 9) (b : ℕ) : Prop :=
  p.1 < v.count ∧ ((v.entry p.1).blocks p.2).toNat = b ∧ b ≠ 0

/-- The blocks marked in the allocation table. -/
def marked : Set ℕ := {b | b < v.used.size ∧ v.used.cell b ≠ 0}

/-- The ownership invariant: a pointer lies in the data area, its block is marked
and nowhere else pointed at, and free slots hold no pointer. -/
structure Owned : Prop where
  ledger : Ledger v.Held v.marked
  data : ∀ {p b}, v.Held p b → v.start ≤ b
  bare : ∀ i < v.count, ¬ (v.entry i).Named → ∀ k, (v.entry i).blocks k = 0

/-- The pointers of every slot form a prefix of its array. -/
def Packed : Prop := ∀ i < v.count, ∀ k : Fin 9, (v.entry i).blocks k ≠ 0 →
  ∀ j < k, (v.entry i).blocks j ≠ 0

/-- Only pointed-at blocks and the ones before the data area are marked, with 1. -/
structure Exact : Prop where
  tight : Tight {b | b < v.start} v.Held v.marked
  bit : ∀ b, v.used.cell b ≠ 0 → b < v.used.size → v.used.cell b = 1

/-- The pointers that the size of a file covers are data blocks. -/
def Sized : Prop := ∀ i, v.Live i → (v.entry i).size.toNat ≤ 512 * 9 ∧
  ∀ k : Fin 9, 512 * k.val < (v.entry i).size.toNat →
    v.start ≤ ((v.entry i).blocks k).toNat ∧ ((v.entry i).blocks k).toNat < v.used.size

variable {v}

theorem held_iff_blocks {i : ℕ} {k : Fin 9} (hi : i < v.count) :
    (∃ b, v.Held (i, k) b) ↔ (v.entry i).blocks k ≠ 0 := by
  constructor
  · rintro ⟨b, _, hb, h0⟩ hz
    rw [hz] at hb
    exact h0 hb.symm
  · intro hne
    exact ⟨_, hi, rfl, fun h => hne (UInt32.toNat_inj.mp h)⟩

theorem held_of_ne {i : ℕ} {k : Fin 9} (hi : i < v.count) (h : (v.entry i).blocks k ≠ 0) :
    v.Held (i, k) ((v.entry i).blocks k).toNat :=
  ⟨hi, rfl, fun h0 => h (UInt32.toNat_inj.mp h0)⟩

/-- A pointer of the volume indexes the allocation table. -/
theorem Owned.lt_size (h : v.Owned) {p : ℕ × Fin 9} {b : ℕ} (hp : v.Held p b) :
    b < v.used.size := (h.ledger.marked hp).1

/-- The loop that stops at a zero pointer sees a pointer exactly when every one
before it is nonzero. -/
theorem mem_prefixPtrs_iff {fe : SfsFileEntry} {b : UInt32} :
    b ∈ fe.prefixPtrs ↔ ∃ k, fe.blocks k = b ∧ ∀ j ≤ k, fe.blocks j ≠ 0 := by
  have hgen : ∀ (n : ℕ) (f : Fin n → UInt32), b ∈ (List.ofFn f).takeWhile (· != 0) ↔
      ∃ k, f k = b ∧ ∀ j ≤ k, f j ≠ 0 := by
    intro n
    induction n with
    | zero => intro f; simp
    | succ n ih =>
      intro f
      rw [List.ofFn_succ, List.takeWhile_cons]
      by_cases h0 : f 0 = 0
      · have hr : ¬ ∃ k, f k = b ∧ ∀ j ≤ k, f j ≠ 0 :=
          fun ⟨k, _, hk⟩ => hk 0 (Fin.zero_le k) h0
        simp [h0, hr]
      · simp only [bne_iff_ne, ne_eq, h0, not_false_eq_true, ↓reduceIte, List.mem_cons, ih]
        constructor
        · rintro (rfl | ⟨k, hk, hall⟩)
          · exact ⟨0, rfl, fun j hj => by rw [Fin.le_zero_iff.mp hj]; exact h0⟩
          · refine ⟨k.succ, hk, fun j hj => ?_⟩
            cases j using Fin.cases with
            | zero => exact h0
            | succ j => exact hall j (Fin.succ_le_succ_iff.mp hj)
        · rintro ⟨k, hk, hall⟩
          cases k using Fin.cases with
          | zero => exact Or.inl hk.symm
          | succ k => exact Or.inr ⟨k, hk, fun j hj => hall j.succ (Fin.succ_le_succ_iff.mpr hj)⟩
  exact hgen 9 fe.blocks

/-- A block the freeing loop sees is held by its slot. -/
theorem held_of_mem_prefixPtrs {i : ℕ} (hi : i < v.count) {b : UInt32}
    (hb : b ∈ (v.entry i).prefixPtrs) : ∃ k, v.Held (i, k) b.toNat := by
  obtain ⟨k, hk, hall⟩ := mem_prefixPtrs_iff.mp hb
  exact ⟨k, hk ▸ held_of_ne hi (hall k (Nat.le_refl k))⟩

end Volume

end Linuxpedia.Sfs
