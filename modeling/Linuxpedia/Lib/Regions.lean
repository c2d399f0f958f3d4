import Linuxpedia.Lib.Bytes
import Linuxpedia.Lib.Simulation

/-! A store divided into regions. An operation that does the same wherever it is placed,
and reads and writes only so many bytes from there on, does not see what else is in the
store. Where such operations are placed at disjoint regions, the store answers as if each
region were a store of its own, whatever the order of the operations, and it keeps the
bytes outside the regions. -/

namespace Linuxpedia.Lib.Regions

variable {ι A O : Type*}

/-- The operation `op s`, placed at block `s` of the store, is confined to the `n` blocks
from there on; a block has `u` bytes. -/
structure Confined (u : ℕ) (op : ℕ → Store → Store × O) (n : ℕ) : Prop where
  shift : ∀ s f, (op s f).2 = (op 0 (f.window (u * s))).2 ∧
    (op s f).1.window (u * s) = (op 0 (f.window (u * s))).1
  congr : ∀ f g : Store, (∀ i < u * n, f i = g i) →
    (op 0 f).2 = (op 0 g).2 ∧ ∀ i < u * n, (op 0 f).1 i = (op 0 g).1 i
  frame : ∀ s f a, a < u * s ∨ u * (s + n) ≤ a → (op s f).1 a = f a

/-- One store, where the operations of a region are placed at its first block. -/
def shared (op : A → ℕ → Store → Store × O) (start : ι → ℕ) (f : Store) (c : ι × A) : Store × O :=
  op c.2 (start c.1) f

/-- A store for each region. -/
def separate [DecidableEq ι] (op : A → ℕ → Store → Store × O) (F : ι → Store) (c : ι × A) :
    (ι → Store) × O :=
  (Function.update F c.1 (op c.2 0 (F c.1)).1, (op c.2 0 (F c.1)).2)

section Simulation

variable (u : ℕ) (start len : ι → ℕ) (regions : Set ι)

/-- The regions do not meet. -/
def Apart : Prop := ∀ k ∈ regions, ∀ l ∈ regions, k ≠ l →
  start k + len k ≤ start l ∨ start l + len l ≤ start k

/-- The store has the bytes of each region. -/
def Holds (f : Store) (F : ι → Store) : Prop :=
  ∀ k ∈ regions, ∀ i < u * len k, f (u * start k + i) = F k i

/-- An operation of a region that is confined to it. -/
def Legal (op : A → ℕ → Store → Store × O) (c : ι × A) : Prop :=
  c.1 ∈ regions ∧ Confined u (op c.2) (len c.1)

variable {u start len regions} {op : A → ℕ → Store → Store × O}

/-- A legal operation leaves the blocks outside its region. -/
theorem shared_outside (f : Store) {c : ι × A} (hc : Legal u len regions op c) {a : ℕ}
    (ha : ∀ k ∈ regions, a < u * start k ∨ u * (start k + len k) ≤ a) :
    (shared op start f c).1 a = f a :=
  hc.2.frame _ _ _ (ha c.1 hc.1)

theorem exec_outside (f : Store) {cs : List (ι × A)} (hcs : ∀ c ∈ cs, Legal u len regions op c)
    {a : ℕ} (ha : ∀ k ∈ regions, a < u * start k ∨ u * (start k + len k) ≤ a) :
    Run.exec (fun f c => (shared op start f c).1) f cs a = f a := by
  induction cs generalizing f with
  | nil => rfl
  | cons c cs ih =>
    obtain ⟨hc, hrest⟩ := List.forall_mem_cons.mp hcs
    rw [Run.exec_cons, ih _ hrest, shared_outside f hc ha]

variable [DecidableEq ι]

/-- A legal operation answers as on the store of its region, and the regions stay. -/
theorem shared_step (hapart : Apart start len regions) {f : Store} {F : ι → Store}
    (h : Holds u start len regions f F) {c : ι × A} (hc : Legal u len regions op c) :
    (shared op start f c).2 = (separate op F c).2 ∧
      Holds u start len regions (shared op start f c).1 (separate op F c).1 := by
  obtain ⟨k, a⟩ := c
  obtain ⟨hk, hop⟩ := hc
  obtain ⟨hans, hwin⟩ := hop.shift (start k) f
  obtain ⟨hsame, hbytes⟩ := hop.congr (f.window (u * start k)) (F k) fun i hi => h k hk i hi
  refine ⟨hans.trans hsame, fun l hl i hi => ?_⟩
  by_cases hkl : l = k
  · subst hkl
    calc (op a (start l) f).1 (u * start l + i) = (op a 0 (f.window (u * start l))).1 i :=
          congrFun hwin i
      _ = (op a 0 (F l)).1 i := hbytes i hi
      _ = Function.update F l (op a 0 (F l)).1 l i := by rw [Function.update_self]
  · have hout : u * start l + i < u * start k ∨ u * (start k + len k) ≤ u * start l + i := by
      rcases hapart l hl k hk hkl with hle | hle
      · left
        have hm := Nat.mul_le_mul_left u hle
        rw [Nat.mul_add] at hm
        omega
      · right
        exact (Nat.mul_le_mul_left u hle).trans (Nat.le_add_right _ _)
    calc (op a (start k) f).1 (u * start l + i) = f (u * start l + i) := hop.frame _ _ _ hout
      _ = F l i := h l hl i hi
      _ = Function.update F k (op a 0 (F k)).1 l i := by rw [Function.update_of_ne hkl]

section Run

variable (hapart : Apart start len regions) {f : Store} {F : ι → Store}
  (h : Holds u start len regions f F) {cs : List (ι × A)}
  (hcs : ∀ c ∈ cs, Legal u len regions op c)

include hcs

theorem along_legal (F : ι → Store) : Run.Along (fun F c => (separate op F c).1)
    (fun _ c => Legal u len regions op c) F cs :=
  Run.along_of_mem F hcs

include hapart h

/-- Every history gives the same answers. -/
theorem trace_shared : Run.trace (shared op start) f cs = Run.trace (separate op) F cs :=
  Run.trace_eq (R := Holds u start len regions) (f := shared op start) (g := separate op)
    (fun _ _ _ hF hc => shared_step hapart hF hc) h (along_legal hcs F)

/-- The store has the bytes of the regions after every history. -/
theorem exec_shared : Holds u start len regions
    (Run.exec (fun f c => (shared op start f c).1) f cs)
    (Run.exec (fun F c => (separate op F c).1) F cs) :=
  Run.exec_related (R := Holds u start len regions) (f := shared op start) (g := separate op)
    (fun _ _ _ hF hc => shared_step hapart hF hc) h (along_legal hcs F)

end Run

end Simulation

end Linuxpedia.Lib.Regions
