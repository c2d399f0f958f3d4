import Linuxpedia.Lib.ByteFile

/-! DOS partition tables. A boot record is a sector that ends with a signature and has four
entries of 16 bytes in front of it. The first sector of a disk is one; an extended
partition starts with another one, whose entries are relative to where it lies, but for the
link to the next record, which is relative to the extended partition. A reader of such
tables is not written down but assumed to find what the records describe. -/

namespace Linuxpedia.Lib.Dos

/-- What is read of an entry: the boot type, the type of the partition, its first sector
and the number of its sectors. -/
@[ext] structure Entry where
  bootType : UInt8
  partType : UInt8
  start : UInt32
  sectors : UInt32
  deriving DecidableEq

/-- An active or inactive partition. -/
def Entry.Valid (e : Entry) : Prop := e.bootType = 0 ∨ e.bootType = 0x80

instance (e : Entry) : Decidable e.Valid := inferInstanceAs (Decidable (_ ∨ _))

/-- An entry without a partition. -/
def Entry.Empty (e : Entry) : Prop := e.sectors = 0

instance (e : Entry) : Decidable e.Empty := inferInstanceAs (Decidable (_ = _))

/-- A partition of Linux. -/
def Entry.Linux (e : Entry) : Prop := e.sectors ≠ 0 ∧ e.partType = 0x83

instance (e : Entry) : Decidable e.Linux := inferInstanceAs (Decidable (_ ∧ _))

/-- A partition that holds further records. -/
def Entry.Extended (e : Entry) : Prop := e.sectors ≠ 0 ∧ e.partType ∈ [0x05, 0x0F, 0x85]

instance (e : Entry) : Decidable e.Extended := inferInstanceAs (Decidable (_ ∧ _))

def entryAt (f : Store) (o : ℕ) : Entry := ⟨f o, f (o + 4), f.word (o + 8), f.word (o + 12)⟩

/-- Entries one behind the other. -/
def entries (f : Store) (o : ℕ) : ℕ → List Entry
  | 0 => []
  | n + 1 => entryAt f o :: entries f (o + 16) n

/-- The boot record in a sector, if there is one. -/
def record (f : Store) (sector : ℕ) : Option (List Entry) :=
  let es := entries f (512 * sector + 446) 4
  if f (512 * sector + 510) = 0x55 ∧ f (512 * sector + 511) = 0xAA ∧ ∀ e ∈ es, e.Valid then some es
  else none

/-- A partition: its number, its first sector and the number of its sectors. -/
structure Part where
  number : ℕ
  start : ℕ
  sectors : ℕ
  deriving DecidableEq

/-- The partitions of the first record have the numbers of their entries. The device of an
extended one covers its first `lead` sectors. -/
def primary (lead n : ℕ) : List Entry → List Part
  | [] => []
  | e :: es =>
    if e.Empty then primary lead (n + 1) es
    else ⟨n, e.start.toNat, if e.Extended then min lead e.sectors.toNat else e.sectors.toNat⟩ ::
      primary lead (n + 1) es

/-- The logical partitions of an extended partition, from the record in `sector` on: the
first entry of a record is a partition, the second one may link to the next record. -/
inductive Chain (f : Store) (extended : ℕ) : ℕ → ℕ → List Part → Prop
  | last {sector n : ℕ} {d e₂ e₃ e₄ : Entry} (h : record f sector = some [d, e₂, e₃, e₄])
      (hd : d.Linux) (h₂ : e₂.Empty) (h₃ : e₃.Empty) (h₄ : e₄.Empty) :
      Chain f extended sector n [⟨n, sector + d.start.toNat, d.sectors.toNat⟩]
  | link {sector n : ℕ} {d l e₃ e₄ : Entry} {ps : List Part}
      (h : record f sector = some [d, l, e₃, e₄]) (hd : d.Linux) (hl : l.Extended) (h₃ : e₃.Empty)
      (h₄ : e₄.Empty) (hps : Chain f extended (extended + l.start.toNat) (n + 1) ps) :
      Chain f extended sector n (⟨n, sector + d.start.toNat, d.sectors.toNat⟩ :: ps)

/-- The records of a disk describe these partitions, in the order of their numbers. -/
inductive Describes (lead : ℕ) (f : Store) : List Part → Prop
  | primary {es : List Entry} (h : record f 0 = some es) (hes : ∀ e ∈ es, e.Empty ∨ e.Linux) :
      Describes lead f (primary lead 1 es)
  | extended {es : List Entry} {e : Entry} {ps : List Part} (h : record f 0 = some es)
      (hes : ∀ e ∈ es, e.Empty ∨ e.Linux ∨ e.Extended) (he : es.filter (fun e => e.Extended) = [e])
      (hps : Chain f e.start.toNat e.start.toNat 5 ps) :
      Describes lead f (Dos.primary lead 1 es ++ ps)

/-! ### Readers -/

/-- What is documented of a reader of partition tables, for disks of `size` sectors with
`minors` device numbers: it finds the partitions that are described, and none where the
first sector is no boot record. -/
structure Reads (lead minors size : ℕ) (read : Store → Option (List Part)) : Prop where
  described : ∀ f ps, Describes lead f ps →
    (∀ p ∈ ps, p.number < minors ∧ p.start + p.sectors ≤ size) → read f = some ps
  unsigned : ∀ f, record f 0 = none → read f = none

/-- The logical partitions as far as `fuel` records go. -/
def follow (f : Store) (extended : ℕ) : ℕ → ℕ → ℕ → List Part
  | 0, _, _ => []
  | fuel + 1, sector, n =>
    match record f sector with
    | some [d, l, _, _] =>
      if d.Linux then
        ⟨n, sector + d.start.toNat, d.sectors.toNat⟩ ::
          if l.Extended then follow f extended fuel (extended + l.start.toNat) (n + 1) else []
      else []
    | _ => []

/-- A reader that follows the records. -/
def scan (lead minors : ℕ) (f : Store) : Option (List Part) :=
  match record f 0 with
  | none => none
  | some es =>
    match es.filter (fun e => e.Extended) with
    | [e] => some (primary lead 1 es ++ follow f e.start.toNat minors e.start.toNat 5)
    | _ => some (primary lead 1 es)

theorem Entry.Empty.not_extended {e : Entry} (h : e.Empty) : ¬ e.Extended := fun he => he.1 h

theorem Entry.Linux.not_extended {e : Entry} (h : e.Linux) : ¬ e.Extended := by
  rintro ⟨-, he⟩
  rw [h.2] at he
  exact absurd he (by decide)

/-- The chain of records ends where its last partition has been found. -/
theorem Chain.follow_eq {f : Store} {extended sector n : ℕ} {ps : List Part}
    (h : Chain f extended sector n ps) {fuel : ℕ} (hfuel : ∀ p ∈ ps, p.number < n + fuel) :
    follow f extended fuel sector n = ps := by
  induction h generalizing fuel with
  | @last sector n d e₂ e₃ e₄ h hd h₂ h₃ h₄ =>
    obtain ⟨hhead, -⟩ := List.forall_mem_cons.mp hfuel
    cases fuel with
    | zero => exact absurd hhead (by simp)
    | succ fuel =>
      rw [follow, h]
      simp only [if_pos hd, if_neg h₂.not_extended]
  | @link sector n d l e₃ e₄ ps h hd hl h₃ h₄ hps ih =>
    obtain ⟨hhead, hrest⟩ := List.forall_mem_cons.mp hfuel
    cases fuel with
    | zero => exact absurd hhead (by simp)
    | succ fuel =>
      rw [follow, h]
      simp only [if_pos hd, if_pos hl]
      rw [ih fun p hp => (hrest p hp).trans_eq (by omega)]

/-- It is a reader as documented. -/
theorem scan_reads (lead minors size : ℕ) : Reads lead minors size (scan lead minors) where
  described f ps h hps := by
    cases h with
    | @primary es h hes =>
      have hnone : es.filter (fun e => e.Extended) = [] := by
        refine List.filter_eq_nil_iff.mpr fun e he hx => ?_
        rcases hes e he with h0 | hl
        · exact h0.not_extended (of_decide_eq_true hx)
        · exact hl.not_extended (of_decide_eq_true hx)
      rw [scan, h]
      simp only [hnone]
    | @extended es e ps h _ he hc =>
      have hfollow : follow f e.start.toNat minors e.start.toNat 5 = ps := by
        refine hc.follow_eq fun p hp => ?_
        have hlt := (hps p (List.mem_append_right _ hp)).1
        omega
      rw [scan, h]
      simp only [he, hfollow]
  unsigned f h := by rw [scan, h]

/-! ### What a record depends on -/

theorem entryAt_congr {f g : Store} {o : ℕ} (h : ∀ i < 16, f (o + i) = g (o + i)) :
    entryAt f o = entryAt g o := by
  have hstart : f.word (o + 8) = g.word (o + 8) :=
    Store.word_congr fun k hk => by rw [Nat.add_assoc, h _ (by omega)]
  have hsectors : f.word (o + 12) = g.word (o + 12) :=
    Store.word_congr fun k hk => by rw [Nat.add_assoc, h _ (by omega)]
  have h0 := h 0 (by omega)
  rw [Nat.add_zero] at h0
  rw [entryAt, entryAt, h0, h 4 (by omega), hstart, hsectors]

theorem entries_congr {f g : Store} {o n : ℕ} (h : ∀ i < 16 * n, f (o + i) = g (o + i)) :
    entries f o n = entries g o n := by
  induction n generalizing o with
  | zero => rfl
  | succ n ih =>
    rw [entries, entries, entryAt_congr fun i hi => h i (by omega), ih fun i hi => ?_]
    rw [Nat.add_assoc, h _ (by omega)]

/-- A record depends on the bytes of its sector. -/
theorem record_congr {f g : Store} {sector : ℕ}
    (h : ∀ i < 512, f (512 * sector + i) = g (512 * sector + i)) :
    record f sector = record g sector := by
  have hes : entries f (512 * sector + 446) 4 = entries g (512 * sector + 446) 4 :=
    entries_congr fun i hi => by rw [Nat.add_assoc, h _ (by omega)]
  rw [record, record, hes, h 510 (by omega), h 511 (by omega)]

end Linuxpedia.Lib.Dos
