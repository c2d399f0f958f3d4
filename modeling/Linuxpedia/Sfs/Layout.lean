import Linuxpedia.Lib.CString
import Mathlib.Data.List.FinRange
import Mathlib.Tactic.Tauto

/-! The on-disk structures of the Simula file system, `sfs_super_block_t` and
`sfs_file_entry_t`. `real_sfs_ds.h` and the two `sfs_ds.h` lay them out alike:
512 bytes of words, and 64 bytes made of a 16-byte name and twelve words. -/

namespace Linuxpedia.Sfs

open Lib

/-- `SIMULA_FS_TYPE`. -/
def simulaFsType : UInt32 := 0x13090D15

/-- `sfs_super_block_t`; its reserved words are zero in every image written. -/
structure SfsSuperBlock where
  type : UInt32
  blockSize : UInt32
  partitionSize : UInt32
  entrySize : UInt32
  entryTableSize : UInt32
  entryTableBlockStart : UInt32
  entryCount : UInt32
  dataBlockStart : UInt32
  deriving DecidableEq

namespace SfsSuperBlock

/-- The words of the structure in memory order. -/
def field (sb : SfsSuperBlock) : ℕ → UInt32
  | 0 => sb.type
  | 1 => sb.blockSize
  | 2 => sb.partitionSize
  | 3 => sb.entrySize
  | 4 => sb.entryTableSize
  | 5 => sb.entryTableBlockStart
  | 6 => sb.entryCount
  | 7 => sb.dataBlockStart
  | _ => 0

def toBytes (sb : SfsSuperBlock) : Store := fun i => Store.wordByte (sb.field (i / 4)) (i % 4)

def ofBytes (f : Store) : SfsSuperBlock where
  type := f.word 0
  blockSize := f.word 4
  partitionSize := f.word 8
  entrySize := f.word 12
  entryTableSize := f.word 16
  entryTableBlockStart := f.word 20
  entryCount := f.word 24
  dataBlockStart := f.word 28

/-- A store that starts with the bytes of a super block is read as it. -/
theorem ofBytes_eq {sb : SfsSuperBlock} {f : Store} (h : ∀ i < 32, f i = sb.toBytes i) :
    ofBytes f = sb := by
  have hw : ∀ j < 8, f.word (4 * j) = sb.field j := by
    intro j hj
    apply Store.word_of_bytes
    intro k hk
    rw [h _ (by omega), toBytes, show (4 * j + k) / 4 = j by omega, show (4 * j + k) % 4 = k by omega]
  cases sb
  simp only [ofBytes, mk.injEq]
  exact ⟨hw 0 (by omega), hw 1 (by omega), hw 2 (by omega), hw 3 (by omega), hw 4 (by omega),
    hw 5 (by omega), hw 6 (by omega), hw 7 (by omega)⟩

end SfsSuperBlock

/-- `sfs_file_entry_t`: `SIMULA_FS_DATA_BLOCK_CNT` is `(64 - (16 + 3 * 4)) / 4 = 9`. -/
@[ext] structure SfsFileEntry where
  name : Fin 16 → UInt8
  size : UInt32
  timestamp : UInt32
  perms : UInt32
  blocks : Fin 9 → UInt32

namespace SfsFileEntry

/-- The words after the name. -/
def field (fe : SfsFileEntry) : ℕ → UInt32
  | 0 => fe.size
  | 1 => fe.timestamp
  | 2 => fe.perms
  | k + 3 => if h : k < 9 then fe.blocks ⟨k, h⟩ else 0

def toBytes (fe : SfsFileEntry) : Store := fun i =>
  if h : i < 16 then fe.name ⟨i, h⟩ else Store.wordByte (fe.field ((i - 16) / 4)) ((i - 16) % 4)

def ofBytes (f : Store) : SfsFileEntry where
  name j := f j
  size := f.word 16
  timestamp := f.word 20
  perms := f.word 24
  blocks k := f.word (28 + 4 * k)

theorem ofBytes_congr {f g : Store} (h : ∀ i < 64, f i = g i) : ofBytes f = ofBytes g := by
  simp only [ofBytes, mk.injEq]
  refine ⟨funext fun j => h j (by omega), Store.word_congr fun k hk => h _ (by omega),
    Store.word_congr fun k hk => h _ (by omega), Store.word_congr fun k hk => h _ (by omega),
    funext fun k => Store.word_congr fun l hl => h _ (by omega)⟩

/-- The 64 bytes determine the entry and are all of it. -/
@[simp] theorem ofBytes_toBytes (fe : SfsFileEntry) : ofBytes fe.toBytes = fe := by
  have hw : ∀ j, fe.toBytes.word (16 + 4 * j) = fe.field j := by
    intro j
    apply Store.word_of_bytes
    intro k hk
    rw [toBytes, dif_neg (by omega), show (16 + 4 * j + k - 16) / 4 = j by omega,
      show (16 + 4 * j + k - 16) % 4 = k by omega]
  refine SfsFileEntry.ext (funext fun j => ?_) (hw 0) (hw 1) (hw 2) (funext fun k => ?_)
  · simp [ofBytes, toBytes]
  · have hk := hw (k + 3)
    rw [show 16 + 4 * (k.val + 3) = 28 + 4 * k.val by omega] at hk
    simp [ofBytes, hk, field]

/-- `!fe.name[0]` fails: the slot holds a file. -/
def Named (fe : SfsFileEntry) : Prop := fe.name 0 ≠ 0

instance (fe : SfsFileEntry) : Decidable fe.Named := inferInstanceAs (Decidable (_ ≠ _))

/-- The string `strcmp` sees at `fe.name`. A name without NUL runs on into the
fields after it. -/
def cname (fe : SfsFileEntry) : List UInt8 := fe.toBytes.cstr 64

theorem named_iff (fe : SfsFileEntry) : fe.Named ↔ fe.cname ≠ [] := by
  rw [cname, Ne, Store.cstr_eq_nil (by omega)]
  rfl

/-- A terminated name decides the string, whatever the other fields are. -/
theorem cname_congr {fe fe' : SfsFileEntry} (h : fe'.name = fe.name) {l : Fin 16}
    (h0 : fe.name l = 0) : fe'.cname = fe.cname := by
  have hbyte : ∀ (e : SfsFileEntry) (j : ℕ) (hj : j < 16), e.toBytes j = e.name ⟨j, hj⟩ :=
    fun e j hj => dif_pos hj
  have hl : l.val < 64 := by omega
  unfold cname
  rw [Store.cstr_take hl ((hbyte fe l l.isLt).trans h0),
    Store.cstr_take hl ((hbyte fe' l l.isLt).trans (by rw [h]; exact h0))]
  apply Store.cstr_congr
  intro j hj
  rw [hbyte fe j (by omega), hbyte fe' j (by omega), h]

/-- `memset(&fe, 0, sizeof(sfs_file_entry_t))`. -/
def zero : SfsFileEntry := ⟨fun _ => 0, 0, 0, 0, fun _ => 0⟩

@[simp] theorem zero_not_named : ¬ zero.Named := by simp [Named, zero]

@[simp] theorem toBytes_zero (i : ℕ) : zero.toBytes i = 0 := by
  have hf : ∀ k, zero.field k = 0 := by
    intro k
    match k with
    | 0 | 1 | 2 => rfl
    | k + 3 => simp [field, zero]
  rw [toBytes, hf]
  split_ifs <;> simp [zero]

/-- The entry `sfs_create` fills in: `strncpy(fe.name, fn, 15); fe.name[15] = 0`,
size 0, no blocks. -/
def fresh (fn : List UInt8) (timestamp perms : UInt32) : SfsFileEntry where
  name j := if j.val < 15 then fn.getD j 0 else 0
  size := 0
  timestamp := timestamp
  perms := perms
  blocks _ := 0

/-- Names of 1 to 15 bytes without NUL. -/
def NameOk (fn : List UInt8) : Prop := 1 ≤ fn.length ∧ fn.length ≤ 15 ∧ (0 : UInt8) ∉ fn

instance (fn : List UInt8) : Decidable (NameOk fn) := inferInstanceAs (Decidable (_ ∧ _ ∧ _))

/-- At most 15 bytes of a name are stored. -/
theorem cname_fresh_take {fn : List UInt8} (hnul : (0 : UInt8) ∉ fn) (timestamp perms : UInt32) :
    (fresh fn timestamp perms).cname = fn.take 15 := by
  have hlen : (fn.take 15).length ≤ 15 := List.length_take_le 15 fn
  apply Store.cstr_of_list (fun h => hnul (List.mem_of_mem_take h)) (by omega)
  intro j hj
  rw [toBytes, dif_pos (by omega)]
  simp only [fresh]
  split_ifs with h15
  · rw [List.getD_eq_getElem?_getD, List.getD_eq_getElem?_getD, List.getElem?_take_of_lt h15]
  · rw [List.getD_eq_default _ _ (by omega)]

/-- A name that fits is stored whole. -/
theorem cname_fresh {fn : List UInt8} (h : NameOk fn) (timestamp perms : UInt32) :
    (fresh fn timestamp perms).cname = fn := by
  rw [cname_fresh_take h.2.2, List.take_of_length_le h.2.1]

/-- The nonzero pointers before the first zero one: what the freeing and marking
loops that stop at a zero pointer see. -/
def prefixPtrs (fe : SfsFileEntry) : List UInt32 := (List.ofFn fe.blocks).takeWhile (· != 0)

/-- The assignments of `sfs_update` from its pointer arguments. -/
def withAttrs (fe : SfsFileEntry) (size timestamp perms : Option ℤ) : SfsFileEntry :=
  { fe with
    size := size.elim fe.size UInt32.ofInt
    timestamp := timestamp.elim fe.timestamp UInt32.ofInt
    perms := perms.elim fe.perms fun p => if p ≤ 7 then UInt32.ofInt p else fe.perms }

/-- The entry with block `k` pointed at by index `k`. -/
def point (fe : SfsFileEntry) (k : Fin 9) (b : UInt32) : SfsFileEntry :=
  { fe with blocks := Function.update fe.blocks k b }

/-- The entry without its pointers from index `n` on. -/
def keep (fe : SfsFileEntry) (n : ℕ) : SfsFileEntry :=
  { fe with blocks := fun k => if n ≤ k.val then 0 else fe.blocks k }

/-- The nonzero pointers from index `n` on. -/
def dropped (fe : SfsFileEntry) (n : ℕ) : List UInt32 :=
  (((List.finRange 9).drop n).map fe.blocks).filter (· != 0)

theorem mem_drop_finRange {n : ℕ} {k : Fin 9} : k ∈ (List.finRange 9).drop n ↔ n ≤ k.val := by
  rw [List.mem_drop_iff_getElem]
  constructor
  · rintro ⟨j, hj, rfl⟩
    simp
  · intro h
    exact ⟨k.val - n, by simp; omega, by simp [show n + (k.val - n) = k.val by omega]⟩

theorem mem_dropped {fe : SfsFileEntry} {n : ℕ} {b : UInt32} :
    b ∈ fe.dropped n ↔ b ≠ 0 ∧ ∃ k : Fin 9, n ≤ k.val ∧ fe.blocks k = b := by
  simp only [dropped, List.mem_filter, List.mem_map, mem_drop_finRange, bne_iff_ne, ne_eq]
  tauto

theorem dropped_eq_nil {fe : SfsFileEntry} {n : ℕ} :
    fe.dropped n = [] ↔ ∀ k : Fin 9, n ≤ k.val → fe.blocks k = 0 := by
  rw [List.eq_nil_iff_forall_not_mem]
  constructor
  · intro h k hk
    by_contra hne
    exact h _ (mem_dropped.mpr ⟨hne, k, hk, rfl⟩)
  · intro h b hb
    obtain ⟨h0, k, hk, rfl⟩ := mem_dropped.mp hb
    exact h0 (h k hk)

/-- `(fe.size + block_size - 1) / block_size` in 32 bits, for blocks of 512 bytes. -/
def sizeBlocks (fe : SfsFileEntry) : ℕ := ((fe.size + 512 - 1) / 512).toNat

/-- Below `2 ^ 31` the sum does not wrap. -/
theorem sizeBlocks_eq {fe : SfsFileEntry} (h : fe.size.toNat < 2 ^ 31) :
    fe.sizeBlocks = (fe.size.toNat + 511) / 512 := by
  rw [sizeBlocks, UInt32.toNat_div, UInt32.toNat_sub, UInt32.toNat_add]
  change (2 ^ 32 - 1 + (fe.size.toNat + 512) % 2 ^ 32) % 2 ^ 32 / 512 = _
  omega

end SfsFileEntry

end Linuxpedia.Sfs
