import Linuxpedia.Sfs.RawTable
import Mathlib.Logic.Function.Iterate

/-! Two requests on one inode at the same time. Each `sfs_get_block` and each
`sfs_update` reads the whole entry, changes its copy and writes the copy back;
`info->lock` is held only inside `sfs_get_data_block` and `sfs_put_data_block`, so the
other request can run between any two of these. An atomic step is one reading, one call
of the allocator or one writing. -/

namespace Linuxpedia.Sfs

open Lib

/-- A call of `sfs_get_block` with `create` set, or of `sfs_update`. -/
inductive Request where
  | getBlock (iblock : ℕ)
  | update (size timestamp perms : Option ℤ)

/-- Where a request stands between two atomic steps: `fe` is its copy of the entry. -/
inductive Local where
  | start
  /-- The entry is read and its block `k` is zero. -/
  | alloc (k : Fin 9) (fe : SfsFileEntry)
  /-- A block `b` is taken and in the copy. -/
  | store (k : Fin 9) (fe : SfsFileEntry) (b : UInt32)
  /-- The indices that the loop of `sfs_update` has still to visit. -/
  | drop (is : List (Fin 9)) (fe : SfsFileEntry)
  | done (code : ℤ) (phys : Option UInt32)

namespace Local

/-- What a request that is done returned. -/
def code : Local → Option ℤ
  | .done code _ => some code
  | _ => none

/-- The block that a request mapped. -/
def phys : Local → Option UInt32
  | .done _ phys => phys
  | _ => none

/-- The copy that a request holds. -/
def copy : Local → Option SfsFileEntry
  | .alloc _ fe => some fe
  | .store _ fe _ => some fe
  | .drop _ fe => some fe
  | _ => none

end Local

section Model

variable (κ : Kernel) (ino : ℤ)

/-- One atomic step of a request. -/
def advance (m : Mount) (req : Request) : Local → Mount × Local
  | .start =>
    match req with
    | .getBlock iblock =>
      if h : iblock < 9 then
        match sfsGetFileEntry κ m ino with
        | (m, .error _) => (m, .done (-eio) none)
        | (m, .ok fe) =>
          if fe.blocks ⟨iblock, h⟩ = 0 then (m, .alloc ⟨iblock, h⟩ fe)
          else (m, .done 0 (some (fe.blocks ⟨iblock, h⟩)))
      else (m, .done (-enospc) none)
    | .update size timestamp perms =>
      match sfsGetFileEntry κ m ino with
      | (m, .error _) => (m, .done (-1) none)
      | (m, .ok fe) =>
        let fe := fe.withAttrs size timestamp perms
        let m := divBlockSize m
        let i := asInt ((fe.size + m.sb.blockSize - 1) / m.sb.blockSize)
        (firstIndex m i, .drop ((List.finRange 9).drop i.toNat) fe)
  | .alloc k fe =>
    match sfsGetDataBlock m with
    | (m, r) =>
      let b := UInt32.ofInt r
      if b = UInt32.ofInt (-1) then (m, .done (-enospc) none) else (m, .store k (fe.point k b) b)
  | .store _ fe b =>
    match sfsUpdateFileEntry κ m ino fe with
    | (m, r) => if r = -1 then (m, .done (-eio) none) else (m, .done 0 (some b))
  | .drop [] fe =>
    match writeEntry κ m (v2sInodeNum ino) fe with
    | (m, r) => (m, .done r none)
  | .drop (i :: is) fe =>
    if fe.blocks i ≠ 0 then (sfsPutDataBlock m (fe.blocks i), .drop is (fe.point i 0))
    else (m, .drop is fe)
  | .done code phys => (m, .done code phys)

/-- The step of a request that runs alone. -/
def alone (req : Request) (p : Mount × Local) : Mount × Local := advance κ ino p.1 req p.2

/-! ### A request that runs alone -/

variable {κ ino}

/-- The steps of `sfs_get_block` one after the other are `sfs_get_block`. -/
theorem getBlock_alone (m : Mount) (iblock : ℕ) :
    (alone κ ino (.getBlock iblock))^[3] (m, .start) =
      ((sfsGetBlock κ m ino iblock true).1,
        .done (sfsGetBlock κ m ino iblock true).2.1 (sfsGetBlock κ m ino iblock true).2.2) := by
  simp only [Function.iterate_succ, Function.iterate_zero, Function.comp_apply, id_eq, alone]
  by_cases h : iblock < 9
  · simp only [advance, sfsGetBlock, dif_pos h]
    cases hr : sfsGetFileEntry κ m ino with
    | mk m₁ r =>
      cases r with
      | error e => rfl
      | ok fe =>
        by_cases hz : fe.blocks ⟨iblock, h⟩ = 0
        · simp only [if_pos hz, if_true]
          by_cases hb : UInt32.ofInt (sfsGetDataBlock m₁).2 = UInt32.ofInt (-1)
          · simp only [if_pos hb]
          · simp only [if_neg hb]
            by_cases hw : (sfsUpdateFileEntry κ (sfsGetDataBlock m₁).1 ino
                (fe.point ⟨iblock, h⟩ (UInt32.ofInt (sfsGetDataBlock m₁).2))).2 = -1
            · simp only [if_pos hw]
            · simp only [if_neg hw]
        · simp only [if_neg hz]
  · simp only [advance, sfsGetBlock, dif_neg h]

/-- The loop of `sfs_update` and the writing after it. -/
theorem drop_alone (req : Request) (is : List (Fin 9)) (m : Mount) (fe : SfsFileEntry) :
    (alone κ ino req)^[is.length + 1] (m, .drop is fe) =
      ((writeEntry κ (dropBlocks is m fe).1 (v2sInodeNum ino) (dropBlocks is m fe).2).1,
        .done (writeEntry κ (dropBlocks is m fe).1 (v2sInodeNum ino) (dropBlocks is m fe).2).2
          none) := by
  induction is generalizing m fe with
  | nil => rfl
  | cons i is ih =>
    rw [List.length_cons, Function.iterate_succ_apply, dropBlocks]
    by_cases h : fe.blocks i ≠ 0
    · rw [if_pos h, ← ih]
      simp only [alone, advance, if_pos h]
    · rw [if_neg h, ← ih]
      simp only [alone, advance, if_neg h]

/-- The steps of `sfs_update` one after the other are `sfs_update`. -/
theorem update_alone (m : Mount) (size timestamp perms : Option ℤ) :
    (alone κ ino (.update size timestamp perms))^[11] (m, .start) =
      ((sfsUpdate κ m ino size timestamp perms).1,
        .done (sfsUpdate κ m ino size timestamp perms).2 none) := by
  have hdone : ∀ n m code, (alone κ ino (.update size timestamp perms))^[n]
      (m, .done code none) = (m, .done code none) :=
    fun n m code => Function.iterate_fixed rfl n
  rw [show 11 = 10 + 1 by rfl, Function.iterate_succ_apply, sfsUpdate]
  cases hr : sfsGetFileEntry κ m ino with
  | mk m₁ r =>
    cases r with
    | error e =>
      simp only [alone, advance, hr]
      exact hdone 10 m₁ (-1)
    | ok fe =>
      simp only [alone, advance, hr]
      set is := (List.finRange 9).drop (asInt (((fe.withAttrs size timestamp perms).size +
        (divBlockSize m₁).sb.blockSize - 1) / (divBlockSize m₁).sb.blockSize)).toNat with his
      have hlen : is.length ≤ 9 := by
        rw [his, List.length_drop, List.length_finRange]
        omega
      obtain ⟨n, hn⟩ : ∃ n, 10 = n + (is.length + 1) := ⟨9 - is.length, by omega⟩
      rw [hn, Function.iterate_add_apply]
      exact (congrArg _ (drop_alone _ is _ _)).trans (hdone n _ _)

end Model

/-! ### Two requests -/

/-- The mount, the two requests and the blocks taken from the allocator so far. -/
structure Pair where
  mount : Mount
  loc : Bool → Local
  took : List UInt32

/-- The blocks that a step took. -/
def Local.takes : Local → Local → List UInt32
  | .alloc _ _, .store _ _ b => [b]
  | _, _ => []

namespace Pair

/-- Two requests on a mount, neither of which has begun. -/
def fresh (m : Mount) : Pair := ⟨m, fun _ => .start, []⟩

/-- Request `who` moves to `l` and leaves the mount `m`. -/
def next (s : Pair) (who : Bool) (m : Mount) (l : Local) : Pair :=
  ⟨m, Function.update s.loc who l, (s.loc who).takes l ++ s.took⟩

@[simp] theorem next_mount (s : Pair) (who m l) : (s.next who m l).mount = m := rfl

@[simp] theorem next_took (s : Pair) (who m l) :
    (s.next who m l).took = (s.loc who).takes l ++ s.took := rfl

@[simp] theorem next_loc_self (s : Pair) (who m l) : (s.next who m l).loc who = l := by
  simp [next]

@[simp] theorem next_loc_other (s : Pair) (who m l) :
    (s.next who m l).loc (!who) = s.loc (!who) := by
  simp [next]

/-- The next step of request `who`. -/
def step (κ : Kernel) (ino : ℤ) (req : Bool → Request) (s : Pair) (who : Bool) : Pair :=
  let r := advance κ ino s.mount (req who) (s.loc who)
  s.next who r.1 r.2

/-- Both requests returned success. -/
def Succeeded (s : Pair) : Prop := ∀ who, (s.loc who).code = some 0

/-- The entry of slot `i` holds the block that each `sfs_get_block` returned and refers
to every block taken. -/
def Kept (req : Bool → Request) (i : ℕ) (s : Pair) : Prop :=
  (∀ who, ∀ k : Fin 9, req who = .getBlock k → ∀ b ∈ (s.loc who).phys,
    (s.mount.table.entry i).blocks k = b) ∧
  ∀ b ∈ s.took, ∃ k, (s.mount.table.entry i).blocks k = b

/-- A step that writes the entry with a block in it happens while the other request
holds no copy, and its writing does not fail. -/
def Guarded (κ : Kernel) (i : ℕ) (s : Pair) (who : Bool) : Prop :=
  match s.loc who with
  | .store _ _ _ =>
    (s.loc (!who)).copy.isNone ∧ κ.Reads s.mount.breads (s.mount.sb.slotAddr i)
  | _ => True

instance (κ : Kernel) (i : ℕ) (s : Pair) (who : Bool) : Decidable (s.Guarded κ i who) := by
  unfold Guarded
  split <;> infer_instance

end Pair

/-- The first index that `sfs_update` drops. -/
def SfsSuperBlock.firstDropped (sb : SfsSuperBlock) (size : UInt32) : ℤ :=
  asInt ((size + sb.blockSize - 1) / sb.blockSize)

/-- A request on an entry of `size` bytes leaves block `k` to the other one. -/
def Request.Spares (sb : SfsSuperBlock) (size : UInt32) (k : ℕ) : Request → Prop
  | .getBlock iblock => iblock ≠ k
  | .update size' _ _ => (k : ℤ) < sb.firstDropped (size'.elim size UInt32.ofInt)

/-- Different blocks, or a block that the update keeps. -/
def Compatible (sb : SfsSuperBlock) (size : UInt32) (req : Bool → Request) : Prop :=
  ∀ who k, req who = .getBlock k → (req (!who)).Spares sb size k

/-- What the driver needs to take blocks from its table. -/
structure Mount.Allocates (m : Mount) : Prop where
  pos : 0 < m.sb.dataBlockStart.toNat
  start_le : m.sb.dataBlockStart.toNat ≤ m.sb.partitionSize.toNat
  small : m.sb.partitionSize.toNat ≤ 2 ^ 31
  size : m.usedBlocks.size = m.sb.partitionSize.toNat

theorem Mount.Wf.allocates {m : Mount} (h : m.Wf) : m.Allocates where
  pos := h.start_pos
  start_le := h.geometry.start_le
  small := Nat.le_of_lt h.geometry.small
  size := h.size

/-! ### What a step can do -/

/-- Nothing but the allocation table and the counts differs. -/
structure Mount.Quiet (m m' : Mount) : Prop where
  dev : m'.dev = m.dev
  sb : m'.sb = m.sb
  size : m'.usedBlocks.size = m.usedBlocks.size

theorem Mount.Quiet.entry {m m' : Mount} (h : m.Quiet m') (i : ℕ) :
    m'.table.entry i = m.table.entry i := by
  change rawEntry m'.sb m'.dev i = rawEntry m.sb m.dev i
  rw [h.sb, h.dev]

/-- The step of a request for slot `i`, from one place to the next. -/
inductive Effect (κ : Kernel) (i : ℕ) (req : Request) (m : Mount) : Local → Mount → Local → Prop
  | refuse (l m' code) (hm : m.Quiet m') (hl : l.code = none) (hs : ∀ k fe b, l ≠ .store k fe b)
      (hc : code ≠ 0) : Effect κ i req m l m' (.done code none)
  | found (k : Fin 9) (m') (hm : m.Quiet m') (hr : req = .getBlock k)
      (hb : (m.table.entry i).blocks k ≠ 0) :
      Effect κ i req m .start m' (.done 0 (some ((m.table.entry i).blocks k)))
  | read (k : Fin 9) (m') (hm : m.Quiet m') (hr : req = .getBlock k)
      (hb : (m.table.entry i).blocks k = 0) :
      Effect κ i req m .start m' (.alloc k (m.table.entry i))
  | readAll (size timestamp perms m') (hm : m.Quiet m') (hr : req = .update size timestamp perms) :
      Effect κ i req m .start m' (.drop ((List.finRange 9).drop (m.sb.firstDropped
        (size.elim (m.table.entry i).size UInt32.ofInt)).toNat)
        ((m.table.entry i).withAttrs size timestamp perms))
  | take (k fe b m') (hm : m.Quiet m') (hb : b ≠ 0) :
      Effect κ i req m (.alloc k fe) m' (.store k (fe.point k b) b)
  | written (k fe b) (hw : κ.Reads m.breads (m.sb.slotAddr i)) :
      Effect κ i req m (.store k fe b) (m.stored i fe) (.done 0 (some b))
  | lost (k fe b m') (hm : m.Quiet m') (hw : ¬ κ.Reads m.breads (m.sb.slotAddr i)) :
      Effect κ i req m (.store k fe b) m' (.done 0 (some b))
  | skip (j is fe) : Effect κ i req m (.drop (j :: is) fe) m (.drop is fe)
  | put (j is fe m') (hm : m.Quiet m') :
      Effect κ i req m (.drop (j :: is) fe) m' (.drop is (fe.point j 0))
  | updated (fe) : Effect κ i req m (.drop [] fe) (m.stored i fe) (.done 0 none)
  | stay (code phys) : Effect κ i req m (.done code phys) m (.done code phys)

variable {κ : Kernel} {m : Mount} {i : ℕ}

theorem Mount.Quiet.tick (m : Mount) (n : ℕ) : m.Quiet (m.tick n) := ⟨rfl, rfl, rfl⟩

/-- The two ways in which the reading of an entry ends. -/
theorem fileEntry_cases (κ : Kernel) (m : Mount) (i : ℕ) :
    ∃ n, sfsGetFileEntry κ m ((i : ℤ) + 1) = (m.tick n, .error (-1)) ∨
      sfsGetFileEntry κ m ((i : ℤ) + 1) = (m.tick n, .ok (m.table.entry i)) := by
  by_cases h : κ.Reads m.breads (m.sb.slotAddr i)
  · exact ⟨1, Or.inr (by rw [sfsGetFileEntry, v2s_succ, readEntry_reads h])⟩
  · obtain ⟨c, e, hc⟩ := readEntry_unread h
    exact ⟨c, Or.inl (by rw [sfsGetFileEntry, v2s_succ, hc])⟩

theorem advance_getBlock (m : Mount) (iblock : ℕ) : Effect κ i (.getBlock iblock) m .start
    (advance κ ((i : ℤ) + 1) m (.getBlock iblock) .start).1
    (advance κ ((i : ℤ) + 1) m (.getBlock iblock) .start).2 := by
  by_cases h : iblock < 9
  · obtain ⟨n, hr | hr⟩ := fileEntry_cases κ m i
    · simp only [advance, dif_pos h, hr]
      exact .refuse _ _ _ (.tick m n) rfl nofun (by decide)
    · by_cases hz : (m.table.entry i).blocks ⟨iblock, h⟩ = 0
      · simp only [advance, dif_pos h, hr, if_pos hz]
        exact .read ⟨iblock, h⟩ _ (.tick m n) rfl hz
      · simp only [advance, dif_pos h, hr, if_neg hz]
        exact .found ⟨iblock, h⟩ _ (.tick m n) rfl hz
  · simp only [advance, dif_neg h]
    exact .refuse _ _ _ (.tick m 0) rfl nofun (by decide)

theorem advance_update (m : Mount) (size timestamp perms : Option ℤ) :
    Effect κ i (.update size timestamp perms) m .start
      (advance κ ((i : ℤ) + 1) m (.update size timestamp perms) .start).1
      (advance κ ((i : ℤ) + 1) m (.update size timestamp perms) .start).2 := by
  obtain ⟨n, hr | hr⟩ := fileEntry_cases κ m i
  · simp only [advance, hr]
    exact .refuse _ _ _ (.tick m n) rfl nofun (by decide)
  · have hdiv : (divBlockSize (m.tick n)).sb = m.sb := by
      unfold divBlockSize
      split_ifs <;> rfl
    have hquiet : ∀ q, m.Quiet (firstIndex (divBlockSize (m.tick n)) q) := by
      intro q
      obtain ⟨t, ht, hsize, -⟩ := firstIndex_divBlockSize (m.tick n) q
      rw [ht]
      exact ⟨rfl, rfl, hsize⟩
    simp only [advance, hr, hdiv]
    exact .readAll size timestamp perms _ (hquiet _) rfl

theorem advance_alloc (hm : m.Allocates) (req : Request) (k : Fin 9) (fe : SfsFileEntry) :
    Effect κ i req m (.alloc k fe) (advance κ ((i : ℤ) + 1) m req (.alloc k fe)).1
      (advance κ ((i : ℤ) + 1) m req (.alloc k fe)).2 := by
  have h31 : m.usedBlocks.size ≤ 2 ^ 31 := hm.size.trans_le hm.small
  simp only [advance, sfsGetDataBlock_scan hm.start_le hm.size h31]
  cases hfree : m.usedBlocks.free m.sb.dataBlockStart.toNat with
  | nil => exact .refuse _ _ _ (.tick m 0) rfl nofun (by decide)
  | cons b bs =>
    obtain ⟨hlo, hlt, -⟩ := Volume.free_head (v := m.table) hfree
    have hb : b < 2 ^ 31 := Nat.lt_of_lt_of_le hlt h31
    simp only [ofInt_natCast, if_neg (ofNat_ne_neg_one hb)]
    refine .take k fe _ _ ⟨rfl, rfl, by simp⟩ fun hz => ?_
    have hn := congrArg UInt32.toNat hz
    have hpos := hm.pos
    rw [UInt32.toNat_ofNat', Nat.mod_eq_of_lt (by omega), UInt32.toNat_zero] at hn
    simp only [Mount.table] at hlo
    omega

theorem advance_store (m : Mount) (req : Request) (k : Fin 9) (fe : SfsFileEntry) (b : UInt32) :
    Effect κ i req m (.store k fe b) (advance κ ((i : ℤ) + 1) m req (.store k fe b)).1
      (advance κ ((i : ℤ) + 1) m req (.store k fe b)).2 := by
  by_cases hw : κ.Reads m.breads (m.sb.slotAddr i)
  · have hne : ¬ (0 : ℤ) = -1 := by decide
    simp only [advance, sfsUpdateFileEntry, v2s_succ, writeEntry_reads hw, if_neg hne]
    exact .written k fe b hw
  · obtain ⟨c, e, -, he, hc⟩ := writeEntry_unread hw fe
    simp only [advance, sfsUpdateFileEntry, v2s_succ, hc, if_neg he]
    exact .lost k fe b _ ⟨rfl, rfl, rfl⟩ hw

theorem advance_drop (m : Mount) (req : Request) (is : List (Fin 9)) (fe : SfsFileEntry) :
    Effect κ i req m (.drop is fe) (advance κ ((i : ℤ) + 1) m req (.drop is fe)).1
      (advance κ ((i : ℤ) + 1) m req (.drop is fe)).2 := by
  cases is with
  | nil =>
    by_cases hw : κ.Reads m.breads (m.sb.slotAddr i)
    · simp only [advance, v2s_succ, writeEntry_reads hw]
      exact .updated fe
    · obtain ⟨c, e, he, -, hc⟩ := writeEntry_unread hw fe
      simp only [advance, v2s_succ, hc]
      exact .refuse _ _ _ ⟨rfl, rfl, rfl⟩ rfl nofun he
  | cons j is =>
    by_cases hz : fe.blocks j ≠ 0
    · simp only [advance, if_pos hz]
      exact .put j is fe _ ⟨rfl, rfl, by simp [sfsPutDataBlock]⟩
    · simp only [advance, if_neg hz]
      exact .skip j is fe

/-- Every step of a request is one of these. -/
theorem advance_effect (hm : m.Allocates) (req : Request) (l : Local) :
    Effect κ i req m l (advance κ ((i : ℤ) + 1) m req l).1
      (advance κ ((i : ℤ) + 1) m req l).2 := by
  cases l with
  | start =>
    cases req with
    | getBlock iblock => exact advance_getBlock m iblock
    | update size timestamp perms => exact advance_update m size timestamp perms
  | alloc k fe => exact advance_alloc hm req k fe
  | store k fe b => exact advance_store m req k fe b
  | drop is fe => exact advance_drop m req is fe
  | done code phys => exact .stay code phys

end Linuxpedia.Sfs
