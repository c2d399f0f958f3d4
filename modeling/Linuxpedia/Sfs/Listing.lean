import Linuxpedia.Sfs.Operations

/-! `sfs_list` on a readable table. It hands the named slots to `filldir` one after
the other, in slot order, and stops when `filldir` returns a nonzero code. -/

namespace Linuxpedia.Sfs

open Lib

/-- The entries of the named slots among `n` from slot `i` on, the first one at
position `fPos`. -/
def listing (entry : ℕ → SfsFileEntry) : ℕ → ℕ → ℕ → List Dirent
  | 0, _, _ => []
  | n + 1, i, fPos =>
    if (entry i).Named then
      ⟨(entry i).cname, fPos, s2vInodeNum i⟩ :: listing entry n (i + 1) (fPos + 1)
    else listing entry n (i + 1) fPos

/-- Hand the entries over until `filldir` returns a nonzero code: the position
reached, the state of `filldir` and the code of `sfs_list`. -/
def feed {δ : Type} (filldir : δ → Dirent → δ × ℤ) : List Dirent → ℕ → δ → ℕ × δ × ℤ
  | [], fPos, d => (fPos, d, 0)
  | e :: es, fPos, d =>
    if (filldir d e).2 ≠ 0 then (fPos, (filldir d e).1, 1)
    else feed filldir es (fPos + 1) (filldir d e).1

/-- The slots with a name among `n` from slot `i` on. -/
def namedSlots (entry : ℕ → SfsFileEntry) (n i : ℕ) : List ℕ :=
  (List.range' i n).filter fun j => (entry j).Named

theorem mem_namedSlots {entry : ℕ → SfsFileEntry} {n i j : ℕ} :
    j ∈ namedSlots entry n i ↔ (i ≤ j ∧ j < i + n) ∧ (entry j).Named := by
  simp [namedSlots, List.mem_range'_1]

/-- What is listed are the names and inode numbers of the named slots. -/
theorem listing_map (entry : ℕ → SfsFileEntry) (n i fPos : ℕ) :
    (listing entry n i fPos).map (fun e => (e.name, e.ino)) =
      (namedSlots entry n i).map fun j => ((entry j).cname, (j : ℤ) + 1) := by
  induction n generalizing i fPos with
  | zero => rfl
  | succ n ih =>
    have ht : ∀ f, (listing entry n (i + 1) f).map (fun e => (e.name, e.ino)) =
        (namedSlots entry n (i + 1)).map fun j => ((entry j).cname, (j : ℤ) + 1) := ih (i + 1)
    rw [listing, namedSlots, List.range'_succ, List.filter_cons]
    by_cases hn : (entry i).Named
    · simp only [hn, ↓reduceIte, List.map_cons, decide_true, ht, namedSlots]
      rfl
    · simp only [hn, ↓reduceIte, decide_false, Bool.false_eq_true, ht, namedSlots]

theorem length_listing (entry : ℕ → SfsFileEntry) (n i fPos : ℕ) :
    (listing entry n i fPos).length = (namedSlots entry n i).length := by
  simpa using congrArg List.length (listing_map entry n i fPos)

variable {κ : Kernel} {m : Mount}

theorem sfsListLoop_eq {δ : Type} (filldir : δ → Dirent → δ × ℤ) (hκ : κ.Reliable)
    (hg : Geometry m.sb) (n i : ℕ) (hn : i + n = m.sb.entryCount.toNat) (fPos : ℕ) (d : δ) :
    ∃ c, sfsListLoop κ filldir n i (m.tick i) fPos d =
      (m.tick c, feed filldir (listing (entryAt m.dev) n i fPos) fPos d) := by
  induction n generalizing i fPos d with
  | zero => exact ⟨i, rfl⟩
  | succ n ih =>
    rw [sfsListLoop, readEntry_tick hκ.toSound hg (by omega), if_pos (hκ.bread _ _), listing]
    by_cases hnm : (entryAt m.dev i).Named
    · simp only [hnm, ↓reduceIte, feed]
      split_ifs with hc
      · exact ⟨i + 1, rfl⟩
      · exact ih (i + 1) (by omega) _ _
    · simp only [hnm, ↓reduceIte]
      exact ih (i + 1) (by omega) _ _

/-- `sfs_list` feeds the listing of the table. -/
theorem sfsList_eq {δ : Type} (filldir : δ → Dirent → δ × ℤ) (hκ : κ.Reliable)
    (hg : Geometry m.sb) (fPos : ℕ) (d : δ) : ∃ c, sfsList κ filldir m fPos d =
      (m.tick c, feed filldir (listing (entryAt m.dev) m.sb.entryCount.toNat 0 fPos) fPos d) :=
  sfsListLoop_eq filldir hκ hg _ 0 (Nat.zero_add _) fPos d

/-- Keep every entry and never report a full buffer. -/
def collect (es : List Dirent) (e : Dirent) : List Dirent × ℤ := (es ++ [e], 0)

theorem feed_collect (es : List Dirent) (fPos : ℕ) (d : List Dirent) :
    feed collect es fPos d = (fPos + es.length, d ++ es, 0) := by
  induction es generalizing fPos d with
  | nil => simp [feed]
  | cons e es ih =>
    rw [feed, if_neg (by simp [collect]), ih]
    simp only [collect, List.append_assoc, List.singleton_append, List.length_cons, Prod.mk.injEq,
      and_true]
    omega

end Linuxpedia.Sfs
