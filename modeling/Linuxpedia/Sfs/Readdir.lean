import Linuxpedia.Sfs.Listing

/-! Reading the directory in several calls. `sfs_readdir` resumes at `f_pos`, but
`sfs_list` restarts its scan and runs at `f_pos` 2 only, so everything that does
not fit the first call with room for a file is never listed. The listing is
complete exactly when all files fit that call. -/

namespace Linuxpedia.Sfs

open Lib

/-- A `filldir` with room for some more entries, and the entries it took. -/
def fill (d : ℕ × List Dirent) (e : Dirent) : (ℕ × List Dirent) × ℤ :=
  match d.1 with
  | 0 => (d, 1)
  | n + 1 => ((n, d.2 ++ [e]), 0)

theorem feed_fill (es : List Dirent) (fPos k : ℕ) (acc : List Dirent) :
    feed fill es fPos (k, acc) = (fPos + min k es.length, (k - es.length, acc ++ es.take k),
      if k < es.length then 1 else 0) := by
  induction es generalizing fPos k acc with
  | nil => simp [feed]
  | cons e es ih =>
    unfold feed
    cases k with
    | zero => simp [fill]
    | succ k =>
      rw [if_neg (by simp [fill])]
      simp only [fill, ih, List.length_cons, List.take_succ_cons, List.append_assoc,
        List.singleton_append, Nat.add_lt_add_iff_right, Nat.add_sub_add_right, Prod.mk.injEq,
        and_true]
      omega

/-- Calls of `sfs_readdir` on one open directory: the mount, `f_pos` and what the
last call emitted, after `n` calls of which call `j` has room for `cap j`. -/
def readdirCalls (κ : Kernel) (root parent : ℤ) (cap : ℕ → ℕ) (m : Mount) :
    ℕ → Mount × ℕ × List Dirent
  | 0 => (m, 0, [])
  | n + 1 =>
    let s := readdirCalls κ root parent cap m n
    let r := sfsReaddir κ fill root parent s.1 s.2.1 (cap n, [])
    (r.1, r.2.1, r.2.2.1.2)

/-- What call `n` emits. -/
def emitted (κ : Kernel) (root parent : ℤ) (cap : ℕ → ℕ) (m : Mount) (n : ℕ) : List Dirent :=
  (readdirCalls κ root parent cap m (n + 1)).2.2

/-- `.`, `..` and the named entries, as names with inode numbers. -/
def expected (root parent : ℤ) (m : Mount) : List (List UInt8 × ℤ) :=
  ([46], root) :: ([46, 46], parent) ::
    (namedSlots (entryAt m.dev) m.sb.entryCount.toNat 0).map
      fun j => ((entryAt m.dev j).cname, (j : ℤ) + 1)

/-- Calling until a call emits nothing emits each expected entry exactly once. -/
def Enumerates (κ : Kernel) (root parent : ℤ) (cap : ℕ → ℕ) (m : Mount) : Prop :=
  ∃ n, emitted κ root parent cap m n = [] ∧ (∀ j < n, emitted κ root parent cap m j ≠ []) ∧
    (((List.range n).flatMap (emitted κ root parent cap m)).map fun e => (e.name, e.ino)).Perm
      (expected root parent m)

/-- The room for files of the first call that has any. -/
def listRoom (cap : ℕ → ℕ) : ℕ :=
  if cap 0 = 1 then if cap 1 = 1 then cap 2 else cap 1 - 1
  else if cap 0 = 2 then cap 1 else cap 0 - 2

section Calls

variable {κ : Kernel} {m : Mount} (root parent : ℤ)

/-- The files in the order of their slots, the first one at position 2. -/
def fileList (m : Mount) : List Dirent := listing (entryAt m.dev) m.sb.entryCount.toNat 0 2

theorem fileList_map (m : Mount) : (fileList m).map (fun e => (e.name, e.ino)) =
    (namedSlots (entryAt m.dev) m.sb.entryCount.toNat 0).map
      fun j => ((entryAt m.dev j).cname, (j : ℤ) + 1) := listing_map _ _ _ _

@[simp] theorem fileList_tick (m : Mount) (n : ℕ) : fileList (m.tick n) = fileList m := rfl

section

variable (hκ : κ.Reliable) (hg : Geometry m.sb)

include hκ hg

theorem sfsList_fill (k : ℕ) (acc : List Dirent) : ∃ t r, r ≠ -1 ∧ sfsList κ fill m 2 (k, acc) =
    (m.tick t, 2 + min k (fileList m).length,
      (k - (fileList m).length, acc ++ (fileList m).take k), r) := by
  obtain ⟨t, ht⟩ := sfsList_eq fill hκ hg 2 (k, acc)
  rw [feed_fill] at ht
  refine ⟨t, _, ?_, ht⟩
  split_ifs <;> decide

/-- A call at position 2 lists what it has room for. -/
theorem readdir_two (k : ℕ) : ∃ t r, sfsReaddir κ fill root parent m 2 (k, []) =
    (m.tick t, 2 + min k (fileList m).length,
      (k - (fileList m).length, (fileList m).take k), r) := by
  obtain ⟨t, r, hr, hl⟩ := sfsList_fill hκ hg k []
  refine ⟨t, 1, ?_⟩
  simp [sfsReaddir, hl, hr]

/-- A call at position 1 emits `..` first. -/
theorem readdir_one (k : ℕ) : ∃ t r, sfsReaddir κ fill root parent m 1 (k + 1, []) =
    (m.tick t, 2 + min k (fileList m).length,
      (k - (fileList m).length, ⟨[46, 46], 1, parent⟩ :: (fileList m).take k), r) := by
  obtain ⟨t, r, hr, hl⟩ := sfsList_fill hκ hg k [⟨[46, 46], 1, parent⟩]
  refine ⟨t, 1, ?_⟩
  simp [sfsReaddir, fill, hl, hr]

/-- A call at position 0 with room for two entries emits `.` and `..` first. -/
theorem readdir_zero (k : ℕ) : ∃ t r, sfsReaddir κ fill root parent m 0 (k + 2, []) =
    (m.tick t, 2 + min k (fileList m).length, (k - (fileList m).length,
      ⟨[46], 0, root⟩ :: ⟨[46, 46], 1, parent⟩ :: (fileList m).take k), r) := by
  obtain ⟨t, r, hr, hl⟩ := sfsList_fill hκ hg k [⟨[46], 0, root⟩, ⟨[46, 46], 1, parent⟩]
  refine ⟨t, 1, ?_⟩
  simp [sfsReaddir, fill, hl, hr]

end

/-- One more call on the directory. -/
theorem calls_step {cap : ℕ → ℕ} {n p p' c : ℕ} {r : ℤ} {m' m'' : Mount} {es es' : List Dirent}
    (h : readdirCalls κ root parent cap m n = (m', p, es))
    (hr : sfsReaddir κ fill root parent m' p (cap n, []) = (m'', p', (c, es'), r)) :
    readdirCalls κ root parent cap m (n + 1) = (m'', p', es') ∧
      emitted κ root parent cap m n = es' := by
  have hcalls : readdirCalls κ root parent cap m (n + 1) = (m'', p', es') := by
    simp only [readdirCalls, h, hr]
  refine ⟨hcalls, ?_⟩
  unfold emitted
  rw [hcalls]

theorem readdir_dot {c : ℕ} (hc : c = 1) : sfsReaddir κ fill root parent m 0 (c, []) =
    (m, 1, (0, [⟨[46], 0, root⟩]), 0) := by
  subst hc
  simp [sfsReaddir, fill]

/-- Past position 2 nothing is emitted. -/
theorem readdir_past {p : ℕ} (hp : 2 < p) (c : ℕ) :
    sfsReaddir κ fill root parent m p (c, []) = (m, p, (c, []), 0) := by
  have h0 : p ≠ 0 := by omega
  have h1 : p ≠ 1 := by omega
  have h2 : p ≠ 2 := by omega
  simp [sfsReaddir, h0, h1, h2]

end Calls

section Enumerate

variable {κ : Kernel} {m : Mount} {root parent : ℤ} {cap : ℕ → ℕ}

/-- The calls stop at the first one that emits nothing. -/
theorem enumerates_iff {n : ℕ} {es : List Dirent} (h0 : emitted κ root parent cap m n = [])
    (hpre : ∀ j < n, emitted κ root parent cap m j ≠ [])
    (hes : (List.range n).flatMap (emitted κ root parent cap m) = es) :
    Enumerates κ root parent cap m ↔
      (es.map fun e => (e.name, e.ino)).Perm (expected root parent m) := by
  constructor
  · rintro ⟨l, hl, hlpre, hperm⟩
    have hln : l = n := by
      rcases Nat.lt_trichotomy l n with h | h | h
      · exact absurd hl (hpre l h)
      · exact h
      · exact absurd h0 (hlpre n h)
    subst hln
    rwa [hes] at hperm
  · intro hperm
    exact ⟨n, h0, hpre, by rwa [hes]⟩

/-- `.`, `..` and the first `k` files are everything exactly when there are no more
than `k` files. -/
theorem perm_expected_iff (root parent : ℤ) (k : ℕ) :
    (((⟨[46], 0, root⟩ :: ⟨[46, 46], 1, parent⟩ :: (fileList m).take k : List Dirent)).map
      fun e => (e.name, e.ino)).Perm (expected root parent m) ↔ (fileList m).length ≤ k := by
  have hex : expected root parent m = ([46], root) :: ([46, 46], parent) ::
      (fileList m).map fun e => (e.name, e.ino) := by
    rw [fileList_map]
    rfl
  rw [hex]
  constructor
  · intro hperm
    have hlen := hperm.length_eq
    simp only [List.length_map, List.length_cons, List.length_take] at hlen
    omega
  · intro hk
    rw [List.take_of_length_le hk]
    exact List.Perm.refl _

/-- The call after the listing emits nothing. -/
theorem emitted_after (hκ : κ.Reliable) (hg : Geometry m.sb) {n t k : ℕ} {es : List Dirent}
    (h : readdirCalls κ root parent cap m n = (m.tick t, 2 + min k (fileList m).length, es))
    (hk : 1 ≤ k) : emitted κ root parent cap m n = [] := by
  by_cases hn : (fileList m).length = 0
  · rw [hn, Nat.min_zero] at h
    obtain ⟨u, r, hr⟩ := readdir_two (m := m.tick t) root parent hκ hg (cap n)
    rw [(calls_step root parent h hr).2, fileList_tick, List.eq_nil_of_length_eq_zero hn,
      List.take_nil]
  · exact (calls_step root parent h (readdir_past root parent (by omega) (cap n))).2

/-- All is listed when call `n` is the first with room for files. -/
theorem enumerates_from (hκ : κ.Reliable) (hg : Geometry m.sb) {n t k : ℕ} {es : List Dirent}
    (hk : 1 ≤ k) (h : readdirCalls κ root parent cap m n =
      (m.tick t, 2 + min k (fileList m).length, es))
    (hpre : ∀ j < n, emitted κ root parent cap m j ≠ [])
    (hes : (List.range n).flatMap (emitted κ root parent cap m) =
      ⟨[46], 0, root⟩ :: ⟨[46, 46], 1, parent⟩ :: (fileList m).take k) :
    Enumerates κ root parent cap m ↔ (fileList m).length ≤ k := by
  rw [enumerates_iff (emitted_after hκ hg h hk) hpre hes]
  exact perm_expected_iff root parent k

/-- A call at position 2, when the calls before it emitted `.` and `..` only. -/
theorem enumerates_from_two (hκ : κ.Reliable) (hg : Geometry m.sb) {n t : ℕ} {es : List Dirent}
    (hcap : 1 ≤ cap n) (h : readdirCalls κ root parent cap m n = (m.tick t, 2, es))
    (hpre : ∀ j < n, emitted κ root parent cap m j ≠ [])
    (hes : (List.range n).flatMap (emitted κ root parent cap m) =
      [⟨[46], 0, root⟩, ⟨[46, 46], 1, parent⟩]) :
    Enumerates κ root parent cap m ↔ (fileList m).length ≤ cap n := by
  obtain ⟨u, r, hr⟩ := readdir_two (m := m.tick t) root parent hκ hg (cap n)
  obtain ⟨hcall, hem⟩ := calls_step root parent h hr
  rw [fileList_tick, Mount.tick_tick] at hcall
  rw [fileList_tick] at hem
  by_cases hz : (fileList m).length = 0
  · have hnil : fileList m = [] := List.eq_nil_of_length_eq_zero hz
    rw [hnil, List.take_nil] at hem
    rw [enumerates_iff hem hpre hes, ← perm_expected_iff root parent, hnil,
      List.take_nil]
  · apply enumerates_from hκ hg hcap hcall
    · intro j hj
      rcases Nat.lt_succ_iff_lt_or_eq.mp hj with hjn | rfl
      · exact hpre j hjn
      · rw [hem]
        intro hnil
        have hlen := congrArg List.length hnil
        simp only [List.length_take, List.length_nil] at hlen
        omega
    · rw [List.range_succ, List.flatMap_append, hes, List.flatMap_singleton, hem]
      rfl

/-- The directory is enumerated exactly when all its files fit the first call that
has room for any, whatever the calls have room for. -/
theorem readdir_enumerates_iff (hκ : κ.Reliable) (hg : Geometry m.sb) (hcap : ∀ n, 1 ≤ cap n) :
    Enumerates κ root parent cap m ↔
      (namedSlots (entryAt m.dev) m.sb.entryCount.toNat 0).length ≤ listRoom cap := by
  have hlen : (fileList m).length =
      (namedSlots (entryAt m.dev) m.sb.entryCount.toNat 0).length := length_listing _ _ _ _
  have hzero : readdirCalls κ root parent cap m 0 = (m.tick 0, 0, []) := rfl
  rw [← hlen]
  unfold listRoom
  by_cases h0 : cap 0 = 1
  · obtain ⟨hcall, hem⟩ := calls_step root parent hzero (readdir_dot root parent h0)
    obtain ⟨k, hk⟩ := Nat.exists_eq_add_of_le' (hcap 1)
    obtain ⟨u, r, hr⟩ := readdir_one (m := m.tick 0) root parent hκ hg k
    rw [← hk] at hr
    obtain ⟨hcall1, hem1⟩ := calls_step root parent hcall hr
    have hpre : ∀ j < 2, emitted κ root parent cap m j ≠ [] := by
      intro j hj
      cases j with
      | zero => simp [hem]
      | succ j =>
        obtain rfl : j = 0 := by omega
        simp [hem1]
    have hes : (List.range 2).flatMap (emitted κ root parent cap m) =
        ⟨[46], 0, root⟩ :: ⟨[46, 46], 1, parent⟩ :: (fileList m).take k := by
      simp [List.range_succ, hem, hem1]
    rw [if_pos h0]
    split_ifs with h1
    · obtain rfl : k = 0 := by omega
      rw [Nat.zero_min] at hcall1
      exact enumerates_from_two hκ hg (hcap 2) hcall1 hpre hes
    · obtain rfl : k = cap 1 - 1 := by omega
      exact enumerates_from hκ hg (by omega) hcall1 hpre hes
  · obtain ⟨k, hk⟩ := Nat.exists_eq_add_of_le' (m := 2) (n := cap 0) (by have := hcap 0; omega)
    obtain ⟨u, r, hr⟩ := readdir_zero (m := m.tick 0) root parent hκ hg k
    rw [← hk] at hr
    obtain ⟨hcall, hem⟩ := calls_step root parent hzero hr
    have hpre : ∀ j < 1, emitted κ root parent cap m j ≠ [] := by
      intro j hj
      obtain rfl : j = 0 := by omega
      simp [hem]
    have hes : (List.range 1).flatMap (emitted κ root parent cap m) =
        ⟨[46], 0, root⟩ :: ⟨[46, 46], 1, parent⟩ :: (fileList m).take k := by
      simp [hem]
    rw [if_neg h0]
    split_ifs with h2
    · obtain rfl : k = 0 := by omega
      rw [Nat.zero_min] at hcall
      exact enumerates_from_two hκ hg (hcap 1) hcall hpre hes
    · obtain rfl : k = cap 0 - 2 := by omega
      exact enumerates_from hκ hg (by omega) hcall hpre hes

end Enumerate

/-- The small device with two files. -/
def sampleDir : Mount :=
  Run.exec (step sampleKernel) sampleMount [.create [97] 7 0, .create [98] 7 0]

theorem sampleDir_geometry : Geometry sampleDir.sb :=
  (show sampleDir.Sane from LegalRun.sane sampleKernel_reliable
    (sampleMount_mounted.fresh sampleKernel_reliable).sane ⟨trivial, trivial, trivial⟩).wf.geometry

/-- With room for four entries a call, two files are listed. -/
theorem readdir_enumerates_sample : Enumerates sampleKernel 0 0 (fun _ => 4) sampleDir :=
  (readdir_enumerates_iff sampleKernel_reliable sampleDir_geometry fun _ => Nat.le_add_left 1 3).mpr
    (by decide +kernel)

/-- With room for three entries a call, the second of two files is never listed. -/
theorem readdir_not_enumerates : (∀ n, 1 ≤ (fun _ : ℕ => 3) n) ∧
    ¬ Enumerates sampleKernel 0 0 (fun _ => 3) sampleDir := by
  have hlast : emitted sampleKernel 0 0 (fun _ => 3) sampleDir 1 = [] := by decide +kernel
  have hpre : ∀ j < 1, emitted sampleKernel 0 0 (fun _ => 3) sampleDir j ≠ [] := by decide +kernel
  refine ⟨fun _ => Nat.le_add_left 1 2, ?_⟩
  rw [enumerates_iff hlast hpre rfl]
  intro hperm
  have hlen := hperm.length_eq
  exact absurd hlen (by decide +kernel)

end Linuxpedia.Sfs
