import Linuxpedia.Sfs.Operations

/-! The driver on images that nobody vouches for. `init_browsing` looks at the magic
number only; the other fields of the super block and the pointers of the entries are
then used as bounds, indices and divisors. A mounted image is safe exactly when these
fields are what the driver takes them for. -/

namespace Linuxpedia.Sfs

open Lib

/-- `sb_bread` on a device of `n` blocks. -/
def Kernel.OnDevice (κ : Kernel) (n : ℕ) : Prop := ∀ c b, κ.bread c b = decide (b.toNat < n)

/-- A mount and the inode numbers that `sfs_lookup` returned on it. -/
structure Session where
  mount : Mount
  known : List ℤ

namespace Session

def step (κ : Kernel) (s : Session) (op : Op) : Session where
  mount := Sfs.step κ s.mount op
  known := match op with
    | .lookup fn => if (sfsLookup κ s.mount fn).2.1 = -1 then s.known
        else (sfsLookup κ s.mount fn).2.1 :: s.known
    | _ => s.known

/-- Lookups, removals, and calls for inode numbers that a lookup returned. -/
def Offered (s : Session) : Op → Prop
  | .create _ _ _ => False
  | .lookup _ => True
  | .remove _ => True
  | .getBlock ino _ _ => ino ∈ s.known
  | .update ino _ _ _ => ino ∈ s.known

end Session

/-- The sequence `ops` can be called on `s`. -/
def Session.Run (κ : Kernel) (s : Session) (ops : List Op) : Prop :=
  Run.Along (Session.step κ) Session.Offered s ops

/-- The driver is safe on the device: it refuses it, or mounts it with every access
in range, and no sequence of calls then makes an access out of range or divides by
zero. Faults stay recorded, so it is enough to look at the end. -/
def DriverSafe (κ : Kernel) (dev : Store) : Prop :=
  (initBrowsing κ (kzallocInfo dev)).2 < 0 ∨
    (initBrowsing κ (kzallocInfo dev)).2 = 0 ∧
      (initBrowsing κ (kzallocInfo dev)).1.usedBlocks.fault = false ∧
      ∀ ops, Session.Run κ ⟨(initBrowsing κ (kzallocInfo dev)).1, []⟩ ops →
        (Run.exec (Session.step κ) ⟨(initBrowsing κ (kzallocInfo dev)).1, []⟩
          ops).mount.usedBlocks.fault = false

/-- What the driver relies on in an entry with a name: a block size that divides and
leaves a block count an `int`, and pointers into the partition. -/
def EntryOk (sb : SfsSuperBlock) (fe : SfsFileEntry) : Prop :=
  2 ≤ sb.blockSize.toNat ∧ ∀ k, fe.blocks k ≠ 0 → (fe.blocks k).toNat < sb.partitionSize.toNat

instance (sb : SfsSuperBlock) (fe : SfsFileEntry) : Decidable (EntryOk sb fe) :=
  inferInstanceAs (Decidable (_ ∧ _))

/-- What the driver relies on in an image. -/
structure TrustedImage (dev : Store) : Prop where
  start_le : (SfsSuperBlock.ofBytes dev).dataBlockStart.toNat ≤
    (SfsSuperBlock.ofBytes dev).partitionSize.toNat
  small : (SfsSuperBlock.ofBytes dev).partitionSize.toNat ≤ 2 ^ 31
  entries : ∀ i < (SfsSuperBlock.ofBytes dev).entryCount.toNat,
    (rawEntry (.ofBytes dev) dev i).Named →
      EntryOk (.ofBytes dev) (rawEntry (.ofBytes dev) dev i)

/-! ### Trusted images -/

namespace Session

/-- The invariant of a session on a trusted image. -/
structure Safe (κ : Kernel) (s : Session) : Prop where
  readable : κ.Readable s.mount.sb
  start_le : s.mount.sb.dataBlockStart.toNat ≤ s.mount.sb.partitionSize.toNat
  small : s.mount.sb.partitionSize.toNat ≤ 2 ^ 31
  size : s.mount.usedBlocks.size = s.mount.sb.partitionSize.toNat
  fault : s.mount.usedBlocks.fault = false
  named : ∀ i < s.mount.table.count, (s.mount.table.entry i).Named →
    EntryOk s.mount.sb (s.mount.table.entry i)
  known : ∀ ino ∈ s.known, ∃ i : ℕ, i < s.mount.table.count ∧ ino = (i : ℤ) + 1 ∧
    EntryOk s.mount.sb (s.mount.table.entry i)

variable {κ : Kernel} {s : Session}

namespace Safe

theorem tick (h : s.Safe κ) (c : ℕ) : Safe κ ⟨s.mount.tick c, s.known⟩ :=
  ⟨h.readable, h.start_le, h.small, h.size, h.fault, h.named, h.known⟩

/-- Storing an entry with pointers into the partition. -/
theorem stored (h : s.Safe κ) {t : Buffer} (hsize : t.size = s.mount.usedBlocks.size)
    (hfault : t.fault = false) (c i : ℕ) {fe : SfsFileEntry}
    (hfe : fe.Named ∨ EntryOk s.mount.sb (s.mount.table.entry i) → EntryOk s.mount.sb fe) :
    Safe κ ⟨((s.mount.tick c).withUsed t).stored i fe, s.known⟩ := by
  have hent : ∀ j, (((s.mount.tick c).withUsed t).stored i fe).table.entry j =
      if s.mount.sb.slotAddr j = s.mount.sb.slotAddr i then fe else s.mount.table.entry j :=
    fun j => Mount.stored_entry _ i j fe
  refine ⟨h.readable, h.start_le, h.small, hsize.trans h.size, hfault, ?_, ?_⟩
  · intro j hj hn
    simp only [hent] at hn ⊢
    split_ifs at hn ⊢ with hji
    · exact hfe (Or.inl hn)
    · exact h.named j hj hn
  · intro ino hino
    obtain ⟨j, hj, rfl, hok⟩ := h.known ino hino
    refine ⟨j, hj, rfl, ?_⟩
    simp only [hent]
    split_ifs with hji
    · have he : s.mount.table.entry j = s.mount.table.entry i := rawEntry_congr hji s.mount.dev
      exact hfe (Or.inr (he ▸ hok))
    · exact hok

theorem lookup (h : s.Safe κ) (fn : List UInt8) : (s.step κ (.lookup fn)).Safe κ := by
  unfold Session.step
  cases hs : s.mount.table.slotOf fn with
  | none =>
    obtain ⟨c, hc⟩ := lookup_absent (κ := κ) hs
    simp only [Sfs.step, Op.run, hc, ↓reduceIte]
    exact h.tick c
  | some i =>
    obtain ⟨hi, ⟨hn, _⟩, _⟩ := Volume.slotOf_eq_some.mp hs
    have hne : ¬ (i : ℤ) + 1 = -1 := by omega
    simp only [Sfs.step, Op.run, lookup_found h.readable hs, if_neg hne]
    have ht := h.tick (i + 1)
    refine ⟨ht.readable, ht.start_le, ht.small, ht.size, ht.fault, ht.named, ?_⟩
    intro ino hino
    rcases List.mem_cons.mp hino with rfl | hold
    · exact ⟨i, hi, rfl, h.named i hi hn⟩
    · exact h.known ino hold

/-- In range: what the freeing loops index the table with. -/
theorem index_ok (h : s.Safe κ) {b : UInt32} (hb : b.toNat < s.mount.sb.partitionSize.toNat) :
    0 ≤ asInt b ∧ asInt b < s.mount.usedBlocks.size := by
  have hsmall := h.small
  have hsize := h.size
  rw [asInt_of_lt (by omega)]
  omega

theorem remove (h : s.Safe κ) (fn : List UInt8) : (s.step κ (.remove fn)).Safe κ := by
  unfold Session.step
  cases hs : s.mount.table.slotOf fn with
  | none =>
    obtain ⟨c, hc⟩ := remove_absent (κ := κ) hs
    simp only [Sfs.step, Op.run, hc]
    exact h.tick c
  | some i =>
    obtain ⟨hi, ⟨hn, _⟩, _⟩ := Volume.slotOf_eq_some.mp hs
    have hok := h.named i hi hn
    simp only [Sfs.step, Op.run, remove_found h.readable hs]
    apply h.stored (Buffer.size_clear _ _)
    · rw [Buffer.fault_clear]
      refine ⟨h.fault, fun b hb => h.index_ok ?_⟩
      obtain ⟨k, rfl, hk⟩ := Volume.mem_prefixPtrs_iff.mp hb
      exact hok.2 k (hk k (Nat.le_refl k))
    · exact fun _ => ⟨hok.1, fun k hk => absurd rfl hk⟩

theorem getBlock (h : s.Safe κ) {ino : ℤ} (hino : ino ∈ s.known) (iblock : ℕ) (create : Bool) :
    (s.step κ (.getBlock ino iblock create)).Safe κ := by
  obtain ⟨i, hi, rfl, hok⟩ := h.known ino hino
  have h31 : s.mount.usedBlocks.size ≤ 2 ^ 31 := by
    rw [h.size]
    exact h.small
  unfold Session.step
  simp only [Sfs.step, Op.run]
  rcases getBlock_cases h.readable hi h.start_le h.size h31 iblock create with
    ⟨c, hc⟩ | ⟨k, b, hb, hc⟩
  · rw [hc]
    exact h.tick c
  · rw [hc]
    apply h.stored (Buffer.size_take _ _) h.fault
    refine fun _ => ⟨hok.1, fun j hj => ?_⟩
    rw [Volume.point_blocks] at hj ⊢
    split_ifs at hj ⊢ with hjk
    · rw [UInt32.toNat_ofNat', Nat.mod_eq_of_lt (by omega), ← h.size]
      exact hb
    · exact hok.2 j hj

/-- The block count of a size is an `int` for blocks of two bytes and more. -/
theorem blockCount_nonneg {size blockSize : UInt32} (h2 : 2 ≤ blockSize.toNat) :
    0 ≤ asInt ((size + blockSize - 1) / blockSize) := by
  have hlt : ((size + blockSize - 1) / blockSize).toNat < 2 ^ 31 := by
    have hmax := (size + blockSize - 1).toNat_lt
    rw [UInt32.toNat_div]
    apply Nat.div_lt_of_lt_mul
    omega
  rw [asInt_of_lt hlt]
  omega

theorem update (h : s.Safe κ) {ino : ℤ} (hino : ino ∈ s.known) (size timestamp perms : Option ℤ) :
    (s.step κ (.update ino size timestamp perms)).Safe κ := by
  obtain ⟨i, hi, rfl, h2, hptr⟩ := h.known ino hino
  obtain ⟨t, hupd, hsize, hfault⟩ := update_stored h.readable hi size timestamp perms rfl rfl
  unfold Session.step
  simp only [Sfs.step, Op.run, hupd]
  apply h.stored hsize
  · rw [hfault]
    refine ⟨⟨h.fault, ?_, blockCount_nonneg h2⟩, fun b hb => h.index_ok ?_⟩
    · intro h0
      rw [h0] at h2
      exact absurd h2 (by decide)
    · obtain ⟨h0, k, _, rfl⟩ := SfsFileEntry.mem_dropped.mp hb
      exact hptr k h0
  · refine fun _ => ⟨h2, fun k hk => ?_⟩
    rw [Volume.keep_blocks] at hk ⊢
    split_ifs at hk ⊢ with hn
    · exact absurd rfl hk
    · exact hptr k hk

theorem step (h : s.Safe κ) {op : Op} (hop : s.Offered op) : (s.step κ op).Safe κ := by
  cases op with
  | create fn perms now => exact hop.elim
  | lookup fn => exact h.lookup fn
  | remove fn => exact h.remove fn
  | getBlock ino iblock create => exact h.getBlock hop iblock create
  | update ino size timestamp perms => exact h.update hop size timestamp perms

theorem run (h : s.Safe κ) {ops : List Op} (hr : s.Run κ ops) :
    (Run.exec (Session.step κ) s ops).Safe κ :=
  Run.exec_inv (fun _ _ hs hop => hs.step hop) h hr

end Safe

end Session

/-! ### Other images -/

section Fault

variable {κ : Kernel}

/-- Truncating to nothing frees every pointer, also one outside the partition. -/
theorem truncate_faults {m : Mount} {t : ℕ} (hR : κ.Readable m.sb) (ht : t < m.table.count)
    (hsize : m.usedBlocks.size = m.sb.partitionSize.toNat) (h2 : 2 ≤ m.sb.blockSize.toNat)
    {k : Fin 9} (hk0 : (m.table.entry t).blocks k ≠ 0)
    (hk : m.sb.partitionSize.toNat ≤ ((m.table.entry t).blocks k).toNat) :
    (sfsUpdate κ m ((t : ℤ) + 1) (some 0) none none).1.usedBlocks.fault ≠ false := by
  obtain ⟨u, hupd, _, hfault⟩ := update_stored hR ht (some 0) none none rfl rfl
  rw [hupd]
  change u.fault ≠ false
  intro hf
  obtain ⟨_, hdrop⟩ := hfault.mp hf
  have hq : asInt ((UInt32.ofInt 0 + m.sb.blockSize - 1) / m.sb.blockSize) = 0 := by
    have hz : ((UInt32.ofInt 0 + m.sb.blockSize - 1) / m.sb.blockSize).toNat = 0 := by
      have hlt := m.sb.blockSize.toNat_lt
      rw [UInt32.toNat_div, UInt32.toNat_sub, UInt32.toNat_add]
      apply Nat.div_eq_of_lt
      change (2 ^ 32 - 1 + (0 + m.sb.blockSize.toNat) % 2 ^ 32) % 2 ^ 32 < _
      omega
    rw [asInt_of_lt (by omega), hz]
    rfl
  have hmem : (m.table.entry t).blocks k ∈
      ((m.table.entry t).withAttrs (some 0) none none).dropped
        (asInt ((UInt32.ofInt 0 + m.sb.blockSize - 1) / m.sb.blockSize)).toNat :=
    SfsFileEntry.mem_dropped.mpr ⟨hk0, k, by rw [hq]; exact Nat.zero_le _, rfl⟩
  obtain ⟨h0, hlt⟩ := hdrop _ hmem
  rw [hsize] at hlt
  unfold asInt at h0 hlt
  split_ifs at h0 hlt with hneg
  · omega
  · have hmax := ((m.table.entry t).blocks k).toNat_lt
    omega

/-- With blocks of one byte the size -1 gives the block count -1, and with blocks of no
byte the count is a division by zero. -/
theorem negative_faults {m : Mount} {t : ℕ} (hR : κ.Readable m.sb) (ht : t < m.table.count)
    (h2 : m.sb.blockSize.toNat < 2) :
    (sfsUpdate κ m ((t : ℤ) + 1) (some (-1)) none none).1.usedBlocks.fault ≠ false := by
  obtain ⟨u, hupd, _, hfault⟩ := update_stored hR ht (some (-1)) none none rfl rfl
  rw [hupd]
  change u.fault ≠ false
  intro hf
  obtain ⟨⟨_, hne, hq⟩, _⟩ := hfault.mp hf
  have h1 : m.sb.blockSize = 1 := by
    apply UInt32.toNat_inj.mp
    have h0 : m.sb.blockSize.toNat ≠ 0 := fun h => hne (UInt32.toNat_inj.mp h)
    change m.sb.blockSize.toNat = 1
    omega
  rw [h1] at hq
  change 0 ≤ asInt ((UInt32.ofInt (-1) + 1 - 1) / 1) at hq
  exact absurd hq (by decide)

/-- Updating an entry that is not as the driver takes it makes a fault. -/
theorem update_faults {m : Mount} {t : ℕ} (hR : κ.Readable m.sb) (ht : t < m.table.count)
    (hsize : m.usedBlocks.size = m.sb.partitionSize.toNat)
    (hbad : ¬ EntryOk m.sb (m.table.entry t)) : ∃ size,
      (sfsUpdate κ m ((t : ℤ) + 1) (some size) none none).1.usedBlocks.fault ≠ false := by
  by_cases h2 : 2 ≤ m.sb.blockSize.toNat
  · have hptr : ∃ k, (m.table.entry t).blocks k ≠ 0 ∧
        m.sb.partitionSize.toNat ≤ ((m.table.entry t).blocks k).toNat := by
      by_contra hall
      push Not at hall
      exact hbad ⟨h2, hall⟩
    obtain ⟨k, hk0, hk⟩ := hptr
    exact ⟨0, truncate_faults hR ht hsize h2 hk0 hk⟩
  · exact ⟨-1, negative_faults hR ht (by omega)⟩

/-- Looking the name up makes its entry known, and an update of it then faults. -/
theorem lookup_update_faults {m : Mount} {t : ℕ} {fn : List UInt8} (known : List ℤ)
    (hR : κ.Readable m.sb) (hsize : m.usedBlocks.size = m.sb.partitionSize.toNat)
    (ht : m.table.slotOf fn = some t) (hbad : ¬ EntryOk m.sb (m.table.entry t)) :
    ∃ ops, Session.Run κ ⟨m, known⟩ ops ∧
      (Run.exec (Session.step κ) ⟨m, known⟩ ops).mount.usedBlocks.fault ≠ false := by
  obtain ⟨size, hfault⟩ := update_faults (m := m.tick (t + 1)) hR
    (Volume.slotOf_eq_some.mp ht).1 hsize hbad
  have hne : ¬ (t : ℤ) + 1 = -1 := by omega
  have hstep : Session.step κ ⟨m, known⟩ (.lookup fn) =
      ⟨m.tick (t + 1), ((t : ℤ) + 1) :: known⟩ := by
    unfold Session.step Sfs.step
    simp only [Op.run, lookup_found hR ht, if_neg hne]
  refine ⟨[.lookup fn, .update ((t : ℤ) + 1) (some size) none none], ?_, ?_⟩
  · refine ⟨trivial, ?_⟩
    rw [hstep]
    exact ⟨List.mem_cons_self, trivial⟩
  · rw [Run.exec_cons, hstep]
    exact hfault

/-- The mount after the name in slot `t` was removed. -/
def Mount.cleaned (m : Mount) (t : ℕ) : Mount :=
  ((m.tick (t + 1)).withUsed (m.usedBlocks.clear (m.table.entry t).prefixPtrs)).stored t .zero

theorem Mount.cleaned_entry (m : Mount) (t j : ℕ) : (m.cleaned t).table.entry j =
    if m.sb.slotAddr j = m.sb.slotAddr t then .zero else m.table.entry j :=
  Mount.stored_entry _ t j .zero

/-- Once the name was removed from slot `t` it leads to a later slot, if it is in one. -/
theorem Mount.cleaned_slotOf {m : Mount} {t s : ℕ} {fn : List UInt8} (ht : m.table.slotOf fn = some t)
    (hs : s < m.table.count)
    (hmatch : ((m.cleaned t).table.entry s).Named ∧ ((m.cleaned t).table.entry s).cname = fn) :
    ∃ u, (m.cleaned t).table.slotOf fn = some u ∧ t < u := by
  obtain ⟨u, hu⟩ : ∃ u, (m.cleaned t).table.slotOf fn = some u := by
    apply Option.ne_none_iff_exists'.mp
    intro hnone
    exact Volume.first_eq_none.mp hnone s hs hmatch
  refine ⟨u, hu, ?_⟩
  by_contra hle
  have hm := (Volume.slotOf_eq_some.mp hu).2.1
  rw [Mount.cleaned_entry] at hm
  split_ifs at hm with hut
  · exact SfsFileEntry.zero_not_named hm.1
  · have hut' : u ≠ t := fun he => hut (he ▸ rfl)
    exact (Volume.slotOf_eq_some.mp ht).2.2 u (by omega) hm

/-- From a mount on which a name leads to slot `t`, some calls make a fault when the
entry of that name in slot `s` is not as the driver takes it: the entries in front of
it are removed first. -/
theorem run_faults {s : ℕ} {fn : List UInt8} (d : ℕ) : ∀ {m : Mount} {t : ℕ}
    (known : List ℤ), κ.Readable m.sb → m.usedBlocks.size = m.sb.partitionSize.toNat →
    m.table.slotOf fn = some t → s ≤ t + d → s < m.table.count →
    (m.table.entry s).Named ∧ (m.table.entry s).cname = fn → ¬ EntryOk m.sb (m.table.entry s) →
    ∃ ops, Session.Run κ ⟨m, known⟩ ops ∧
      (Run.exec (Session.step κ) ⟨m, known⟩ ops).mount.usedBlocks.fault ≠ false := by
  induction d with
  | zero =>
    intro m t known hR hsize ht hst hs hmatch hbad
    have hts : t = s := by
      by_contra hne
      exact (Volume.slotOf_eq_some.mp ht).2.2 s (by omega) hmatch
    exact lookup_update_faults known hR hsize ht (hts ▸ hbad)
  | succ d ih =>
    intro m t known hR hsize ht hst hs hmatch hbad
    by_cases hok : EntryOk m.sb (m.table.entry t)
    · have hapart : m.sb.slotAddr s ≠ m.sb.slotAddr t := by
        intro he
        have hent : m.table.entry s = m.table.entry t := rawEntry_congr he m.dev
        exact hbad (hent ▸ hok)
      have hsent : (m.cleaned t).table.entry s = m.table.entry s := by
        rw [Mount.cleaned_entry, if_neg hapart]
      obtain ⟨u, hu, hlater⟩ := Mount.cleaned_slotOf ht hs (hsent ▸ hmatch)
      obtain ⟨ops, hrun, hfault⟩ := ih (m := m.cleaned t) known hR
        ((Buffer.size_clear _ _).trans hsize) hu (by omega) hs (hsent ▸ hmatch) (hsent ▸ hbad)
      have hstep : Session.step κ ⟨m, known⟩ (.remove fn) = ⟨m.cleaned t, known⟩ := by
        unfold Session.step Sfs.step
        simp only [Op.run, remove_found hR ht]
        rfl
      refine ⟨.remove fn :: ops, ⟨trivial, ?_⟩, ?_⟩
      · rw [hstep]
        exact hrun
      · rw [Run.exec_cons, hstep]
        exact hfault
    · exact lookup_update_faults known hR hsize ht hok

end Fault

/-! ### The equivalence -/

section Equivalence

variable {κ : Kernel} {n : ℕ} {dev : Store}

theorem Kernel.OnDevice.readable (hκ : κ.OnDevice n) (h : Mountable κ (kzallocInfo dev)) :
    κ.Readable (.ofBytes dev) := by
  intro c i hi
  obtain ⟨hin, hb⟩ := h.slots i hi
  rw [hκ] at hb
  exact ⟨hin, (hκ _ _).trans hb⟩

/-- Mounting makes no fault exactly when the marked blocks lie in the partition. -/
theorem mount_faults (mem : Store) {sb : SfsSuperBlock} {entry : ℕ → SfsFileEntry} :
    (markSlots entry sb.entryCount.toNat 0
      (freshTable sb.partitionSize.toNat sb.dataBlockStart.toNat mem)).fault = false ↔
      (sb.dataBlockStart.toNat ≤ sb.partitionSize.toNat ∧ sb.partitionSize.toNat ≤ 2 ^ 31) ∧
        ∀ i b, i < sb.entryCount.toNat → Mentions entry i b → b < sb.partitionSize.toNat := by
  rw [fault_markSlots, fault_freshTable sb.partitionSize.toNat_lt sb.dataBlockStart.toNat_lt,
    size_freshTable]
  refine and_congr_right fun _ => ?_
  constructor
  · exact fun h i b hi => h i b (Nat.zero_le i) (by omega)
  · exact fun h i b _ hi => h i b (by omega)

/-- The driver is safe on a device exactly when it refuses it or the image is what the
driver takes it for. -/
theorem driver_safe_iff (hκ : κ.OnDevice n) :
    DriverSafe κ dev ↔ (Mountable κ (kzallocInfo dev) → TrustedImage dev) := by
  unfold DriverSafe
  by_cases hm : Mountable κ (kzallocInfo dev)
  · have hR := hκ.readable hm
    obtain ⟨mem, hinit⟩ := hm.mounts rfl
    rw [hinit]
    set m : Mount := ⟨dev, .ofBytes dev, markSlots (rawEntry (.ofBytes dev) dev)
      (SfsSuperBlock.ofBytes dev).entryCount.toNat 0
      (freshTable (SfsSuperBlock.ofBytes dev).partitionSize.toNat
        (SfsSuperBlock.ofBytes dev).dataBlockStart.toNat mem),
      0 + 1 + (SfsSuperBlock.ofBytes dev).entryCount.toNat, []⟩ with hmdef
    have hsize : m.usedBlocks.size = m.sb.partitionSize.toNat := by
      rw [hmdef]
      simp only
      rw [size_markSlots, size_freshTable]
    change ((0 : ℤ) < 0 ∨ (0 : ℤ) = 0 ∧ m.usedBlocks.fault = false ∧
      ∀ ops, Session.Run κ ⟨m, []⟩ ops →
        (Run.exec (Session.step κ) ⟨m, []⟩ ops).mount.usedBlocks.fault = false) ↔ _
    constructor
    · rintro (h0 | ⟨_, hfault, hruns⟩) _
      · exact absurd h0 (lt_irrefl _)
      · obtain ⟨⟨hle, h31⟩, _⟩ := (mount_faults mem).mp hfault
        refine ⟨hle, h31, fun i hi hnamed => ?_⟩
        by_contra hbad
        obtain ⟨t, ht⟩ : ∃ t, m.table.slotOf (m.table.entry i).cname = some t := by
          apply Option.ne_none_iff_exists'.mp
          intro hnone
          exact Volume.first_eq_none.mp hnone i hi ⟨hnamed, rfl⟩
        obtain ⟨ops, hrun, hf⟩ := run_faults (s := i) i [] hR hsize ht (by omega) hi
          ⟨hnamed, rfl⟩ hbad
        exact hf (hruns ops hrun)
    · intro htrust
      have ht := htrust hm
      have hfault : m.usedBlocks.fault = false := by
        apply (mount_faults mem).mpr
        refine ⟨⟨ht.start_le, ht.small⟩, ?_⟩
        rintro i b hi ⟨hnamed, w, hw, rfl⟩
        obtain ⟨k, rfl, hk⟩ := Volume.mem_prefixPtrs_iff.mp hw
        exact (ht.entries i hi hnamed).2 k (hk k (Nat.le_refl k))
      have hsafe : Session.Safe κ ⟨m, []⟩ :=
        ⟨hR, ht.start_le, ht.small, hsize, hfault, ht.entries, fun ino h => by cases h⟩
      exact Or.inr ⟨rfl, hfault, fun ops hrun => (hsafe.run hrun).fault⟩
  · exact iff_of_true (Or.inl (initBrowsing_fails hm)) fun h => absurd h hm

end Equivalence

/-! ### On a device of ten blocks -/

/-- A kernel whose device has ten blocks of 512 bytes. -/
def deviceKernel : Kernel :=
  ⟨512, fun _ b => decide (b.toNat < 10), fun n => if n = 0 then none else some fun _ => 7⟩

/-- The device as the formatter leaves it. -/
def formattedImage : Store := formatRealSfs 5120 (fun _ => 9) fun _ => 5

theorem driver_safe_sample : DriverSafe deviceKernel formattedImage :=
  (driver_safe_iff (n := 10) fun _ _ => rfl).mpr fun _ =>
    ⟨by decide +kernel, by decide +kernel, by decide +kernel⟩

/-- The same device with a file `a` whose first pointer is block 5000. -/
def damagedImage : Store :=
  formattedImage.blit 512 64 (SfsFileEntry.toBytes { SfsFileEntry.fresh [97] 0 0 with
    blocks := Function.update (fun _ => 0) 0 5000 })

/-- It is mounted, with an access to `used_blocks[5000]`. -/
theorem driver_not_safe : deviceKernel.OnDevice 10 ∧ ¬ DriverSafe deviceKernel damagedImage := by
  have hcode : (initBrowsing deviceKernel (kzallocInfo damagedImage)).2 = 0 := by decide +kernel
  have hfault : (initBrowsing deviceKernel (kzallocInfo damagedImage)).1.usedBlocks.fault = true := by
    decide +kernel
  refine ⟨fun _ _ => rfl, ?_⟩
  rintro (hneg | ⟨_, hok, _⟩)
  · rw [hcode] at hneg
    exact absurd hneg (lt_irrefl _)
  · rw [hfault] at hok
    exact absurd hok (by decide)

end Linuxpedia.Sfs
