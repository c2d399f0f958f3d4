import Linuxpedia.RealFs.Hosts

/-! Killing the shell. A signal may end the shell at any system call of a command; what it
had in memory is lost and what it had written stays. The entry of a file is written last
and at once, and `sfs_write` writes only to blocks that no other file holds, so a command
that is killed is not begun, or done, or a write that leaves its file with the old entry
and other bytes in its blocks. -/

namespace Linuxpedia.RealFs

open Lib Sfs

/-! ### The shell up to a system call -/

section Source

variable (o : OffT)

/-- `sfs_write` up to the `n`-th `read` of the terminal and what is done with it. -/
def sfsWriteReads (s : Shell) (fn : List UInt8) (stdin : Stdin) (n : ℕ) : Shell × WriteVars :=
  match sfsLookup o s fn with
  | (s, i, fe) =>
    if i = -1 ∨ fe.perms &&& 2 = 0 then (s, ⟨stdin, fe, 0, 0, 0, 0, 0⟩)
    else sfsWriteLoop o n (putBlocks (List.ofFn fe.blocks) s)
      ⟨stdin, fe, 0, 0, s.sb.blockSize.toNat, 0, 0⟩

/-- Where a command is killed: before its first or after its last write to the device, or,
in `sfs_write`, after so many calls of `read` or before the entry is written. -/
inductive Point where
  | before
  | reading (n : ℕ)
  | entry
  | after

/-- The device that a command leaves when it is killed. -/
def Command.killed (s : Shell) : Command → Point → Store
  | c, .after => (step o s c).dev
  | .write fn stdin _, .reading n => (sfsWriteReads o s fn stdin n).1.dev
  | .write fn stdin _, .entry =>
    let r := sfsWriteReads o s fn stdin (stdin.flatten.length + 1)
    (writePartial o r.1 r.2).1.dev
  | _, _ => s.dev

end Source

/-! ### What a part of `sfs_write` spares -/

variable {o : OffT} {s t : Shell} {input : List UInt8}

/-- The device differs from that of the shell in bytes of `input`, in free blocks. -/
def Scribbles (input : List UInt8) (s : Shell) (dev : Store) : Prop := ∀ a, dev a = s.dev a ∨
  dev a ∈ input ∧ ∃ b ∈ s.free, 512 * b ≤ a ∧ a < 512 * b + 512

theorem Scribbles.trans {dev : Store} (h : Scribbles input s t.dev)
    (hfree : ∀ b ∈ t.free, b ∈ s.free) (h' : Scribbles input t dev) : Scribbles input s dev := by
  intro a
  rcases h' a with he | ⟨hin, b, hb, hab⟩
  · rw [he]
    exact h a
  · exact Or.inr ⟨hin, b, hfree b hb, hab⟩

/-- The first bytes of `block` and what is still to be read are of `input`. -/
structure Pending (input : List UInt8) (block : Store) (n : ℕ) (stdin : Stdin) : Prop where
  block : ∀ i < n, block i ∈ input
  rest : ∀ x ∈ stdin.flatten, x ∈ input

theorem Pending.read {block block' : Store} {off n got : ℕ} {stdin rest : Stdin}
    (h : Pending input block off stdin)
    (hread : readStdin block off n stdin = (block', got, rest)) :
    Pending input block' (off + got) rest := by
  cases stdin with
  | nil =>
    cases hread
    exact h
  | cons c cs =>
    have hc : ∀ x ∈ c, x ∈ input := fun x hx => h.rest x (List.mem_append_left _ hx)
    have hcs : ∀ x ∈ cs.flatten, x ∈ input := fun x hx => h.rest x (List.mem_append_right _ hx)
    cases hread
    constructor
    · intro i hi
      by_cases hlt : i < off
      · rw [Store.blit_outside _ _ (Or.inl hlt)]
        exact h.block i hlt
      · obtain ⟨j, rfl⟩ : ∃ j, i = off + j := ⟨i - off, by omega⟩
        rw [Store.blit_inside _ _ (by omega), List.getD_eq_getElem _ _ (by omega)]
        exact hc _ (List.getElem_mem _)
    · split_ifs
      · exact hcs
      · intro x hx
        rcases List.mem_append.mp hx with hx | hx
        · exact hc x (List.mem_of_mem_drop hx)
        · exact hcs x hx

/-- Only free blocks are written, with bytes of `input`, and less than a block of them waits
to be. -/
structure Spares (input : List UInt8) (s : Shell) (r : Shell × WriteVars) : Prop where
  wf : r.1.Wf
  sb : r.1.sb = s.sb
  free : ∀ b ∈ r.1.free, b ∈ s.free
  dev : Scribbles input s r.1.dev
  part : r.2.curReadI ≤ 512
  typed : Pending input r.1.block r.2.curReadI r.2.stdin

/-- A first step that spares what the others spare. -/
theorem Spares.after {r : Shell × WriteVars} (h : Spares input t r) (hsb : t.sb = s.sb)
    (hfree : ∀ b ∈ t.free, b ∈ s.free) (hdev : Scribbles input s t.dev) : Spares input s r :=
  ⟨h.wf, h.sb.trans hsb, fun b hb => hfree b (h.free b hb), hdev.trans hfree h.dev, h.part, h.typed⟩

/-- Where nothing was written. -/
theorem Spares.stay {r : Shell × WriteVars} (hs : r.1.Wf) (hsb : r.1.sb = s.sb)
    (hfree : r.1.free = s.free) (hdev : r.1.dev = s.dev) (hw : r.2.curReadI ≤ 512)
    (ht : Pending input r.1.block r.2.curReadI r.2.stdin) : Spares input s r :=
  ⟨hs, hsb, fun _ hb => hfree ▸ hb, fun a => Or.inl (congrFun hdev a), hw, ht⟩

theorem writeBlock_dev (hg : Geometry s.sb) {b : ℕ} (hb : b < 2 ^ 22) (n : ℕ) :
    ((s.seekSet o (UInt32.ofNat b * s.sb.blockSize)).writeBlock n).dev =
      s.dev.blit (512 * b) n s.block := by
  have hw : (UInt32.ofNat b).toNat = b := by
    rw [UInt32.toNat_ofNat', Nat.mod_eq_of_lt (by omega)]
  rw [seekBlock_eq hg (by rw [hw]; exact hb), hw]
  rfl

section Small

variable (hsmall : s.sb.partitionSize.toNat ≤ 2 ^ 22)

include hsmall

/-- Taking a free block and writing at most a block of typed bytes to it. -/
theorem Spares.block (hs : s.Wf) {b : ℕ} {bs : List ℕ} (hf : s.free = b :: bs) {n : ℕ}
    (hn : n ≤ 512) (hblock : ∀ i < n, s.block i ∈ input) {r : Shell × WriteVars}
    (h : Spares input (((s.withUsed (s.usedBlocks.take b)).seekSet o
      (UInt32.ofNat b * s.sb.blockSize)).writeBlock n) r) : Spares input s r := by
  have hmem : b ∈ s.free := by rw [hf]; exact List.mem_cons_self
  have hlt : b < 2 ^ 22 := by
    have hlt := (s.usedBlocks.mem_free.mp hmem).2.1
    rw [hs.size] at hlt
    omega
  refine h.after rfl (fun c hc => ?_) fun a => ?_
  · have hfree : (s.usedBlocks.take b).free s.sb.dataBlockStart.toNat = bs :=
      s.usedBlocks.free_take hf
    rw [hf]
    exact List.mem_cons_of_mem b (hfree ▸ hc)
  · have hdev := writeBlock_dev (o := o) (s := s.withUsed (s.usedBlocks.take b)) hs.geometry hlt n
    rw [Shell.withUsed_sb] at hdev
    rw [hdev]
    by_cases ha : 512 * b ≤ a ∧ a < 512 * b + n
    · obtain ⟨i, rfl⟩ := Nat.exists_eq_add_of_le ha.1
      rw [Store.blit_inside _ _ (by omega)]
      exact Or.inr ⟨hblock i (by omega), b, hmem, by omega⟩
    · exact Or.inl (Store.blit_outside _ _ (by omega))

/-- The loop of `sfs_write`, wherever it is left. -/
theorem sfsWriteLoop_spares (n : ℕ) (hs : s.Wf) {w : WriteVars} (hw : w.curReadI + w.toRead = 512)
    (ht : Pending input s.block w.curReadI w.stdin) :
    Spares input s (sfsWriteLoop o n s w) := by
  induction n generalizing s w with
  | zero => exact .stay hs rfl rfl rfl (show w.curReadI ≤ 512 by omega) ht
  | succ n ih =>
    obtain ⟨block, got, rest, hread⟩ : ∃ block got rest,
        readStdin s.block w.curReadI w.toRead w.stdin = (block, got, rest) := ⟨_, _, _, rfl⟩
    have hgot := readStdin_le hread
    have htyped := ht.read hread
    have hkept : Pending input block w.curReadI rest :=
      ⟨fun i hi => htyped.block i (by omega), htyped.rest⟩
    have hle : w.curReadI ≤ 512 := by omega
    have hwf : (s.withBlock block).Wf := ⟨hs.geometry, hs.size⟩
    have hbs : s.sb.blockSize.toNat = 512 := by
      rw [hs.geometry.blockSize_eq]
      rfl
    by_cases h0 : got = 0
    · subst h0
      rw [sfsWriteLoop_eof n hread]
      exact .stay hwf rfl rfl rfl hle hkept
    · by_cases hfull : got = w.toRead
      · subst hfull
        by_cases hk : w.blockI < 9
        · cases hf : (s.withBlock block).free with
          | nil =>
            rw [sfsWriteLoop_full n hread h0 hk (getDataBlock_none hwf hf)]
            exact .stay hwf rfl rfl rfl hle hkept
          | cons b bs =>
            rw [sfsWriteLoop_block n hread h0 hk (getDataBlock_some hwf hf) (by omega)]
            simp only [Shell.withUsed_sb, Shell.withBlock_sb, Shell.withBlock_usedBlocks, hbs,
              ofInt_natCast]
            refine (Spares.block (o := o) (s := s.withBlock block) hsmall hwf hf (le_refl 512)
              (fun i hi => htyped.block i (by omega)) ?_).after rfl (fun c hc => hc)
              fun _ => Or.inl rfl
            apply ih
            · exact hsmall
            · exact ⟨hs.geometry, hs.size⟩
            · exact Nat.zero_add 512
            · exact ⟨fun i hi => absurd hi (Nat.not_lt_zero i), htyped.rest⟩
        · rw [sfsWriteLoop_limit n hread h0 hk]
          exact .stay hwf rfl rfl rfl hle hkept
      · rw [sfsWriteLoop_part n hread h0 hfull]
        refine Spares.after (t := s.withBlock block) ?_ rfl (fun c hc => hc) fun _ => Or.inl rfl
        apply ih
        · exact hsmall
        · exact hwf
        · change w.curReadI + got + (w.toRead - got) = 512
          omega
        · exact htyped

/-- The partial block after the loop. -/
theorem writePartial_spares (hs : s.Wf) {w : WriteVars} (hw : w.curReadI ≤ 512)
    (ht : Pending input s.block w.curReadI w.stdin) : Spares input s (writePartial o s w) := by
  unfold writePartial
  by_cases hpart : w.curRead = 0 ∧ w.curReadI ≠ 0
  · rw [if_pos hpart]
    by_cases hk : w.blockI < 9
    · rw [dif_pos hk]
      cases hf : s.free with
      | nil =>
        rw [getDataBlock_none hs hf]
        exact .stay hs rfl rfl rfl hw ht
      | cons b bs =>
        have hne : UInt32.ofNat b ≠ UInt32.ofInt (-1) := ofNat_ne_neg_one (free_lt_size hs hf)
        rw [getDataBlock_some hs hf]
        simp only [ofInt_natCast, if_neg hne]
        apply Spares.block (o := o) hsmall hs hf hw ht.block
        exact .stay ⟨hs.geometry, hs.size⟩ rfl rfl rfl hw ht
    · rw [dif_neg hk]
      exact .stay hs rfl rfl rfl hw ht
  · rw [if_neg hpart]
    exact .stay hs rfl rfl rfl hw ht

end Small

/-! ### What a killed command leaves -/

/-- Where the file is missing or has no write permission `sfs_write` reads nothing. -/
theorem sfsWriteReads_refused (hg : Geometry s.sb) {fn : List UInt8}
    (h : ∀ i, s.volume.slotOf fn = some i → (s.volume.entry i).perms &&& 2 = 0) (stdin : Stdin)
    (n : ℕ) : (sfsWriteReads o s fn stdin n).1.dev = s.dev ∧
      (sfsWriteReads o s fn stdin n).2.curReadI = 0 := by
  unfold sfsWriteReads
  cases hi : s.volume.slotOf fn with
  | none =>
    rw [sfsLookup_absent hg hi]
    exact ⟨rfl, rfl⟩
  | some i =>
    have hw : (entryAt s.dev i).perms &&& 2 = 0 := h i hi
    rw [sfsLookup_found hg hi]
    simp only [hw, or_true, ↓reduceIte]
    exact ⟨rfl, trivial⟩

/-- The first reads of a write to slot `i`. -/
theorem sfsWriteReads_spares (hs : s.Wf) (hsmall : s.sb.partitionSize.toNat ≤ 2 ^ 22)
    {fn : List UInt8} {i : ℕ} (hi : s.volume.slotOf fn = some i)
    (hw : (s.volume.entry i).perms &&& 2 ≠ 0) (stdin : Stdin) (n : ℕ) :
    Spares stdin.flatten (s.withUsed (s.cleared i)) (sfsWriteReads o s fn stdin n) := by
  have hw : ¬ (entryAt s.dev i).perms &&& 2 = 0 := hw
  have hbs : s.sb.blockSize.toNat = 512 := by
    rw [hs.geometry.blockSize_eq]
    rfl
  unfold sfsWriteReads
  rw [sfsLookup_found hs.geometry hi]
  simp only [show ¬ (i : ℤ) = -1 by omega, hw, or_self, ↓reduceIte]
  rw [putBlocks_eq]
  refine Spares.after (t := (s.moved (512 + 64 * (i + 1)) s.block).withUsed (s.cleared i)) ?_ rfl
    (fun c hc => hc) fun _ => Or.inl rfl
  apply sfsWriteLoop_spares
  · exact hsmall
  · exact ⟨hs.geometry, (s.usedBlocks.size_clear _).trans hs.size⟩
  · change 0 + s.sb.blockSize.toNat = 512
    omega
  · exact ⟨fun j hj => absurd hj (Nat.not_lt_zero j), fun _ hx => hx⟩

/-- A write that is killed before it writes the entry puts typed bytes in blocks that are free
or its file's. -/
theorem killed_write (hs : s.Wf) (hsmall : s.sb.partitionSize.toNat ≤ 2 ^ 22) {fn : List UInt8}
    {i : ℕ} (hi : s.volume.slotOf fn = some i) (hw : (s.volume.entry i).perms &&& 2 ≠ 0)
    (stdin : Stdin) (now : UInt32) {p : Point} (hp : p ≠ .after) :
    Scribbles stdin.flatten (s.withUsed (s.cleared i))
      ((Command.write fn stdin now).killed o s p) := by
  have hreads := sfsWriteReads_spares (o := o) hs hsmall hi hw stdin
  cases p with
  | before => exact fun _ => Or.inl rfl
  | reading n => exact (hreads n).dev
  | entry =>
    have hr := hreads (stdin.flatten.length + 1)
    have hpartial := writePartial_spares (o := o) (by rw [hr.sb]; exact hsmall) hr.wf hr.part
      hr.typed
    exact hr.dev.trans hr.free hpartial.dev
  | after => exact absurd rfl hp

/-- Every other command writes nothing before it is done. -/
theorem killed_quiet (hg : Geometry s.sb) {c : Command} {p : Point} (hp : p ≠ .after)
    (hc : ∀ fn stdin now, c = .write fn stdin now →
      ∀ i, s.volume.slotOf fn = some i → (s.volume.entry i).perms &&& 2 = 0) :
    c.killed o s p = s.dev := by
  cases c with
  | write fn stdin now =>
    have hreads := sfsWriteReads_refused (o := o) hg (hc fn stdin now rfl) stdin
    cases p with
    | before => rfl
    | reading n => exact (hreads n).1
    | entry =>
      have hr := hreads (stdin.flatten.length + 1)
      simp only [Command.killed, writePartial, hr.2, ne_eq, not_true_eq_false, and_false,
        ↓reduceIte]
      exact hr.1
    | after => exact absurd rfl hp
  | _ =>
    cases p with
    | after => exact absurd rfl hp
    | _ => rfl

section Table

variable (h : Settled s) {dev : Store}
  (hdev : ∀ a < 512 * s.sb.dataBlockStart.toNat, dev a = s.dev a)

include h hdev

theorem Settled.same_withDev : s.volume.Same (s.withDev dev).volume := by
  have hfit := h.geometry.table_fits
  refine ⟨rfl, rfl, fun i hi => ?_, rfl, fun _ _ => rfl⟩
  have hlt : i < s.sb.entryCount.toNat := hi
  exact SfsFileEntry.ofBytes_congr fun j hj => hdev _ (by omega)

/-- A settled shell stays settled whatever is written behind the table. -/
theorem Settled.withDev : Settled (s.withDev dev) := by
  have hpos : 0 < s.sb.dataBlockStart.toNat := h.toWf.start_pos
  refine ⟨⟨⟨h.geometry, h.size⟩, ?_⟩, (h.same_withDev hdev).settled h.settled, h.fault, h.outside⟩
  exact (Shell.ofBytes_congr fun a ha => hdev a (by omega)).trans h.onDevice

end Table

namespace Serves

variable {sb : SfsSuperBlock} {F : Nodes} (h : Serves sb s F) {fn : List UInt8} {i : ℕ}

include h

/-- Where only free blocks and those of a file change, the files are the same but for its
bytes. -/
theorem scribble (hi : s.volume.slotOf fn = some i) {dev : Store}
    (hdev : Scribbles input (s.withUsed (s.cleared i)) dev) :
    Serves sb (s.withDev dev) (F.put fn (nodeAt dev (s.volume.file i))) := by
  have hlt := (Volume.live_of_slotOf hi).1
  have hrest : ∀ a, (∀ b ∈ s.freeFor i, a < 512 * b ∨ 512 * b + 512 ≤ a) → dev a = s.dev a := by
    intro a ha
    rcases hdev a with he | ⟨_, b, hb, hab⟩
    · exact he
    · have hout := ha b hb
      omega
  have htable : ∀ a < 512 * s.sb.dataBlockStart.toNat, dev a = s.dev a := by
    intro a ha
    refine hrest a fun b hb => ?_
    have hle := ((Buffer.mem_free _).mp hb).1
    omega
  have hset : Settled (s.withDev dev) := h.toSettled.withDev htable
  have hd : s.volume.dir = Function.update s.volume.dir fn (s.volume.dir fn) :=
    (Function.update_eq_self fn _).symm
  have hfile : s.volume.dir fn = some (s.volume.file i) := congrArg (Option.map _) hi
  have hserves := h.update hset rfl (h.toSettled.same_withDev htable) ⟨h.catalog, hd⟩
    fun b hb r hr => by
      obtain ⟨g, j, k, hg, hj, hk⟩ := hb
      refine hrest _ fun c hc => ?_
      have hne : c ≠ b := fun he => h.not_free hi hg hj hk (he ▸ hc)
      omega
  rw [hfile] at hserves
  exact hserves

end Serves

/-! ### Runs with kills -/

/-- A request, or a kill of the shell in a command. -/
inductive Incident where
  | ask (q : Request)
  | kill (c : Command) (p : Point)

/-- The partition after an incident, and the answer to a request. -/
def Host.suffer (κ : Kernel) : Host → Incident → Host × Option Answer
  | h, .ask q => ((h.step κ q).1, some (h.step κ q).2)
  | .shell s, .kill c p => (.idle (c.killed .bits32 s p), none)
  | h, .kill _ _ => (h, none)

/-- The file with bytes of `input` in its blocks. -/
structure Scribbled (input : List UInt8) (f g : Node) : Prop where
  size : g.size = f.size
  mode : g.mode = f.mode
  time : g.time = f.time
  block : ∀ k, g.block k = none ↔ f.block k = none
  bytes : ∀ k old new, f.block k = some old → g.block k = some new →
    ∀ r < 512, new.getD r 0 = old.getD r 0 ∨ new.getD r 0 ∈ input

namespace World

/-- What an incident does to the files. -/
inductive Suffers (cap : Capacity) : World → Incident → Option Answer → World → Prop
  | ask (w w' : World) (q : Request) (r : Answer) (h : Next cap w q r w') :
      Suffers cap w (.ask q) (some r) w'
  | undone (F : Nodes) (c : Command) (p : Point) (hp : p ≠ .after) :
      Suffers cap ⟨some .shell, F⟩ (.kill c p) none ⟨none, F⟩
  | scribbled (F : Nodes) (fn : List UInt8) (stdin : Stdin) (now : UInt32) (p : Point)
      (hp : p ≠ .after) (f g : Node) (hf : F fn = some f) (hw : f.mode &&& 0o222 ≠ 0)
      (hg : Scribbled stdin.flatten f g) :
      Suffers cap ⟨some .shell, F⟩ (.kill (.write fn stdin now) p) none ⟨none, F.put fn g⟩
  | done (F F' : Nodes) (c : Command) (out : List Output) (h : F.Command cap c out F') :
      Suffers cap ⟨some .shell, F⟩ (.kill c .after) none ⟨none, F'⟩
  | nobody (w : World) (c : Command) (p : Point) (h : w.program ≠ some .shell) :
      Suffers cap w (.kill c p) none w

/-- Nothing is asked of a command that is not brought to its end. -/
def AllowedIncident (cap : Capacity) (w : World) : Incident → Prop
  | .ask q => w.Allowed cap q
  | .kill c .after => w.Allowed cap (.command c)
  | .kill _ _ => True

end World

variable {κ : Kernel} {sb : SfsSuperBlock} {F : Nodes}

theorem Command.killed_after (c : Command) : c.killed o s .after = (step o s c).dev := by
  cases c <;> rfl

theorem scribbled_nodeAt {dev dev' : Store} (h : ∀ a, dev' a = dev a ∨ dev' a ∈ input) (f : File) :
    Scribbled input (nodeAt dev f) (nodeAt dev' f) := by
  refine ⟨rfl, rfl, rfl, fun k => ?_, fun k old new hold hnew r hr => ?_⟩
  · have hne : blockAt dev' f k ≠ none ↔ blockAt dev f k ≠ none := by
      rw [blockAt_ne_none, blockAt_ne_none]
    exact not_iff_not.mp hne
  · change blockAt dev f k = some old at hold
    change blockAt dev' f k = some new at hnew
    unfold blockAt at hold hnew
    split_ifs at hold hnew
    rw [← Store.apply_of_bytes _ (Option.some.inj hold) hr,
      ← Store.apply_of_bytes _ (Option.some.inj hnew) hr]
    exact h _

theorem Scribbled.tidy {f g : Node} (hg : Scribbled input f g) (ht : F.Tidy) {fn : List UInt8}
    (hf : F fn = some f) : (F.put fn g).Tidy := by
  obtain ⟨hsize, hblock⟩ := ht fn f hf
  refine ht.put (by rw [hg.size]; exact hsize) fun k hk => ?_
  rw [hg.size]
  exact hblock k fun h0 => hk ((hg.block k).mpr h0)

/-- A kill leaves the partition with files. -/
theorem Serves.kill (hs : Serves sb s F) (ht : F.Tidy) {c : Command} {p : Point}
    (hq : World.AllowedIncident sb.capacity ⟨some .shell, F⟩ (.kill c p)) :
    ∃ F', World.Suffers sb.capacity ⟨some .shell, F⟩ (.kill c p) none ⟨none, F'⟩ ∧
      Hosted sb F' (.idle (c.killed .bits32 s p)) ∧ F'.Tidy := by
  by_cases hp : p = .after
  · subst hp
    obtain ⟨F', hcommand, hserves⟩ := hs.run ht hq
    rw [Command.killed_after]
    exact ⟨F', .done F F' c _ hcommand, ⟨_, rfl, hserves.serves⟩, ht.command hcommand⟩
  · by_cases hc : ∀ fn stdin now, c = .write fn stdin now →
        ∀ i, s.volume.slotOf fn = some i → (s.volume.entry i).perms &&& 2 = 0
    · rw [killed_quiet hs.geometry hp hc]
      exact ⟨F, .undone F c p hp, ⟨s.mount, rfl, hs.serves⟩, ht⟩
    · push Not at hc
      obtain ⟨fn, stdin, now, rfl, i, hi, hw⟩ := hc
      have hdev := killed_write (o := .bits32) hs.toWf hs.small hi hw stdin now hp
      have hserves := hs.scribble hi hdev
      have hfile : F fn = some (nodeAt s.dev (s.volume.file i)) := by
        rw [← hs.serves.nodes]
        exact nodes_of_slot hi
      have hscribbled := scribbled_nodeAt (fun a => (hdev a).imp id And.left) (s.volume.file i)
      refine ⟨_, .scribbled F fn stdin now p hp _ _ hfile ?_ hscribbled, ⟨_, rfl, hserves.serves⟩,
        hscribbled.tidy ht hfile⟩
      exact fun hm => hw ((modeOfPerms_write _).mp hm)

/-- An incident does to the partition what it does to the files. -/
theorem Host.Tidy.suffer (hκ : κ.Reliable) (hsmall : sb.partitionSize.toNat ≤ 2 ^ 22) {h : Host}
    (hh : Host.Tidy sb h) {e : Incident} (he : h.world.AllowedIncident sb.capacity e) :
    Host.Tidy sb (h.suffer κ e).1 ∧
      World.Suffers sb.capacity h.world e (h.suffer κ e).2 (h.suffer κ e).1.world := by
  cases e with
  | ask q =>
    obtain ⟨htidy, hnext⟩ := hh.next hκ hsmall he
    exact ⟨htidy, .ask _ _ q _ hnext⟩
  | kill c p =>
    cases h with
    | idle dev => exact ⟨hh, .nobody _ c p fun hp => nomatch hp⟩
    | driver m => exact ⟨hh, .nobody _ c p fun hp => nomatch hp⟩
    | shell s =>
      obtain ⟨F, hF, ht⟩ := hh
      rw [hF.world] at he ⊢
      obtain ⟨F', hsuffers, hF', ht'⟩ := Serves.kill hF ht he
      refine ⟨⟨F', hF', ht'⟩, ?_⟩
      change World.Suffers sb.capacity _ _ _ (Host.idle (c.killed .bits32 s p)).world
      rw [hF'.world]
      exact hsuffers

/-- The incident may change the file `fn`. -/
def Incident.Changes (fn : List UInt8) : Incident → Prop
  | .ask q => q.Changes fn
  | .kill c _ => (Request.command c).Changes fn

theorem World.Suffers.keeps {cap : Capacity} {fn : List UInt8} {f : Node} {w w' : World}
    {e : Incident} {r : Option Answer} (h : w.Suffers cap e r w') (hf : w.files fn = some f)
    (he : ¬ e.Changes fn) : w'.files fn = some f := by
  cases h with
  | ask _ _ q r hnext => exact hnext.keeps hf he
  | scribbled F gn stdin now p hp g g' hg hw hs => exact put_keeps hf he _
  | done F F' c out hc => exact command_keeps hf hc he
  | _ => exact hf

/-- A file stays as it is while no incident may change it. -/
theorem Host.Tidy.suffer_keeps (hκ : κ.Reliable) (hsmall : sb.partitionSize.toNat ≤ 2 ^ 22)
    {h : Host} (hh : Host.Tidy sb h) {fn : List UInt8} {f : Node} (hf : h.world.files fn = some f)
    {incidents : List Incident}
    (hl : Run.Along (fun h e => (Host.suffer κ h e).1)
      (fun h e => h.world.AllowedIncident sb.capacity e) h incidents)
    (hkeep : ∀ e ∈ incidents, ¬ e.Changes fn) :
    Host.Tidy sb (Run.exec (fun h e => (Host.suffer κ h e).1) h incidents) ∧
      (Run.exec (fun h e => (Host.suffer κ h e).1) h incidents).world.files fn = some f := by
  have hstep : ∀ (h : Host) (e : Incident), Host.Tidy sb h ∧ h.world.files fn = some f →
      h.world.AllowedIncident sb.capacity e ∧ ¬ e.Changes fn →
      Host.Tidy sb (h.suffer κ e).1 ∧ (h.suffer κ e).1.world.files fn = some f := by
    rintro h e ⟨hh, hf⟩ ⟨he, hne⟩
    obtain ⟨hh', hsuffers⟩ := hh.suffer hκ hsmall he
    exact ⟨hh', hsuffers.keeps hf hne⟩
  exact Run.exec_inv hstep ⟨hh, hf⟩ (hl.and (Run.along_of_mem h hkeep))

/-- What the shell prints of a file. -/
theorem Serves.read_out (hs : Serves sb s F) {fn : List UInt8} {g : Node} (hg : F fn = some g) :
    (sfsRead .bits32 s fn).2 = [.text "File %s doesn't have read permissions\n" fn] ∨
      (sfsRead .bits32 s fn).2 = [.data g.text] := by
  obtain ⟨F', hread, _⟩ := hs.read fn
  generalize (sfsRead .bits32 s fn).2 = out at hread ⊢
  cases hread with
  | readRefused => exact Or.inl rfl
  | readFails _ hno =>
    rw [hg] at hno
    cases hno
  | read _ f hf _ =>
    rw [hg] at hf
    obtain rfl := Option.some.inj hf
    exact Or.inr rfl

/-- The text of a write that printed nothing is what the shell prints of the file after any
requests of the shell and the driver and any kills that leave the file alone, those of writes
to other files among them. -/
theorem text_survives_kills (hκ : κ.Reliable) {bytes : ℕ} (h512 : 512 ≤ bytes)
    (hP : bytes / 512 ≤ 2 ^ 22) (dev stack : Store) (pre post : List Incident) (fn : List UInt8)
    (stdin : Stdin) (now : UInt32)
    (hl : Run.Along (fun h e => (Host.suffer κ h e).1)
      (fun h e => h.world.AllowedIncident (formatSb bytes).capacity e)
      (.idle (formatRealSfs bytes dev stack))
      (pre ++ .ask (.command (.write fn stdin now)) :: post))
    (hw : ((Run.exec (fun h e => (Host.suffer κ h e).1) (.idle (formatRealSfs bytes dev stack))
      pre).step κ (.command (.write fn stdin now))).2 = .command [])
    (hpost : ∀ e ∈ post, ¬ e.Changes fn) {s : Shell}
    (hs : Run.exec (fun h e => (Host.suffer κ h e).1) (.idle (formatRealSfs bytes dev stack))
      (pre ++ .ask (.command (.write fn stdin now)) :: post) = .shell s) :
    (sfsRead .bits32 s fn).2 = [.text "File %s doesn't have read permissions\n" fn] ∨
      (sfsRead .bits32 s fn).2 = [.data (stdin.input.take
        ((Run.exec (fun h e => (Host.suffer κ h e).1) (.idle (formatRealSfs bytes dev stack))
          pre).world.files.kept (formatSb bytes).capacity fn stdin.input))] := by
  have hsmall := formatSb_le hP
  obtain ⟨hlpre, hlw, hlpost⟩ := (Run.along_append _ _ _ _ _).mp hl
  have hstep : ∀ (h : Host) (e : Incident), Host.Tidy (formatSb bytes) h →
      h.world.AllowedIncident (formatSb bytes).capacity e →
      Host.Tidy (formatSb bytes) (h.suffer κ e).1 := fun _ _ hh he => (hh.suffer hκ hsmall he).1
  have hpre := Run.exec_inv hstep (hostTidy_format h512 hP dev stack) hlpre
  set h₁ := Run.exec (fun h e => (Host.suffer κ h e).1) (.idle (formatRealSfs bytes dev stack)) pre
  have hallowed : World.Allowed (formatSb bytes).capacity h₁.world
      (.command (.write fn stdin now)) := hlw
  obtain ⟨hwrite, hnext⟩ := hpre.next hκ hsmall hallowed
  rw [Run.exec_append, Run.exec_cons] at hs
  obtain ⟨g, hg, hsize, _, _, htext⟩ := hnext.written hw
  have hend := hwrite.suffer_keeps hκ hsmall hg hlpost hpost
  rw [show Run.exec _ (h₁.next κ _) post = .shell s from hs] at hend
  obtain ⟨⟨F, hserves, _⟩, hfile⟩ := hend
  rw [hserves.world] at hfile
  rw [← hsize, ← htext]
  exact Serves.read_out hserves hfile

/-- A text is printed after the shell was killed in a write to another file. -/
theorem text_survives_kills_sample :
    ((Run.exec (fun h e => (Host.suffer sampleKernel h e).1)
      (.idle (formatRealSfs 5120 (fun _ => 9) fun _ => 5))
      ([.ask .start, .ask (.command (.create [97] 5)), .ask (.command (.create [98] 5))] ++
        .ask (.command (.write [97] [List.replicate 512 1] 6)) ::
          [.kill (.write [98] [List.replicate 512 2, [3]] 7) .entry, .ask .start])).step
      sampleKernel (.command (.read [97]))).2 =
        .command [.text "File %s doesn't have read permissions\n" [97]] ∨
    ((Run.exec (fun h e => (Host.suffer sampleKernel h e).1)
      (.idle (formatRealSfs 5120 (fun _ => 9) fun _ => 5))
      ([.ask .start, .ask (.command (.create [97] 5)), .ask (.command (.create [98] 5))] ++
        .ask (.command (.write [97] [List.replicate 512 1] 6)) ::
          [.kill (.write [98] [List.replicate 512 2, [3]] 7) .entry, .ask .start])).step
      sampleKernel (.command (.read [97]))).2 =
        .command [.data ((Stdin.input [List.replicate 512 1]).take
          ((Run.exec (fun h e => (Host.suffer sampleKernel h e).1)
          (.idle (formatRealSfs 5120 (fun _ => 9) fun _ => 5))
          [.ask .start, .ask (.command (.create [97] 5)),
            .ask (.command (.create [98] 5))]).world.files.kept (formatSb 5120).capacity [97]
          (Stdin.input [List.replicate 512 1])))] := by
  obtain ⟨s, hs⟩ := Host.eq_shell (h := Run.exec (fun h e => (Host.suffer sampleKernel h e).1)
    (.idle (formatRealSfs 5120 (fun _ => 9) fun _ => 5))
    ([.ask .start, .ask (.command (.create [97] 5)), .ask (.command (.create [98] 5))] ++
      .ask (.command (.write [97] [List.replicate 512 1] 6)) ::
        [.kill (.write [98] [List.replicate 512 2, [3]] 7) .entry, .ask .start]))
    (by decide +kernel)
  have hread := text_survives_kills sampleKernel_reliable (show 512 ≤ 5120 by decide) (by decide)
    (fun _ => 9) (fun _ => 5)
    [.ask .start, .ask (.command (.create [97] 5)), .ask (.command (.create [98] 5))]
    [.kill (.write [98] [List.replicate 512 2, [3]] 7) .entry, .ask .start] [97]
    [List.replicate 512 1] 6
    ⟨trivial, @allowed_create (formatSb 5120).capacity _ _ (by decide) 5 (by decide +kernel),
      @allowed_create (formatSb 5120).capacity _ _ (by decide) 5 (by decide +kernel),
      @allowed_write (formatSb 5120).capacity _ _ _ 6 (by decide +kernel) (by decide +kernel),
      trivial, trivial, trivial⟩
    (by decide +kernel) (List.forall_mem_cons.mpr ⟨(by decide : ¬ ([98] : List UInt8) = [97]),
      List.forall_mem_cons.mpr ⟨id, fun _ he => absurd he List.not_mem_nil⟩⟩) hs
  rw [hs]
  exact hread.imp (congrArg Answer.command) (congrArg Answer.command)

end Linuxpedia.RealFs
