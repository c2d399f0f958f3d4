import Linuxpedia.RealFs.Serving

/-! One partition, two programs. The partition is mounted through the driver or opened in
the v3.0 shell, by one of them at a time, and each of them builds its allocation table
from what it finds. Both work on one store of named files: what the one leaves is what the
other starts from. -/

namespace Linuxpedia.RealFs

open Lib Sfs

/-! ### The programs -/

/-- A partition, alone or in the hands of a program. -/
inductive Host where
  | idle (dev : Store)
  | driver (m : Mount)
  | shell (s : Shell)

inductive Program where
  | driver
  | shell
  deriving DecidableEq

inductive Request where
  | mount
  | unmount
  | call (r : FileCall)
  | start
  | quit
  | command (c : Command)

/-- Which program takes a request. -/
def Request.program : Request → Option Program
  | .unmount => some .driver
  | .call _ => some .driver
  | .quit => some .shell
  | .command _ => some .shell
  | .mount => none
  | .start => none

inductive Answer where
  | done (ok : Bool)
  | call (r : FileReply)
  | command (out : List Output)
  | busy
  deriving DecidableEq

namespace Host

def program : Host → Option Program
  | .idle _ => none
  | .driver _ => some .driver
  | .shell _ => some .shell

/-- One request. A program that cannot start leaves the partition alone. -/
def step (κ : Kernel) : Host → Request → Host × Answer
  | .idle dev, .mount =>
    match Sfs.initBrowsing κ (kzallocInfo dev) with
    | (m, r) => if r = 0 then (.driver m, .done true) else (.idle m.dev, .done false)
  | .idle dev, .start =>
    match main .bits32 dev with
    | some s => (.shell s, .done true)
    | none => (.idle dev, .done false)
  | .driver m, .unmount => (.idle m.dev, .done true)
  | .driver m, .call r =>
    let t := serve κ m r
    (.driver t.1, .call t.2)
  | .shell s, .quit => (.idle s.dev, .done true)
  | .shell s, .command c =>
    let t := c.run .bits32 s
    (.shell t.1, .command t.2)
  | h, _ => (h, .busy)

def next (κ : Kernel) (h : Host) (q : Request) : Host := (h.step κ q).1

/-- The device with the super block and the table that the program keeps, if one does. -/
def mount : Host → Mount
  | .idle dev => { kzallocInfo dev with sb := .ofBytes dev }
  | .driver m => m
  | .shell s => s.mount

end Host

/-! ### The store -/

/-- The program at work and the files. -/
structure World where
  program : Option Program
  files : Nodes

def Host.world (h : Host) : World := ⟨h.program, h.mount.nodes⟩

namespace World

/-- What a request does to the files, and how it is answered. -/
inductive Next (cap : Capacity) : World → Request → Answer → World → Prop
  | mount (F : Nodes) : Next cap ⟨none, F⟩ .mount (.done true) ⟨some .driver, F⟩
  | unmount (F : Nodes) : Next cap ⟨some .driver, F⟩ .unmount (.done true) ⟨none, F⟩
  | call (F : Nodes) (r : FileCall) : Next cap ⟨some .driver, F⟩ (.call r)
      (.call (F.step cap r).2) ⟨some .driver, (F.step cap r).1⟩
  | start (F : Nodes) : Next cap ⟨none, F⟩ .start (.done true) ⟨some .shell, F⟩
  | quit (F : Nodes) : Next cap ⟨some .shell, F⟩ .quit (.done true) ⟨none, F⟩
  | command (F F' : Nodes) (c : Command) (out : List Output) (h : F.Command cap c out F') :
      Next cap ⟨some .shell, F⟩ (.command c) (.command out) ⟨some .shell, F'⟩
  | busy (w : World) (q : Request) (h : w.program ≠ q.program) : Next cap w q .busy w

/-- Each program is asked what it is promised. -/
def Allowed (cap : Capacity) (w : World) : Request → Prop
  | .call r => w.files.Allowed r
  | .command c => w.files.AllowedCommand cap c
  | _ => True

end World

/-! ### Moving the partition -/

variable {κ : Kernel} {sb : SfsSuperBlock} {F : Nodes}

/-- The partition holds the files `F`, whoever has it. -/
def Hosted (sb : SfsSuperBlock) (F : Nodes) : Host → Prop
  | .idle dev => ∃ m : Mount, m.dev = dev ∧ Sfs.Serves sb m F
  | .driver m => Sfs.Serves sb m F
  | .shell s => Serves sb s F

theorem Hosted.nodes {h : Host} (hh : Hosted sb F h) : h.mount.nodes = F := by
  cases h with
  | idle dev =>
    obtain ⟨m, rfl, hm⟩ := hh
    rw [← hm.nodes, Host.mount, hm.serving.wf.onDevice]
    rfl
  | driver m => exact Sfs.Serves.nodes hh
  | shell s => exact (Serves.serves hh).nodes

theorem Hosted.world {h : Host} (hh : Hosted sb F h) : h.world = ⟨h.program, F⟩ := by
  rw [Host.world, hh.nodes]

/-- A table that was built from a served device serves it. -/
theorem serves_same {m m' : Mount} (h : Sfs.Serves sb m F) (hserving : m'.Serving)
    (hsb : m'.sb = m.sb) (hdev : m'.dev = m.dev) (hsame : m.volume.Same m'.volume) :
    Sfs.Serves sb m' F := by
  refine ⟨hserving, hsb.trans h.sb_eq, ?_⟩
  rw [← h.nodes]
  unfold Mount.nodes
  rw [hsame.dir, hdev]

/-- Mounting. -/
theorem initBrowsing_serves (hκ : κ.Reliable) {m : Mount} (h : Sfs.Serves sb m F) :
    ∃ m', Sfs.initBrowsing κ (kzallocInfo m.dev) = (m', 0) ∧ Sfs.Serves sb m' F := by
  obtain ⟨m', he, hserving, hsb, hdev, hsame⟩ := h.serving.remount hκ
  exact ⟨m', he, serves_same h hserving hsb hdev hsame⟩

/-- Starting the shell. -/
theorem main_serves {m : Mount} (h : Sfs.Serves sb m F) (hsmall : sb.partitionSize.toNat ≤ 2 ^ 22) :
    ∃ s, main .bits32 m.dev = some s ∧ Serves sb s F := by
  have hwf := h.serving.wf
  obtain ⟨s, hmain, hdev, hsb, hused⟩ := main_eq (o := .bits32) hwf.onDevice hwf.geometry
  have hseen : ∀ b, m.volume.Seen b → b < m.volume.used.size :=
    fun b hb => (Volume.held_of_seen hb).elim fun p hp => h.serving.owned.lt_size hp
  obtain ⟨hsize, hfault, _⟩ := Volume.rebuild_ok hwf.start_le hwf.size_lt hseen fun _ => 0
  have htable : s.usedBlocks = m.volume.rebuild fun _ => 0 := by
    rw [hused, Shell.rebuilt, hdev, hsb, Volume.rebuild, show m.volume.used.size = _ from hwf.size]
    rfl
  have hsame : m.volume.Same s.volume := by
    refine ⟨?_, ?_, fun i _ => ?_, ?_, fun b hb => ?_⟩
    · exact congrArg (fun sb => sb.entryCount.toNat) hsb
    · exact congrArg (fun sb => sb.dataBlockStart.toNat) hsb
    · exact congrArg (fun dev => entryAt dev i) hdev
    · exact (congrArg Buffer.size htable).trans hsize
    · exact (congrArg (fun t => t.cell b) htable).trans
        (h.serving.exact.rebuild_eq h.serving.owned h.serving.packed hwf.start_le hwf.size_lt _ b
          hb)
  have hgeometry : Geometry s.sb := hsb ▸ hwf.geometry
  have hwfs : s.Wf := ⟨hgeometry, by rw [hused, s.size_rebuilt]⟩
  have hset : Settled s := by
    refine ⟨⟨hwfs, by rw [hdev, hsb, hwf.onDevice]⟩, hsame.settled h.serving.volume_settled, ?_,
      fun b hb => ?_⟩
    · rw [htable, hfault]
    · rw [htable] at hb ⊢
      exact Volume.rebuild_outside hwf.start_le hwf.size_lt hseen _ (hsize ▸ hb)
  refine ⟨s, hmain, hset, by rw [hsb, h.sb_eq]; exact hsmall, ?_⟩
  exact serves_same h (hset.serving (hsame.catalog h.serving.catalog)) hsb hdev hsame

/-- A formatted partition holds no file. -/
theorem hosted_format {bytes : ℕ} (h512 : 512 ≤ bytes) (hP : bytes / 512 ≤ 2 ^ 22)
    (dev stack : Store) :
    Hosted (formatSb bytes) (fun _ => none) (.idle (formatRealSfs bytes dev stack)) := by
  have hsize : bytes / 512 < 2 ^ 31 := by omega
  obtain ⟨h0, hP31⟩ := formatSb_small h512 hsize
  obtain ⟨s, hmain, hdev, hsb, _⟩ := main_eq (o := .bits32) (formatRealSfs_sb bytes dev stack)
    (formatSb_geometry h0 hP31)
  have hs : Fresh bytes s := Started.fresh hsize ⟨h512, dev, stack, hmain⟩
  have hfresh : s.mount.Fresh := by
    refine ⟨⟨hs.geometry, hs.onDevice, hs.size⟩, hs.empty, fun _ => 0, ?_⟩
    exact hs.used.trans hs.toWf.rebuilt_eq
  have hserves : Sfs.Serves s.sb s.mount fun _ => none := hfresh.serves
  exact ⟨s.mount, hdev, hsb ▸ hserves⟩

/-! ### Runs -/

theorem formatSb_le {bytes : ℕ} (hP : bytes / 512 ≤ 2 ^ 22) :
    (formatSb bytes).partitionSize.toNat ≤ 2 ^ 22 := by
  rw [formatSb_partitionSize (by omega)]
  exact hP

theorem Host.step_busy {h : Host} {q : Request} (hne : h.program ≠ q.program) :
    h.step κ q = (h, .busy) := by
  cases h <;> cases q <;> first | rfl | exact absurd rfl hne

/-- A request is answered as the store answers it. -/
theorem Hosted.step (hκ : κ.Reliable) (hsmall : sb.partitionSize.toNat ≤ 2 ^ 22) {h : Host}
    (hh : Hosted sb F h) (ht : F.Tidy) {q : Request}
    (hq : World.Allowed sb.capacity ⟨h.program, F⟩ q) :
    ∃ F', World.Next sb.capacity ⟨h.program, F⟩ q (h.step κ q).2 ⟨(h.next κ q).program, F'⟩ ∧
      Hosted sb F' (h.next κ q) ∧ F'.Tidy := by
  by_cases hp : h.program = q.program
  · cases h with
    | idle dev =>
      obtain ⟨m, rfl, hm⟩ := hh
      cases q with
      | mount =>
        obtain ⟨m', he, hm'⟩ := initBrowsing_serves hκ hm
        simp only [Host.next, Host.step, he, ↓reduceIte]
        exact ⟨F, .mount F, hm', ht⟩
      | start =>
        obtain ⟨s, he, hs⟩ := main_serves hm hsmall
        simp only [Host.next, Host.step, he]
        exact ⟨F, .start F, hs, ht⟩
      | _ => cases hp
    | driver m =>
      cases q with
      | unmount => exact ⟨F, .unmount F, ⟨m, rfl, hh⟩, ht⟩
      | call r =>
        have hans := Sfs.Serves.serve hκ hh ht hq
        refine ⟨(F.step sb.capacity r).1, ?_, hans.2, ht.step hq⟩
        simp only [Host.next, Host.step, hans.1]
        exact .call F r
      | _ => cases hp
    | shell s =>
      cases q with
      | quit => exact ⟨F, .quit F, ⟨s.mount, rfl, Serves.serves hh⟩, ht⟩
      | command c =>
        obtain ⟨F', hcommand, hserves⟩ := Serves.run hh ht hq
        exact ⟨F', .command F F' c _ hcommand, hserves, ht.command hcommand⟩
      | _ => cases hp
  · rw [Host.next, Host.step_busy hp]
    exact ⟨F, .busy _ q hp, hh, ht⟩

/-- What every allowed run keeps. -/
def Host.Tidy (sb : SfsSuperBlock) (h : Host) : Prop := ∃ F, Hosted sb F h ∧ F.Tidy

theorem Host.Tidy.next (hκ : κ.Reliable) (hsmall : sb.partitionSize.toNat ≤ 2 ^ 22) {h : Host}
    (hh : Host.Tidy sb h) {q : Request} (hq : h.world.Allowed sb.capacity q) :
    Host.Tidy sb (h.next κ q) ∧
      World.Next sb.capacity h.world q (h.step κ q).2 (h.next κ q).world := by
  obtain ⟨F, hF, ht⟩ := hh
  rw [hF.world] at hq ⊢
  obtain ⟨F', hnext, hF', ht'⟩ := hF.step hκ hsmall ht hq
  rw [hF'.world]
  exact ⟨⟨F', hF', ht'⟩, hnext⟩

theorem hostTidy_format {bytes : ℕ} (h512 : 512 ≤ bytes) (hP : bytes / 512 ≤ 2 ^ 22)
    (dev stack : Store) :
    Host.Tidy (formatSb bytes) (.idle (formatRealSfs bytes dev stack)) :=
  ⟨_, hosted_format h512 hP dev stack, fun _ _ hf => by cases hf⟩

section Allowed

variable {cap : Capacity} {h : Host} {fn : List UInt8}

theorem allowed_create (hfn : SfsFileEntry.NameOk fn) (now : UInt32)
    (h0 : h.mount.volume.slotOf fn = none) : h.world.Allowed cap (.command (.create fn now)) :=
  ⟨hfn, nodes_eq_none.mpr h0⟩

/-- Whole blocks for a file without blocks. -/
theorem allowed_write {stdin : Stdin} (now : UInt32)
    (h0 : ∀ f ∈ h.mount.volume.dir fn, ∀ k, f.blocks k = 0) (hlen : stdin.input.length % 512 = 0) :
    h.world.Allowed cap (.command (.write fn stdin now)) := by
  intro f hf _
  obtain ⟨fe, hfe, rfl⟩ := Option.map_eq_some_iff.mp hf
  refine ⟨fun k hk => ?_, Or.inr (Or.inr hlen)⟩
  obtain ⟨hk9, hne⟩ := blockAt_ne_none.mp hk
  exact absurd (h0 fe hfe _) hne

/-- A block behind those of a file. -/
theorem allowed_writeBlock {k : ℕ} (hk : k ≤ 9) (data : Store) (now : UInt32)
    (h0 : ∀ f ∈ h.mount.volume.dir fn, ∀ j : Fin 9, j.val < k → f.blocks j ≠ 0) :
    h.world.Allowed cap (.call (.write fn k data now)) := by
  intro f hf j hj
  obtain ⟨fe, hfe, rfl⟩ := Option.map_eq_some_iff.mp hf
  exact blockAt_ne_none.mpr ⟨by omega, h0 fe hfe ⟨j, by omega⟩ hj⟩

end Allowed

/-- The request may change the file `fn`. -/
def Request.Changes (fn : List UInt8) : Request → Prop
  | .call (.unlink gn) => gn = fn
  | .call (.truncate gn _ _) => gn = fn
  | .call (.write gn _ _ _) => gn = fn
  | .command (.remove gn) => gn = fn
  | .command (.chperm _ gn) => gn = fn
  | .command (.write gn _ _) => gn = fn
  | _ => False

section Keeps

variable {cap : Capacity} {fn : List UInt8} {f : Node}

theorem put_keeps (hf : F fn = some f) {gn : List UInt8} (hne : gn ≠ fn) (g : Option Node) :
    Function.update F gn g fn = some f := by
  rw [Function.update_of_ne hne.symm, hf]

theorem call_keeps (hf : F fn = some f) {r : FileCall} (hr : ¬ (Request.call r).Changes fn) :
    (F.step cap r).1 fn = some f := by
  cases r with
  | create gn mode now =>
    simp only [Nodes.step]
    split_ifs with hc
    · refine put_keeps hf ?_ _
      rintro rfl
      rw [hf] at hc
      exact absurd hc.1 (by simp)
    · exact hf
  | unlink gn =>
    simp only [Nodes.step]
    split
    · exact hf
    · exact put_keeps hf hr _
  | truncate gn size now =>
    simp only [Nodes.step]
    split
    · exact hf
    · exact put_keeps hf hr _
  | write gn k data now =>
    simp only [Nodes.step]
    split
    · exact hf
    · split_ifs
      · exact put_keeps hf hr _
      · exact hf
  | stat gn =>
    simp only [Nodes.step]
    split <;> exact hf
  | read gn k =>
    simp only [Nodes.step]
    split
    · exact hf
    · split <;> exact hf
  | remount => exact hf

theorem command_keeps (hf : F fn = some f) {c : Command} {out : List Output} {F' : Nodes}
    (hc : F.Command cap c out F') (hq : ¬ (Request.command c).Changes fn) : F' fn = some f := by
  cases hc with
  | create gn now habsent hroom =>
    refine put_keeps hf ?_ _
    rintro rfl
    rw [hf] at habsent
    cases habsent
  | remove gn g hg => exact put_keeps hf hq _
  | chperm perm gn g hg => exact put_keeps hf hq _
  | write gn stdin now g g' hg hw hsize hmode htime hblock htext => exact put_keeps hf hq _
  | _ => exact hf

theorem World.Next.keeps {w w' : World} {q : Request} {r : Answer} (h : w.Next cap q r w')
    (hf : w.files fn = some f) (hq : ¬ q.Changes fn) : w'.files fn = some f := by
  cases h with
  | call F r => exact call_keeps hf hq
  | command F F' c out hc => exact command_keeps hf hc hq
  | _ => exact hf

end Keeps

/-- What a write in the shell that printed nothing leaves. -/
theorem World.Next.written {cap : Capacity} {w w' : World} {fn : List UInt8} {stdin : Stdin}
    {now : UInt32} {r : Answer} (h : w.Next cap (.command (.write fn stdin now)) r w')
    (hr : r = .command []) : ∃ g, w'.files fn = some g ∧ g.size = w.files.kept cap fn stdin.input ∧
      g.time = now ∧ (∀ k, g.block k ≠ none ↔ 512 * k < g.size) ∧
        g.text = stdin.input.take g.size := by
  cases h with
  | command F F' c out hc =>
    cases hc with
    | write fn stdin now f g hf hw hsize hmode htime hblock htext =>
      exact ⟨g, Function.update_self _ _ _, hsize, htime, hblock, htext⟩
    | writeRefused => cases hr
    | writeFails => cases hr
  | busy => cases hr

/-- A file stays as it is while no request names it, whoever has the partition. -/
theorem Host.Tidy.exec_keeps (hκ : κ.Reliable) (hsmall : sb.partitionSize.toNat ≤ 2 ^ 22)
    {h : Host} (hh : Host.Tidy sb h) {fn : List UInt8} {f : Node} (hf : h.world.files fn = some f)
    {requests : List Request}
    (hl : Run.Along (Host.next κ) (fun h q => h.world.Allowed sb.capacity q) h requests)
    (hkeep : ∀ q ∈ requests, ¬ q.Changes fn) :
    Host.Tidy sb (Run.exec (Host.next κ) h requests) ∧
      (Run.exec (Host.next κ) h requests).world.files fn = some f := by
  have hstep : ∀ (h : Host) (q : Request), Host.Tidy sb h ∧ h.world.files fn = some f →
      h.world.Allowed sb.capacity q ∧ ¬ q.Changes fn →
      Host.Tidy sb (h.next κ q) ∧ (h.next κ q).world.files fn = some f := by
    rintro h q ⟨hh, hf⟩ ⟨hq, hne⟩
    obtain ⟨hh', hnext⟩ := hh.next hκ hsmall hq
    exact ⟨hh', hnext.keeps hf hne⟩
  exact Run.exec_inv hstep ⟨hh, hf⟩ (hl.and (Run.along_of_mem h hkeep))

theorem Host.Tidy.exec (hκ : κ.Reliable) (hsmall : sb.partitionSize.toNat ≤ 2 ^ 22)
    {h : Host} (hh : Host.Tidy sb h) {requests : List Request}
    (hl : Run.Along (Host.next κ) (fun h q => h.world.Allowed sb.capacity q) h requests) :
    Host.Tidy sb (Run.exec (Host.next κ) h requests) := by
  have hstep : ∀ (h : Host) (q : Request), Host.Tidy sb h → h.world.Allowed sb.capacity q →
      Host.Tidy sb (h.next κ q) := fun _ _ hh hq => (hh.next hκ hsmall hq).1
  exact Run.exec_inv hstep hh hl

/-- The bytes that the driver reads of a file, cut to `size`. -/
def readText (κ : Kernel) (m : Mount) (fn : List UInt8) (size : ℕ) : List UInt8 :=
  ((List.range ((size + 511) / 512)).flatMap fun k =>
    match (serve κ m (.read fn k)).2 with
    | .data bytes => bytes
    | _ => []).take size

theorem filterMap_present {g : Node} {l : List ℕ} (h : ∀ k ∈ l, g.block k ≠ none) :
    l.filterMap g.block = l.map fun k => (g.block k).getD [] := by
  rw [← List.filterMap_eq_map]
  refine List.filterMap_congr fun k hk => ?_
  obtain ⟨d, hd⟩ := Option.ne_none_iff_exists'.mp (h k hk)
  simp [hd]

/-- The blocks of a file that are there are the first ones. -/
theorem filterMap_block {g : Node} {n : ℕ} (hn : n ≤ 9) (h : ∀ k, g.block k ≠ none ↔ k < n) :
    (List.range 9).filterMap g.block = (List.range n).map fun k => (g.block k).getD [] := by
  obtain ⟨r, hr⟩ := Nat.exists_eq_add_of_le hn
  have hfront := filterMap_present fun k hk => (h k).mpr (List.mem_range.mp hk)
  have hback : ((List.range r).map (n + ·)).filterMap g.block = [] := by
    refine List.filterMap_eq_nil_iff.mpr fun k hk => ?_
    obtain ⟨j, _, rfl⟩ := List.mem_map.mp hk
    by_contra hne
    have hlt := (h (n + j)).mp hne
    omega
  rw [hr, List.range_add, List.filterMap_append, hfront, hback, List.append_nil]

/-- A block behind blocks that are there is found in the text at its place. -/
theorem text_block {g : Node} {k : ℕ} (hk : k < 9) {d : List UInt8} (hd : g.block k = some d)
    (hbelow : ∀ j < k, g.block j ≠ none) (hlen : ∀ j b, g.block j = some b → b.length = 512)
    (hsize : 512 * (k + 1) ≤ g.size) : (g.text.drop (512 * k)).take 512 = d := by
  obtain ⟨r, hr⟩ := Nat.exists_eq_add_of_lt hk
  have hfront := filterMap_present (g := g) fun j hj => hbelow j (List.mem_range.mp hj)
  have hrange : List.range 9 = List.range k ++ k :: (List.range r).map (k + 1 + ·) := by
    rw [hr, show k + r + 1 = k + (1 + r) by omega, List.range_add, List.range_add, List.map_append,
      List.map_map]
    simp [Function.comp_def, Nat.add_assoc]
  set front := (List.range k).filterMap g.block with hfrontdef
  have hflat : front.flatten.length = 512 * k := by
    rw [List.length_flatten, hfront, List.map_map]
    have hone : ∀ j ∈ List.range k, (List.length ∘ fun j => (g.block j).getD []) j = 512 := by
      intro j hj
      obtain ⟨b, hb⟩ := Option.ne_none_iff_exists'.mp (hbelow j (List.mem_range.mp hj))
      simp [hb, hlen j b hb]
    rw [List.map_congr_left hone]
    simp [Nat.mul_comm]
  have hdlen := hlen k d hd
  rw [Node.text, hrange, List.filterMap_append, List.filterMap_cons, hd, List.flatten_append,
    List.drop_take, List.drop_left' hflat, List.take_take, Nat.min_eq_left (by omega)]
  simp only [List.flatten_cons]
  exact List.take_left' hdlen

/-- The driver reads the text of a file. -/
theorem readText_eq (hκ : κ.Reliable) {m : Mount} (h : Sfs.Serves sb m F) (ht : F.Tidy)
    {fn : List UInt8} {g : Node} (hg : F fn = some g) (hle : g.size ≤ 512 * 9)
    (hblock : ∀ k, g.block k ≠ none ↔ 512 * k < g.size) : readText κ m fn g.size = g.text := by
  have hread : ∀ k, (serve κ m (.read fn k)).2 = (F.step sb.capacity (.read fn k)).2 :=
    fun k => (serve_simulates hκ sb m F (.read fn k) ⟨h, ht⟩ trivial).1
  have hcover : ∀ k, g.block k ≠ none ↔ k < (g.size + 511) / 512 := by
    intro k
    rw [hblock]
    omega
  rw [readText, Node.text, filterMap_block (by omega) hcover, ← List.flatMap_def]
  congr 1
  refine List.flatMap_congr fun k hk => ?_
  obtain ⟨d, hd⟩ := Option.ne_none_iff_exists'.mp ((hcover k).mpr (List.mem_range.mp hk))
  simp only [hread, Nodes.step, hg, hd, Option.getD_some]

/-- The text that was written in the shell is the one that the driver reads after any
requests that leave the file alone, the moves between the programs among them. -/
theorem shell_text_on_driver (hκ : κ.Reliable) {bytes : ℕ} (h512 : 512 ≤ bytes)
    (hP : bytes / 512 ≤ 2 ^ 22) (dev stack : Store) (pre post : List Request) (fn : List UInt8)
    (stdin : Stdin) (now : UInt32)
    (hl : Run.Along (Host.next κ) (fun h q => h.world.Allowed (formatSb bytes).capacity q)
      (.idle (formatRealSfs bytes dev stack)) (pre ++ .command (.write fn stdin now) :: post))
    (hw : ((Run.exec (Host.next κ) (.idle (formatRealSfs bytes dev stack)) pre).step κ
      (.command (.write fn stdin now))).2 = .command [])
    (hpost : ∀ q ∈ post, ¬ q.Changes fn) {m : Mount}
    (hm : Run.exec (Host.next κ) (.idle (formatRealSfs bytes dev stack))
      (pre ++ .command (.write fn stdin now) :: post) = .driver m) :
    ∃ size mode, size = (Run.exec (Host.next κ) (.idle (formatRealSfs bytes dev stack))
        pre).world.files.kept (formatSb bytes).capacity fn stdin.input ∧
      (serve κ m (.stat fn)).2 = .attrs size mode now.toNat ∧
      readText κ m fn size = stdin.input.take size := by
  have hsmall := formatSb_le hP
  obtain ⟨hlpre, hlw, hlpost⟩ := (Run.along_append _ _ _ _ _).mp hl
  have hpre := (hostTidy_format h512 hP dev stack).exec hκ hsmall hlpre
  set h₁ := Run.exec (Host.next κ) (.idle (formatRealSfs bytes dev stack)) pre
  obtain ⟨hwrite, hnext⟩ := hpre.next hκ hsmall hlw
  rw [Run.exec_append, Run.exec_cons] at hm
  obtain ⟨g, hg, hsize, htime, hblock, htext⟩ := hnext.written hw
  have hend := hwrite.exec_keeps hκ hsmall hg hlpost hpost
  rw [hm] at hend
  obtain ⟨⟨F, hserves, ht⟩, hfile⟩ := hend
  rw [hserves.world] at hfile
  have hstat := (serve_simulates hκ _ m F (.stat fn) ⟨hserves, ht⟩ trivial).1
  refine ⟨g.size, g.mode, hsize, ?_, ?_⟩
  · rw [hstat]
    simp only [Nodes.step, show F fn = some g from hfile, htime]
  · rw [readText_eq hκ hserves ht hfile ?_ hblock, htext]
    rw [hsize, Nodes.kept]
    omega

theorem Host.eq_driver {h : Host} (hp : h.program = some .driver) : h = .driver h.mount := by
  cases h with
  | driver m => rfl
  | _ => cases hp

/-- A block that was written in the shell is read through the driver after another file was
written there. -/
theorem shell_text_on_driver_sample :
    readText sampleKernel (Run.exec (Host.next sampleKernel)
      (.idle (formatRealSfs 5120 (fun _ => 9) fun _ => 5))
      ([.start, .command (.create [97] 5), .command (.create [98] 5)] ++
        .command (.write [97] [List.replicate 512 1] 6) ::
          [.quit, .mount, .call (.write [98] 0 (fun _ => 4) 8)])).mount [97] 512 =
      List.replicate 512 1 := by
  obtain ⟨size, mode, _, hstat, htext⟩ := shell_text_on_driver sampleKernel_reliable
    (show 512 ≤ 5120 by decide) (by decide) (fun _ => 9) (fun _ => 5)
    [.start, .command (.create [97] 5), .command (.create [98] 5)]
    [.quit, .mount, .call (.write [98] 0 (fun _ => 4) 8)] [97] [List.replicate 512 1] 6
    ⟨trivial, allowed_create (by decide) 5 (by decide +kernel),
      allowed_create (by decide) 5 (by decide +kernel),
      allowed_write 6 (by decide +kernel) (by decide +kernel), trivial, trivial,
      allowed_writeBlock (by decide) _ 8 (by decide +kernel), trivial⟩
    (by decide +kernel) (by simp [Request.Changes]) (Host.eq_driver (by decide +kernel))
  have hsize : (serve sampleKernel (Run.exec (Host.next sampleKernel)
      (.idle (formatRealSfs 5120 (fun _ => 9) fun _ => 5))
      ([.start, .command (.create [97] 5), .command (.create [98] 5)] ++
        .command (.write [97] [List.replicate 512 1] 6) ::
          [.quit, .mount, .call (.write [98] 0 (fun _ => 4) 8)])).mount (.stat [97])).2 =
      .attrs 512 0o100777 6 := by decide +kernel
  have hattrs := FileReply.attrs.inj (hstat.symm.trans hsize)
  rw [Int.ofNat_inj.mp hattrs.1] at htext
  exact htext.trans (by decide +kernel)

/-- What a block written through the driver leaves. -/
theorem World.Next.blockWritten {cap : Capacity} {w w' : World} {fn : List UInt8} {k : ℕ}
    {data : Store} {now : UInt32} {r : Answer} (h : w.Next cap (.call (.write fn k data now)) r w')
    (hr : r = .call (.code 0)) (hq : w.Allowed cap (.call (.write fn k data now))) :
    k < 9 ∧ ∃ g, w'.files fn = some g ∧ g.block k = some (data.bytes 512) ∧
      (∀ j < k, g.block j ≠ none) ∧ 512 * (k + 1) ≤ g.size := by
  cases h with
  | call F r =>
    simp only [Nodes.step] at hr ⊢
    cases hF : F fn with
    | none =>
      simp only [hF] at hr
      exact absurd hr (by simp [enoent])
    | some f =>
      simp only [hF] at hr ⊢
      split_ifs at hr ⊢ with hc
      · refine ⟨hc.1, _, Function.update_self _ _ _, Function.update_self _ _ _, fun j hj => ?_,
          le_max_right _ _⟩
        change Function.update f.block k _ j ≠ none
        rw [Function.update_of_ne (Nat.ne_of_lt hj)]
        exact hq f hF j hj
      · exact absurd hr (by simp [enospc])
  | busy => cases hr

/-- A block that was written through the driver stands at its place in the text that the
shell prints after any requests that leave the file alone. -/
theorem driver_block_in_shell (hκ : κ.Reliable) {bytes : ℕ} (h512 : 512 ≤ bytes)
    (hP : bytes / 512 ≤ 2 ^ 22) (dev stack : Store) (pre post : List Request) (fn : List UInt8)
    (k : ℕ) (data : Store) (now : UInt32)
    (hl : Run.Along (Host.next κ) (fun h q => h.world.Allowed (formatSb bytes).capacity q)
      (.idle (formatRealSfs bytes dev stack)) (pre ++ .call (.write fn k data now) :: post))
    (hw : ((Run.exec (Host.next κ) (.idle (formatRealSfs bytes dev stack)) pre).step κ
      (.call (.write fn k data now))).2 = .call (.code 0))
    (hpost : ∀ q ∈ post, ¬ q.Changes fn) {s : Shell}
    (hs : Run.exec (Host.next κ) (.idle (formatRealSfs bytes dev stack))
      (pre ++ .call (.write fn k data now) :: post) = .shell s) :
    (sfsRead .bits32 s fn).2 = [.text "File %s doesn't have read permissions\n" fn] ∨
      ∃ text, (sfsRead .bits32 s fn).2 = [.data text] ∧
        (text.drop (512 * k)).take 512 = data.bytes 512 := by
  have hsmall := formatSb_le hP
  obtain ⟨hlpre, hlw, hlpost⟩ := (Run.along_append _ _ _ _ _).mp hl
  have hpre := (hostTidy_format h512 hP dev stack).exec hκ hsmall hlpre
  obtain ⟨hwrite, hnext⟩ := hpre.next hκ hsmall hlw
  rw [Run.exec_append, Run.exec_cons] at hs
  obtain ⟨hk, g, hg, hblock, hbelow, hsize⟩ := hnext.blockWritten hw hlw
  have hend := hwrite.exec_keeps hκ hsmall hg hlpost hpost
  rw [hs] at hend
  obtain ⟨⟨F, hserves, _⟩, hfile⟩ := hend
  have hserves : Serves (formatSb bytes) s F := hserves
  rw [Host.world, Hosted.nodes (h := .shell s) hserves] at hfile
  obtain ⟨i, _, hnode⟩ := hserves.slot hfile
  obtain ⟨F', hread, _⟩ := hserves.read fn
  generalize (sfsRead .bits32 s fn).2 = out at hread ⊢
  cases hread with
  | readRefused => exact Or.inl rfl
  | readFails _ hno =>
    rw [show F fn = some g from hfile] at hno
    cases hno
  | read _ f hf _ =>
    rw [show F fn = some g from hfile] at hf
    obtain rfl := Option.some.inj hf
    refine Or.inr ⟨_, rfl, text_block hk hblock hbelow (fun j b hb => ?_) hsize⟩
    rw [hnode] at hb
    exact length_blockAt hb

theorem Host.eq_shell {h : Host} (hp : h.program = some .shell) : ∃ s, h = .shell s := by
  cases h with
  | shell s => exact ⟨s, rfl⟩
  | _ => cases hp

/-- A block that was written through the driver is read in the shell. -/
theorem driver_block_in_shell_sample :
    ((Run.exec (Host.next sampleKernel) (.idle (formatRealSfs 5120 (fun _ => 9) fun _ => 5))
      ([.mount, .call (.create [97] 0o644 5)] ++ .call (.write [97] 0 (fun _ => 3) 6) ::
        [.unmount, .start])).step sampleKernel (.command (.read [97]))).2 =
        .command [.text "File %s doesn't have read permissions\n" [97]] ∨
    ∃ text, ((Run.exec (Host.next sampleKernel)
      (.idle (formatRealSfs 5120 (fun _ => 9) fun _ => 5))
      ([.mount, .call (.create [97] 0o644 5)] ++ .call (.write [97] 0 (fun _ => 3) 6) ::
        [.unmount, .start])).step sampleKernel (.command (.read [97]))).2 =
        .command [.data text] ∧ (text.drop 0).take 512 = Store.bytes (fun _ => 3) 512 := by
  obtain ⟨s, hs⟩ := Host.eq_shell (h := Run.exec (Host.next sampleKernel)
    (.idle (formatRealSfs 5120 (fun _ => 9) fun _ => 5))
    ([.mount, .call (.create [97] 0o644 5)] ++ .call (.write [97] 0 (fun _ => 3) 6) ::
      [.unmount, .start])) (by decide +kernel)
  have hread := driver_block_in_shell sampleKernel_reliable
    (show 512 ≤ 5120 by decide) (by decide) (fun _ => 9) (fun _ => 5)
    [.mount, .call (.create [97] 0o644 5)] [.unmount, .start] [97] 0 (fun _ => 3) 6
    ⟨trivial, (by decide : SfsFileEntry.NameOk [97]),
      allowed_writeBlock (by decide) _ 6 (by decide +kernel), trivial, trivial, trivial⟩
    (by decide +kernel) (by simp [Request.Changes]) hs
  rw [hs]
  rcases hread with hread | ⟨text, hread, htext⟩
  · exact Or.inl (congrArg Answer.command hread)
  · exact Or.inr ⟨text, congrArg Answer.command hread, htext⟩

end Linuxpedia.RealFs
