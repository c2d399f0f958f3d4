import Linuxpedia.Sfs.ServiceSpec
import Linuxpedia.Sfs.Ownership

/-! The driver serves a bounded store of named files. Every call is answered as the store
answers it: what was written last to a block of a file is read from it, whatever was done
to other files, and through any number of unmounts, and a call fails exactly when the
store has no such file, no room for a name or no room for a block. -/

namespace Linuxpedia.Sfs

open Lib

/-! ### The store keeps its files tidy -/

namespace Nodes

variable {F : Nodes} {cap : Capacity}

theorem put_apply (F : Nodes) (fn gn : List UInt8) (f : Node) :
    F.put fn f gn = if gn = fn then some f else F gn := by
  simp [put, Function.update_apply]

theorem Tidy.put (h : F.Tidy) {fn : List UInt8} {f : Node} (hsize : f.size < 2 ^ 31)
    (hblock : ∀ k, f.block k ≠ none → k < 9 ∧ 512 * k < f.size) : (F.put fn f).Tidy := by
  intro gn g hg
  rw [put_apply] at hg
  split_ifs at hg with hgn
  · obtain rfl := Option.some.inj hg
    exact ⟨hsize, hblock⟩
  · exact h gn g hg

theorem Tidy.erase (h : F.Tidy) (fn : List UInt8) : Nodes.Tidy (Function.update F fn none) := by
  intro gn g hg
  rw [Function.update_apply] at hg
  split_ifs at hg with hgn
  exact h gn g hg

theorem Tidy.step (h : F.Tidy) {r : FileCall} (hr : F.Allowed r) : (F.step cap r).1.Tidy := by
  cases r with
  | create fn mode now =>
    simp only [Nodes.step]
    split_ifs
    · exact h.put (Nat.two_pow_pos 31) fun k hk => absurd rfl hk
    · exact h
  | unlink fn =>
    simp only [Nodes.step]
    split
    · exact h
    · exact h.erase fn
  | stat fn =>
    simp only [Nodes.step]
    split <;> exact h
  | truncate fn size now =>
    simp only [Nodes.step]
    split
    · exact h
    · next f hf =>
      refine h.put hr fun k hk => ?_
      simp only at hk
      split_ifs at hk with hlt
      · exact ⟨((h fn f hf).2 k hk).1, hlt⟩
      · exact absurd rfl hk
  | write fn k data now =>
    simp only [Nodes.step]
    split
    · exact h
    · next f hf =>
      obtain ⟨hsize, hblock⟩ := h fn f hf
      split_ifs with hc
      · have hk9 := hc.1
        refine h.put (max_lt hsize (by omega)) fun j hj => ?_
        simp only [Function.update_apply] at hj ⊢
        split_ifs at hj with hjk
        · subst hjk
          exact ⟨hk9, lt_max_of_lt_right (by omega)⟩
        · exact ⟨(hblock j hj).1, lt_max_of_lt_left (hblock j hj).2⟩
      · exact h
  | read fn k =>
    simp only [Nodes.step]
    split
    · exact h
    · split <;> exact h
  | remount => exact h

end Nodes

/-! ### Calls on a mount -/

variable {κ : Kernel} {m : Mount} {sb : SfsSuperBlock} {F : Nodes}

/-- Where no data block changes, no file of the directory does. -/
theorem Mount.SameData.nodeAt {m' : Mount} (hd : m.SameData m') (ho : m.volume.Owned)
    {fn : List UInt8} {f : File} (hf : m.volume.dir fn = some f) :
    nodeAt m'.dev f = nodeAt m.dev f := by
  refine ho.nodeAt_congr hf fun b _ hlo j _ => hd _ ?_
  change m.sb.dataBlockStart.toNat ≤ b at hlo
  omega

theorem nodes_sameData {m' : Mount} (hd : m.SameData m') (ho : m.volume.Owned)
    (hdir : m'.volume.dir = m.volume.dir) : m'.nodes = m.nodes := by
  funext fn
  unfold Mount.nodes
  rw [hdir]
  exact Option.map_congr fun f hf => hd.nodeAt ho hf

theorem keys_nodes (m : Mount) : SlotMap.keys m.nodes = SlotMap.keys m.volume.dir := by
  ext fn
  rw [SlotMap.mem_keys, SlotMap.mem_keys, Ne, Ne, Mount.nodes, Option.map_eq_none_iff]

/-- The name of a file is looked up and not found. -/
theorem withInode_none (hκ : κ.Reliable) (hm : m.Wf) {fn : List UInt8} (hs : m.nodes fn = none)
    (act : Mount → Inode → Mount × FileReply) :
    ∃ n, withInode κ m fn act = (m.tick n, .code (-enoent)) := by
  obtain ⟨n, fe, he, _⟩ := sfsLookup_refines hκ hm fn
  rw [Volume.lookup, nodes_eq_none.mp hs] at he
  refine ⟨n, ?_⟩
  rw [withInode, sfsInodeLookup, if_neg (by decide), he]
  rfl

/-- The name is found and the inode filled in from its entry. -/
theorem withInode_some (hκ : κ.Reliable) (hm : m.Wf) {fn : List UInt8} {i : ℕ}
    (hs : m.volume.slotOf fn = some i) (act : Mount → Inode → Mount × FileReply) :
    ∃ n, withInode κ m fn act = act (m.tick n) (fillInode ((i : ℤ) + 1) (m.volume.entry i)) := by
  obtain ⟨n, fe, he, hfe⟩ := sfsLookup_refines hκ hm fn
  rw [Volume.lookup, hs] at he
  rw [hfe i hs] at he
  have hne : ((i : ℤ) + 1) ≠ -1 := by omega
  refine ⟨n, ?_⟩
  rw [withInode, sfsInodeLookup, if_neg (by decide), he]
  simp only [Option.elim_some, hne, ↓reduceIte]

/-- What is written back of the inode of a file: its size, its time, its permissions, and
no block behind the size. -/
theorem writeInode_serves (hκ : κ.Reliable) (h : m.Serving) {fn : List UInt8} {i : ℕ}
    (hs : m.volume.slotOf fn = some i) {inode : Inode} (hino : inode.iIno = (i : ℤ) + 1)
    (hmode : inode.iMode = modeOfPerms (m.volume.entry i).perms) {size : ℕ} (hsize : size < 2 ^ 31)
    (now : UInt32) : ∃ m', sfsWriteInode κ m (inode.touch size now) = (m', 0) ∧ m'.Serving ∧
      m'.sb = m.sb ∧ m'.nodes = m.nodes.put fn { nodeAt m.dev (m.volume.file i) with
        size := size
        time := now
        block := fun k => if 512 * k < size then blockAt m.dev (m.volume.file i) k else none } := by
  have hlive := Volume.live_of_slotOf hs
  have hcn : (m.volume.entry i).cname = fn := (Volume.slotOf_eq_some.mp hs).2.1.2
  obtain ⟨m', he, hb⟩ := sfsUpdate_refines hκ h.wf hlive.1 (some size) (some (now.toNat : ℤ))
    (some (permsOfMode inode.iMode))
  have hstep : step κ m (.update ((i : ℤ) + 1) (some size) (some (now.toNat : ℤ))
      (some (permsOfMode inode.iMode))) = m' := by rw [step, Op.run, he]
  have hserving : m'.Serving := by
    rw [← hstep]
    exact h.step hκ ⟨i, rfl, hlive⟩ trivial trivial
  have hdata : m.SameData m' := by
    rw [← hstep]
    exact step_sameData hκ h.wf ⟨i, hlive.1, rfl⟩
  set fe := (m.volume.entry i).withAttrs (some size) (some (now.toNat : ℤ))
    (some (permsOfMode inode.iMode)) with hfe
  have hdir := (h.catalog.rewrite m'.volume (fe.keep fe.sizeBlocks) hlive rfl
    (by rw [hb.volume]; rfl) fun j => by
      rw [hb.volume, Volume.update, Volume.release_entry]).2
  rw [hcn] at hdir
  refine ⟨m', ?_, hserving, hb.sb, ?_⟩
  · have hreg : sIsReg (inode.touch size now).iMode = true := by
      rw [show (inode.touch size now).iMode = inode.iMode from rfl, hmode]
      exact sIsReg_modeOfPerms _
    have hmax : (if (inode.touch size now).iMtime > (inode.touch size now).iCtime then
        (inode.touch size now).iMtime else (inode.touch size now).iCtime) = (now.toNat : ℤ) :=
      ite_self _
    rw [sfsWriteInode, if_neg (not_not_intro hreg), hmax,
      show (inode.touch size now).iIno = (i : ℤ) + 1 from hino]
    exact he
  · rw [nodes_update hdir fun g f _ hf => hdata.nodeAt h.owned hf]
    refine congrArg (Function.update m.nodes fn)
      (congrArg some (Node.ext ?_ ?_ ?_ (funext fun k => ?_)))
    · change (UInt32.ofInt (size : ℤ)).toNat = size
      exact toNat_ofInt_natCast (by omega)
    · change modeOfPerms (if permsOfMode inode.iMode ≤ 7 then
        UInt32.ofInt (permsOfMode inode.iMode) else _) = modeOfPerms (m.volume.entry i).perms
      rw [if_pos (permsOfMode_le _), modeOfPerms_permsOfMode, hmode, widen_modeOfPerms]
    · change UInt32.ofInt (now.toNat : ℤ) = now
      exact UInt32.toNat_inj.mp (toNat_ofInt_natCast now.toNat_lt)
    · have hblocks : fe.sizeBlocks = (size + 511) / 512 :=
        sizeBlocks_withAttrs _ (Int.natCast_nonneg size) (by exact_mod_cast hsize) _ _
      have hfile : m.volume.dir fn = some (m.volume.file i) := by
        rw [Volume.dir, hs]
        rfl
      have hold : blockAt m'.dev (m.volume.file i) k = blockAt m.dev (m.volume.file i) k :=
        congrFun (congrArg Node.block (hdata.nodeAt h.owned hfile)) k
      change blockAt m'.dev ⟨_, _, _, _, (fe.keep fe.sizeBlocks).blocks⟩ k =
        if 512 * k < size then blockAt m.dev (m.volume.file i) k else none
      rw [← hold]
      unfold blockAt
      by_cases hk : k < 9
      · simp only [dif_pos hk, Volume.keep_blocks, hblocks]
        by_cases hlt : 512 * k < size
        · have hkeep : ¬ (size + 511) / 512 ≤ k := by omega
          simp only [hlt, hkeep, ↓reduceIte]
          rfl
        · have hdrop : (size + 511) / 512 ≤ k := by omega
          simp only [hlt, hdrop, ↓reduceIte]
      · simp [hk]

/-- `m'` is `m` with index `k` of the file in slot `i` pointing at block `b`. -/
structure Mount.Maps (m m' : Mount) (fn : List UInt8) (i : ℕ) (k : Fin 9) (b : UInt32) : Prop where
  serving : m'.Serving
  sb_eq : m'.sb = m.sb
  data : m.SameData m'
  held : m'.volume.Held (i, k) b.toNat
  dir : m'.volume.dir = Function.update m.volume.dir fn (some { m.volume.file i with
    blocks := Function.update (m.volume.file i).blocks k b })

/-- A block is mapped for writing: the one it had, or the first free one. -/
theorem getBlock_maps (hκ : κ.Reliable) (h : m.Serving) {fn : List UInt8} {i : ℕ}
    (hs : m.volume.slotOf fn = some i) (k : Fin 9)
    (hgap : ∀ j < k, (m.volume.entry i).blocks j ≠ 0)
    (hroom : (m.volume.entry i).blocks k ≠ 0 ∨ m.usedBlocks.free m.sb.dataBlockStart.toNat ≠ []) :
    ∃ m' b, sfsGetBlock κ m ((i : ℤ) + 1) k true = (m', 0, some b) ∧ m.Maps m' fn i k b := by
  have hlive := Volume.live_of_slotOf hs
  by_cases h0 : (m.volume.entry i).blocks k = 0
  · obtain ⟨b, bs, hb⟩ := List.exists_cons_of_ne_nil (hroom.resolve_left fun hne => hne h0)
    have hget := sfsGetBlock_writes hκ.toSound h.wf hlive.1 k (hκ.bread _ _) h0 hb
    rw [if_pos (hκ.bread _ _)] at hget
    have hstep : step κ m (.getBlock ((i : ℤ) + 1) k true) = (m.tick 1).granted i k b := by
      rw [step, Op.run, hget]
    have hgapless : (Op.getBlock ((i : ℤ) + 1) k true).Gapless m := by
      rintro i' k' hi hk _ _ j hj
      obtain rfl : i = i' := by omega
      obtain rfl : k = k' := Fin.ext hk
      exact hgap j hj
    have hserving : ((m.tick 1).granted i k b).Serving := by
      rw [← hstep]
      exact h.step hκ ⟨i, rfl, hlive⟩ hgapless trivial
    obtain ⟨_, hlt, _⟩ := Volume.free_head (v := m.volume) hb
    have hsmall := h.wf.size_lt
    have hpos : 0 < b := Nat.lt_of_lt_of_le h.wf.start_pos (Volume.free_head (v := m.volume) hb).1
    have hdir := (h.catalog.rewrite (m.volume.grant i k b)
      ((m.volume.entry i).point k (UInt32.ofNat b)) hlive rfl rfl
      fun j => m.volume.grant_entry i j k b).2
    rw [(Volume.slotOf_eq_some.mp hs).2.1.2] at hdir
    refine ⟨_, _, hget, hserving, rfl, m.sameData_granted h.wf.geometry hlive.1 1 k b, ?_, ?_⟩
    · rw [Mount.granted_volume, UInt32.toNat_ofNat', Nat.mod_eq_of_lt (by omega)]
      exact (Volume.held_grant_self hlive.1 (by omega) (by omega)).mpr rfl
    · rw [Mount.granted_volume]
      exact hdir
  · refine ⟨_, _, sfsGetBlock_mapped hκ.toSound h.wf hlive.1 k true (hκ.bread _ _) h0,
      h.tick 1, rfl,
      m.sameData_tick 1, Volume.held_of_ne hlive.1 h0, ?_⟩
    have hself : Function.update (m.volume.file i).blocks k ((entryAt m.dev i).blocks k) =
        (m.volume.file i).blocks := Function.update_eq_self k _
    have hfile : m.volume.dir fn = some (m.volume.file i) := by
      rw [Volume.dir, hs]
      rfl
    rw [hself, Mount.tick_volume]
    change _ = Function.update m.volume.dir fn (some (m.volume.file i))
    rw [← hfile, Function.update_eq_self]

/-- The data written to a mapped block are those of its file. -/
theorem submitWrite_serves (h : m.Serving) {fn : List UInt8} {i : ℕ}
    (hs : m.volume.slotOf fn = some i) {k : Fin 9} {b : UInt32}
    (hb : m.volume.Held (i, k) b.toNat) (data : Store) : (m.submitWrite b data).Serving ∧
      (m.submitWrite b data).nodes = m.nodes.put fn { nodeAt m.dev (m.volume.file i) with
        block := Function.update (blockAt m.dev (m.volume.file i)) k (some (data.bytes 512)) } := by
  have hlo := h.owned.data hb
  have hfile : m.volume.dir fn = some (m.volume.file i) := by
    rw [Volume.dir, hs]
    rfl
  have hdir : (m.submitWrite b data).volume.dir =
      Function.update m.volume.dir fn (some (m.volume.file i)) := by
    rw [(submitWrite_same h.wf hlo data).dir, ← hfile, Function.update_eq_self]
  -- a block held anywhere else is another one
  have hout : ∀ {p : ℕ × Fin 9} {c : ℕ}, m.volume.Held p c → p ≠ (i, k) → ∀ j < 512,
      (m.submitWrite b data).dev (512 * c + j) = m.dev (512 * c + j) := by
    intro p c hp hne j hj
    have hcb : c ≠ b.toNat := by
      rintro rfl
      exact hne (h.owned.ledger.inj hp hb)
    rw [submitWrite_dev h.wf]
    exact Store.blit_outside _ _ (by omega)
  refine ⟨h.submitWrite hlo data, ?_⟩
  rw [nodes_update hdir fun g f hg hf => ?_]
  · refine congrArg (Function.update m.nodes fn)
      (congrArg some (Node.ext rfl rfl rfl (funext fun l => ?_)))
    change blockAt _ _ l = Function.update (blockAt m.dev (m.volume.file i)) k.val _ l
    rw [Function.update_apply]
    split_ifs with hl
    · subst hl
      have hbk : (m.volume.file i).blocks k = b := UInt32.toNat_inj.mp hb.2.1
      have hne : b ≠ 0 := fun hz => hb.2.2 (congrArg UInt32.toNat hz)
      rw [blockAt_fin, hbk, if_neg hne, submitWrite_dev h.wf]
      exact congrArg some (Store.bytes_congr fun j hj => Store.window_blit_self _ _ hj)
    · refine blockAt_congr fun hl9 h0 j hj => ?_
      refine hout (Volume.held_of_ne (k := ⟨l, hl9⟩) hb.1 h0) ?_ j hj
      rintro hp
      exact hl (congrArg (fun p : ℕ × Fin 9 => p.2.val) hp)
  · refine h.owned.nodeAt_congr hf ?_
    rintro c ⟨i', l, hi', hheld⟩ _ j hj
    refine hout hheld ?_ j hj
    rintro hp
    obtain rfl : i' = i := congrArg Prod.fst hp
    have hgn := (Volume.slotOf_eq_some.mp hi').2.1.2
    have hfn := (Volume.slotOf_eq_some.mp hs).2.1.2
    exact hg (hgn.symm.trans hfn)

namespace Mount.Maps

variable {m' : Mount} {fn : List UInt8} {i : ℕ} {k : Fin 9} {b : UInt32} (h : m.Maps m' fn i k b)

include h

theorem slot_file : m'.volume.slotOf fn = some i ∧ m'.volume.file i = { m.volume.file i with
    blocks := Function.update (m.volume.file i).blocks k b } := by
  have hd : m'.volume.dir fn = some { m.volume.file i with
      blocks := Function.update (m.volume.file i).blocks k b } := by
    rw [h.dir, Function.update_self]
  obtain ⟨j, hs, hfile⟩ := Option.map_eq_some_iff.mp hd
  have hino : (j : ℤ) + 1 = (i : ℤ) + 1 := congrArg File.ino hfile
  obtain rfl : j = i := by omega
  exact ⟨hs, hfile⟩

variable (ho : m.volume.Owned) (hs : m.volume.slotOf fn = some i)

include ho

theorem nodes : m'.nodes = m.nodes.put fn (nodeAt m'.dev (m'.volume.file i)) := by
  rw [nodes_update h.dir fun g f _ hf => h.data.nodeAt ho hf, h.slot_file.2]
  rfl

include hs

theorem block {l : ℕ} (hl : l ≠ k.val) :
    blockAt m'.dev (m'.volume.file i) l = blockAt m.dev (m.volume.file i) l := by
  have hfile : m.volume.dir fn = some (m.volume.file i) := by
    rw [Volume.dir, hs]
    rfl
  rw [h.slot_file.2, blockAt_update hl]
  exact congrFun (congrArg Node.block (h.data.nodeAt ho hfile)) l

end Mount.Maps

/-- A block is written with its file: the data at their index, and the size raised to
cover them. -/
theorem writeBlock_serves (hκ : κ.Reliable) (h : m.Serving) {fn : List UInt8} {i : ℕ}
    (hs : m.volume.slotOf fn = some i) (k : Fin 9)
    (hgap : ∀ j < k, (m.volume.entry i).blocks j ≠ 0)
    (hroom : (m.volume.entry i).blocks k ≠ 0 ∨ m.usedBlocks.free m.sb.dataBlockStart.toNat ≠ [])
    {size : ℕ} (hsize : (m.volume.entry i).size.toNat = size) (hlt : size < 2 ^ 31)
    (hbehind : ∀ l, blockAt m.dev (m.volume.file i) l ≠ none → l < 9 ∧ 512 * l < size)
    (data : Store) (now : UInt32) :
    ∃ m', writeBlock κ m (fillInode ((i : ℤ) + 1) (m.volume.entry i)) k data now =
        (m', .code 0) ∧ m'.Serving ∧ m'.sb = m.sb ∧
      m'.nodes = m.nodes.put fn { nodeAt m.dev (m.volume.file i) with
        size := max size (512 * (k.val + 1))
        time := now
        block := Function.update (blockAt m.dev (m.volume.file i)) k (some (data.bytes 512)) } := by
  obtain ⟨m₁, b, hget, hmaps⟩ := getBlock_maps hκ h hs k hgap hroom
  obtain ⟨hs₁, hfile₁⟩ := hmaps.slot_file
  obtain ⟨hserv₂, hnodes₂⟩ := submitWrite_serves hmaps.serving hs₁ hmaps.held data
  set m₂ := m₁.submitWrite b data with hm₂
  have hsame : m₁.volume.Same m₂.volume :=
    submitWrite_same hmaps.serving.wf (hmaps.serving.owned.data hmaps.held) data
  have hs₂ : m₂.volume.slotOf fn = some i := (hsame.slotOf fn).trans hs₁
  have hperms : (m₁.volume.entry i).perms = (m.volume.entry i).perms := congrArg File.perms hfile₁
  have hmode : (fillInode ((i : ℤ) + 1) (m.volume.entry i)).iMode =
      modeOfPerms (m₂.volume.entry i).perms := by
    rw [hsame.entry i (Volume.live_of_slotOf hs₁).1, hperms]
    rfl
  have hsize' : max size (512 * (k.val + 1)) < 2 ^ 31 := max_lt hlt (by omega)
  obtain ⟨m₃, hw, hserv₃, hsb₃, hnodes₃⟩ := writeInode_serves hκ hserv₂ hs₂
    (show (fillInode ((i : ℤ) + 1) (m.volume.entry i)).iIno = (i : ℤ) + 1 from rfl) hmode hsize' now
  have hmax : max (fillInode ((i : ℤ) + 1) (m.volume.entry i)).iSize
      ((m₂.sBlocksize : ℤ) * ((k.val : ℤ) + 1)) = ((max size (512 * (k.val + 1)) : ℕ) : ℤ) := by
    have hold : (fillInode ((i : ℤ) + 1) (m.volume.entry i)).iSize = (size : ℤ) :=
      congrArg Nat.cast hsize
    rw [hold, hserv₂.wf.sBlocksize_eq]
    omega
  have hnode₂ : nodeAt m₂.dev (m₂.volume.file i) = { nodeAt m₁.dev (m₁.volume.file i) with
      block := Function.update (blockAt m₁.dev (m₁.volume.file i)) k (some (data.bytes 512)) } := by
    have hat := nodes_of_slot hs₂
    rw [hnodes₂, Nodes.put, Function.update_self] at hat
    exact (Option.some.inj hat).symm
  refine ⟨m₃, ?_, hserv₃, hsb₃.trans hmaps.sb_eq, ?_⟩
  · rw [writeBlock, show sfsGetBlock κ m (fillInode ((i : ℤ) + 1) _).iIno k true = _ from hget]
    simp only [← hm₂, hmax, hw]
  · rw [hnodes₃, hnodes₂, hmaps.nodes h.owned]
    unfold Nodes.put
    rw [Function.update_idem, Function.update_idem]
    refine congrArg (Function.update m.nodes fn)
      (congrArg some (Node.ext rfl ?_ rfl (funext fun l => ?_)))
    · exact (congrArg Node.mode hnode₂).trans (congrArg modeOfPerms hperms)
    · have hblock₂ : blockAt m₂.dev (m₂.volume.file i) l =
          Function.update (blockAt m.dev (m.volume.file i)) k (some (data.bytes 512)) l := by
        have hat := congrFun (congrArg Node.block hnode₂) l
        refine hat.trans ?_
        change Function.update (blockAt m₁.dev (m₁.volume.file i)) k.val _ l = _
        by_cases hl : l = k.val
        · rw [hl, Function.update_self, Function.update_self]
        · rw [Function.update_of_ne hl, Function.update_of_ne hl, hmaps.block h.owned hs hl]
      change (if 512 * l < max size (512 * (k.val + 1)) then blockAt m₂.dev (m₂.volume.file i) l
        else none) = _
      rw [hblock₂]
      change _ = Function.update (blockAt m.dev (m.volume.file i)) k.val _ l
      by_cases hl : l = k.val
      · rw [if_pos (lt_max_of_lt_right (by omega))]
      · rw [Function.update_of_ne hl]
        by_cases hb : blockAt m.dev (m.volume.file i) l = none
        · rw [hb, ite_self]
        · exact if_pos (lt_max_of_lt_left (hbehind l hb).2)

/-- The mount serves the files `F` of a device with super block `sb`. -/
structure Serves (sb : SfsSuperBlock) (m : Mount) (F : Nodes) : Prop where
  serving : m.Serving
  sb_eq : m.sb = sb
  nodes : m.nodes = F

/-- A call is answered as the store answers it. -/
def Answered (sb : SfsSuperBlock) (r : Mount × FileReply) (s : Nodes × FileReply) : Prop :=
  r.2 = s.2 ∧ Serves sb r.1 s.1

namespace Serves

variable (hκ : κ.Reliable) (h : Serves sb m F)

include h

theorem tick (n : ℕ) : Serves sb (m.tick n) F := ⟨h.serving.tick n, h.sb_eq, h.nodes⟩

include hκ

theorem create {fn : List UInt8} (hfn : SfsFileEntry.NameOk fn) (mode now : UInt32) :
    Answered sb (serve κ m (.create fn mode now)) (F.step sb.capacity (.create fn mode now)) := by
  obtain ⟨m', he, hb⟩ := sfsCreate_refines hκ h.serving.wf fn (permsOfMode mode) now
  have hstep : step κ m (.create fn (permsOfMode mode) now) = m' := by rw [step, Op.run, he]
  have hserving : m'.Serving := hstep ▸
    h.serving.step hκ (show (Op.create fn (permsOfMode mode) now).Legal _ from trivial) trivial hfn
  have hdata : m.SameData m' := hstep ▸ step_sameData hκ h.serving.wf
    (show (Op.create fn (permsOfMode mode) now).Addressed _ from trivial)
  have hsb : m'.sb = sb := hb.sb.trans h.sb_eq
  have hd := (h.serving.catalog.create hfn (permsOfMode mode) now).2
  have hkeys : (SlotMap.keys F).ncard = (SlotMap.keys m.volume.dir).ncard := by
    rw [← h.nodes, keys_nodes]
  have hcap : sb.capacity.names = m.volume.count := by
    rw [← h.sb_eq]
    rfl
  have hcond : F fn = none ∧ (SlotMap.keys F).ncard < sb.capacity.names ↔
      m.volume.dir fn = none ∧ (SlotMap.keys m.volume.dir).ncard < m.volume.count := by
    rw [← h.nodes, nodes_eq_none, Volume.dir_eq_none, h.nodes, hkeys, hcap]
  rw [← hb.volume] at hd
  simp only [serve, sfsInodeCreate, he, Nodes.step]
  generalize (m.volume.create fn (permsOfMode mode) now).2 = ino at hd
  generalize hdir : m'.volume.dir = d at hd
  cases hd with
  | create _ _ _ _ habsent hroom hino hfresh =>
    have hne : ino ≠ -1 := by omega
    rw [if_pos (hcond.mpr ⟨habsent, hroom⟩)]
    simp only [hne, not_true_eq_false, ↓reduceIte]
    refine ⟨rfl, hserving, hsb, ?_⟩
    rw [nodes_update hdir fun g f _ hf => hdata.nodeAt h.serving.owned hf, h.nodes]
    refine congrArg (Function.update F fn)
      (congrArg some (Node.ext rfl ?_ rfl (funext fun k => ?_)))
    · exact modeOfPerms_permsOfMode mode
    · by_contra hk
      obtain ⟨_, h0⟩ := blockAt_ne_none.mp hk
      exact h0 rfl
  | createFails _ _ _ hno =>
    rw [if_neg fun hc => hno (hcond.mp hc)]
    simp only [↓reduceIte]
    exact ⟨rfl, hserving, hsb, (nodes_sameData hdata h.serving.owned hdir).trans h.nodes⟩

theorem unlink (fn : List UInt8) :
    Answered sb (serve κ m (.unlink fn)) (F.step sb.capacity (.unlink fn)) := by
  obtain ⟨m', he, hb⟩ := sfsRemove_refines hκ h.serving.wf fn
  have hstep : step κ m (.remove fn) = m' := by rw [step, Op.run, he]
  have hdata : m.SameData m' := hstep ▸
    step_sameData hκ h.serving.wf (show (Op.remove fn).Addressed _ from trivial)
  have hsb : m'.sb = sb := hb.sb.trans h.sb_eq
  have hcat := h.serving.catalog.remove fn
  have hserving : m'.Serving := by
    have hs := h.serving.toSettled.step hκ (show (Op.remove fn).Legal _ from trivial) trivial
    rw [hstep] at hs
    exact ⟨hs, hb.volume ▸ hcat.1⟩
  have hd := hcat.2
  rw [← hb.volume] at hd
  simp only [serve, sfsInodeUnlink, he, Nodes.step]
  generalize (m.volume.remove fn).2 = ino at hd
  generalize hdir : m'.volume.dir = d at hd
  cases hd with
  | remove _ f hf =>
    have hF : F fn = some (nodeAt m.dev f) := by
      rw [← h.nodes, Mount.nodes, hf]
      rfl
    have hne : f.ino ≠ -1 := by
      obtain ⟨i, _, rfl⟩ := Option.map_eq_some_iff.mp hf
      change (i : ℤ) + 1 ≠ -1
      omega
    simp only [hF, hne, ↓reduceIte]
    refine ⟨rfl, hserving, hsb, ?_⟩
    rw [nodes_update hdir fun g f _ hf => hdata.nodeAt h.serving.owned hf, h.nodes]
    rfl
  | removeFails _ hno =>
    have hF : F fn = none := by
      rw [← h.nodes, nodes_eq_none, ← Volume.dir_eq_none, hno]
    simp only [hF, ↓reduceIte]
    exact ⟨rfl, hserving, hsb, (nodes_sameData hdata h.serving.owned hdir).trans h.nodes⟩

omit hκ in
/-- The slot behind a file of the store. -/
theorem slot {fn : List UInt8} {f : Node} (hf : F fn = some f) :
    ∃ i, m.volume.slotOf fn = some i ∧ f = nodeAt m.dev (m.volume.file i) := by
  rw [← h.nodes] at hf
  exact nodes_eq_some.mp hf

theorem stat (fn : List UInt8) :
    Answered sb (serve κ m (.stat fn)) (F.step sb.capacity (.stat fn)) := by
  rw [serve, Nodes.step]
  cases hF : F fn with
  | none =>
    obtain ⟨n, he⟩ := withInode_none hκ h.serving.wf (h.nodes ▸ hF)
      fun m inode => (m, .attrs inode.iSize inode.iMode inode.iMtime)
    rw [he]
    exact ⟨rfl, h.tick n⟩
  | some f =>
    obtain ⟨i, hs, rfl⟩ := h.slot hF
    obtain ⟨n, he⟩ := withInode_some hκ h.serving.wf hs
      fun m inode => (m, .attrs inode.iSize inode.iMode inode.iMtime)
    rw [he]
    exact ⟨rfl, h.tick n⟩

theorem truncate (fn : List UInt8) {size : ℕ} (hsize : size < 2 ^ 31) (now : UInt32) :
    Answered sb (serve κ m (.truncate fn size now))
      (F.step sb.capacity (.truncate fn size now)) := by
  rw [serve, Nodes.step]
  cases hF : F fn with
  | none =>
    obtain ⟨n, he⟩ := withInode_none hκ h.serving.wf (h.nodes ▸ hF) fun m inode =>
      ((sfsWriteInode κ m (inode.touch size now)).1,
        .code (sfsWriteInode κ m (inode.touch size now)).2)
    rw [he]
    exact ⟨rfl, h.tick n⟩
  | some f =>
    obtain ⟨i, hs, rfl⟩ := h.slot hF
    obtain ⟨n, he⟩ := withInode_some hκ h.serving.wf hs fun m inode =>
      ((sfsWriteInode κ m (inode.touch size now)).1,
        .code (sfsWriteInode κ m (inode.touch size now)).2)
    obtain ⟨m', hw, hserving, hsb, hnodes⟩ := writeInode_serves hκ (h.serving.tick n) hs
      (show (fillInode ((i : ℤ) + 1) (m.volume.entry i)).iIno = (i : ℤ) + 1 from rfl) rfl hsize now
    rw [he]
    simp only [hw]
    refine ⟨rfl, hserving, hsb.trans h.sb_eq, ?_⟩
    rw [hnodes, show (m.tick n).nodes = m.nodes from rfl, h.nodes]
    rfl

theorem write (ht : F.Tidy) (fn : List UInt8) (k : ℕ) (data : Store) (now : UInt32)
    (hr : F.Allowed (.write fn k data now)) :
    Answered sb (serve κ m (.write fn k data now)) (F.step sb.capacity (.write fn k data now)) := by
  rw [serve, Nodes.step]
  cases hF : F fn with
  | none =>
    obtain ⟨n, he⟩ := withInode_none hκ h.serving.wf (h.nodes ▸ hF)
      fun m inode => writeBlock κ m inode k data now
    rw [he]
    exact ⟨rfl, h.tick n⟩
  | some f =>
    obtain ⟨hsize, hbehind⟩ := ht fn f hF
    have hbelow := hr f hF
    obtain ⟨i, hs, rfl⟩ := h.slot hF
    have hlt := (Volume.live_of_slotOf hs).1
    obtain ⟨n, he⟩ := withInode_some hκ h.serving.wf hs
      fun m inode => writeBlock κ m inode k data now
    have hn := h.tick n
    rw [he]
    simp only
    by_cases hk : k < 9
    · have hgap : ∀ j < (⟨k, hk⟩ : Fin 9), (m.volume.entry i).blocks j ≠ 0 :=
        fun j hj => (blockAt_ne_none.mp (hbelow j.val hj)).2
      have hroom : (k < 9 ∧ ((nodeAt m.dev (m.volume.file i)).block k ≠ none ∨
          F.stored.ncard < sb.capacity.blocks)) ↔ (m.volume.entry i).blocks ⟨k, hk⟩ ≠ 0 ∨
            m.usedBlocks.free m.sb.dataBlockStart.toNat ≠ [] := by
        rw [← h.nodes, ← h.sb_eq, stored_lt_iff h.serving]
        refine (and_iff_right hk).trans (or_congr_left ?_)
        exact blockAt_ne_none.trans ⟨fun h => h.2, fun h => ⟨hk, h⟩⟩
      by_cases hc : (m.volume.entry i).blocks ⟨k, hk⟩ ≠ 0 ∨
          m.usedBlocks.free m.sb.dataBlockStart.toNat ≠ []
      · obtain ⟨m', hw, hserving, hsb, hnodes⟩ := writeBlock_serves hκ hn.serving hs ⟨k, hk⟩ hgap hc
          (rfl : (nodeAt m.dev (m.volume.file i)).size = _) hsize hbehind data now
        rw [if_pos (hroom.mpr hc)]
        refine ⟨congrArg Prod.snd hw, ?_⟩
        rw [show writeBlock κ (m.tick n) (fillInode ((i : ℤ) + 1) (m.volume.entry i)) k data now = _
          from hw]
        exact ⟨hserving, hsb.trans h.sb_eq, hnodes.trans (congrArg (Nodes.put · fn _) h.nodes)⟩
      · obtain ⟨hz, hfull⟩ := not_or.mp hc
        have hget := sfsGetBlock_full (m := m.tick n) hκ.toSound hn.serving.wf hlt ⟨k, hk⟩
          (hκ.bread _ _) (not_not.mp hz) (not_not.mp hfull)
        rw [if_neg fun hcond => hc (hroom.mp hcond), writeBlock,
          show sfsGetBlock κ (m.tick n) (fillInode ((i : ℤ) + 1) _).iIno k true = _ from hget]
        exact ⟨rfl, hn.tick 1⟩
    · rw [if_neg fun hcond => hk hcond.1, writeBlock, sfsGetBlock_far hk]
      exact ⟨rfl, hn⟩

theorem read (fn : List UInt8) (k : ℕ) :
    Answered sb (serve κ m (.read fn k)) (F.step sb.capacity (.read fn k)) := by
  rw [serve, Nodes.step]
  cases hF : F fn with
  | none =>
    obtain ⟨n, he⟩ := withInode_none hκ h.serving.wf (h.nodes ▸ hF)
      fun m inode => readBlock κ m inode k
    rw [he]
    exact ⟨rfl, h.tick n⟩
  | some f =>
    obtain ⟨i, hs, rfl⟩ := h.slot hF
    have hlt := (Volume.live_of_slotOf hs).1
    obtain ⟨n, he⟩ := withInode_some hκ h.serving.wf hs fun m inode => readBlock κ m inode k
    have hn := h.tick n
    have hfield : (nodeAt m.dev (m.volume.file i)).block = blockAt m.dev (m.volume.file i) := rfl
    rw [he, readBlock]
    simp only [hfield]
    by_cases hk : k < 9
    · by_cases h0 : (m.volume.entry i).blocks ⟨k, hk⟩ = 0
      · have hget := sfsGetBlock_hole (m := m.tick n) hκ.toSound hn.serving.wf hlt ⟨k, hk⟩
          (hκ.bread _ _) h0
        have hblock : blockAt m.dev (m.volume.file i) k = none := by
          rw [blockAt, dif_pos hk]
          exact if_pos h0
        rw [hblock, show sfsGetBlock κ (m.tick n) (fillInode ((i : ℤ) + 1) _).iIno k false = _
          from hget]
        simp only [hk, ↓reduceIte]
        exact ⟨rfl, hn.tick 1⟩
      · have hget := sfsGetBlock_mapped (m := m.tick n) hκ.toSound hn.serving.wf hlt ⟨k, hk⟩ false
          (hκ.bread _ _) h0
        have hblock : blockAt m.dev (m.volume.file i) k =
            some (m.dev.slice (512 * ((m.volume.entry i).blocks ⟨k, hk⟩).toNat) 512) := by
          rw [blockAt, dif_pos hk]
          exact if_neg h0
        rw [hblock, show sfsGetBlock κ (m.tick n) (fillInode ((i : ℤ) + 1) _).iIno k false = _
          from hget]
        refine ⟨?_, hn.tick 1⟩
        exact congrArg FileReply.data (submitRead_eq (hn.tick 1).serving.wf _)
    · have hblock : blockAt m.dev (m.volume.file i) k = none := dif_neg hk
      rw [hblock, sfsGetBlock_far hk]
      simp only [hk, ↓reduceIte]
      exact ⟨rfl, hn⟩

theorem remount : Answered sb (serve κ m .remount) (F.step sb.capacity .remount) := by
  obtain ⟨m', he, hserving, hsb, hdev, hsame⟩ := h.serving.remount hκ
  rw [serve, Nodes.step, he]
  refine ⟨rfl, hserving, hsb.trans h.sb_eq, ?_⟩
  rw [← h.nodes]
  unfold Mount.nodes
  rw [hsame.dir, hdev]

theorem serve (ht : F.Tidy) {r : FileCall} (hr : F.Allowed r) :
    Answered sb (serve κ m r) (F.step sb.capacity r) := by
  cases r with
  | create fn mode now => exact h.create hκ hr mode now
  | unlink fn => exact h.unlink hκ fn
  | stat fn => exact h.stat hκ fn
  | truncate fn size now => exact h.truncate hκ fn hr now
  | write fn k data now => exact h.write hκ ht fn k data now hr
  | read fn k => exact h.read hκ fn k
  | remount => exact h.remount hκ

end Serves

/-! ### Runs -/

/-- A fresh mount serves no file. -/
theorem Mount.Fresh.serves (h : m.Fresh) : Serves m.sb m fun _ => none where
  serving := ⟨h.settled, h.catalog⟩
  sb_eq := rfl
  nodes := by
    funext fn
    refine nodes_eq_none.mpr (Volume.first_eq_none.mpr fun i hi hn => ?_)
    rw [h.empty i hi] at hn
    exact SfsFileEntry.zero_not_named hn.1

/-- The relation between a mount and the store that every allowed call keeps. -/
theorem serve_simulates (hκ : κ.Reliable) (sb : SfsSuperBlock) (m' : Mount) (F : Nodes)
    (r : FileCall) (h : Serves sb m' F ∧ F.Tidy) (hr : F.Allowed r) :
    (Sfs.serve κ m' r).2 = (F.step sb.capacity r).2 ∧
      Serves sb (Sfs.serve κ m' r).1 (F.step sb.capacity r).1 ∧ (F.step sb.capacity r).1.Tidy := by
  have hans := h.1.serve hκ h.2 hr
  exact ⟨hans.1, hans.2, h.2.step hr⟩

theorem Mounted.serves (hκ : κ.Reliable) (hm : Mounted κ m) :
    Serves m.sb m (fun _ => none) ∧ Nodes.Tidy (fun _ => none) :=
  ⟨(hm.fresh hκ).serves, fun _ _ hf => by cases hf⟩

/-- The call may change the data of block `k` of `fn`. -/
def FileCall.Disturbs (fn : List UInt8) (k : ℕ) : FileCall → Prop
  | .unlink gn => gn = fn
  | .truncate gn size _ => gn = fn ∧ size ≤ 512 * k
  | .write gn l _ _ => gn = fn ∧ l = k
  | _ => False

/-- Block `k` of `fn` holds `d`. -/
def Nodes.Holds (F : Nodes) (fn : List UInt8) (k : ℕ) (d : List UInt8) : Prop :=
  ∃ f, F fn = some f ∧ f.block k = some d

namespace Nodes

variable {F : Nodes} {cap : Capacity} {fn : List UInt8} {k : ℕ} {d : List UInt8}

theorem Holds.put (h : F.Holds fn k d) (gn : List UInt8) {f : Node}
    (hf : gn = fn → f.block k = some d) : (F.put gn f).Holds fn k d := by
  by_cases hgn : fn = gn
  · exact ⟨f, by rw [put_apply, if_pos hgn], hf hgn.symm⟩
  · obtain ⟨g, hg, hk⟩ := h
    exact ⟨g, by rw [put_apply, if_neg hgn, hg], hk⟩

/-- Other calls leave the data alone. -/
theorem Holds.step (h : F.Holds fn k d) {r : FileCall} (hr : ¬ r.Disturbs fn k) :
    (F.step cap r).1.Holds fn k d := by
  obtain ⟨f, hf, hk⟩ := h
  cases r with
  | create gn mode now =>
    simp only [Nodes.step]
    split_ifs with hc
    · refine Holds.put ⟨f, hf, hk⟩ gn fun hgn => ?_
      rw [hgn, hf] at hc
      exact absurd hc.1 (by simp)
    · exact ⟨f, hf, hk⟩
  | unlink gn =>
    simp only [Nodes.step]
    split
    · exact ⟨f, hf, hk⟩
    · have hne : fn ≠ gn := fun he => hr he.symm
      exact ⟨f, (Function.update_of_ne hne _ _).trans hf, hk⟩
  | stat gn =>
    simp only [Nodes.step]
    split <;> exact ⟨f, hf, hk⟩
  | truncate gn size now =>
    simp only [Nodes.step]
    split
    · exact ⟨f, hf, hk⟩
    · next g hg =>
      refine Holds.put ⟨f, hf, hk⟩ gn fun hgn => ?_
      have hlt : 512 * k < size := by
        by_contra hle
        exact hr ⟨hgn, Nat.not_lt.mp hle⟩
      rw [hgn, hf] at hg
      obtain rfl := Option.some.inj hg
      simp only [if_pos hlt, hk]
  | write gn l data now =>
    simp only [Nodes.step]
    split
    · exact ⟨f, hf, hk⟩
    · next g hg =>
      split_ifs
      · refine Holds.put ⟨f, hf, hk⟩ gn fun hgn => ?_
        have hne : k ≠ l := fun he => hr ⟨hgn, he.symm⟩
        rw [hgn, hf] at hg
        obtain rfl := Option.some.inj hg
        simp only [Function.update_of_ne hne, hk]
      · exact ⟨f, hf, hk⟩
  | read gn l =>
    simp only [Nodes.step]
    split
    · exact ⟨f, hf, hk⟩
    · split <;> exact ⟨f, hf, hk⟩
  | remount => exact ⟨f, hf, hk⟩

/-- A write that succeeds leaves its data. -/
theorem holds_of_write {data : Store} {now : UInt32}
    (h : (F.step cap (.write fn k data now)).2 = .code 0) :
    (F.step cap (.write fn k data now)).1.Holds fn k (data.bytes 512) := by
  simp only [Nodes.step] at h ⊢
  split at h
  · exact absurd h (by simp [enoent])
  · split_ifs at h ⊢
    · exact ⟨_, Function.update_self _ _ _, Function.update_self _ _ _⟩
    · exact absurd h (by simp [enospc])

/-- The data held are those read. -/
theorem Holds.read (h : F.Holds fn k d) : (F.step cap (.read fn k)).2 = .data d := by
  obtain ⟨f, hf, hk⟩ := h
  simp only [Nodes.step, hf, hk]

end Nodes

/-- What a successful write put into a block is read from it, until the block is written
again or the file is cut in front of it or removed, whatever else is done to this file and
to others. -/
theorem driver_reads_written (hκ : κ.Reliable) (hm : Mounted κ m) (pre post : List FileCall)
    (fn : List UInt8) (k : ℕ) (data : Store) (now : UInt32)
    (hl : Run.Along (fun F r => (Nodes.step m.sb.capacity F r).1) Nodes.Allowed (fun _ => none)
      (pre ++ .write fn k data now :: post))
    (hok : (Sfs.serve κ (Run.exec (fun m r => (Sfs.serve κ m r).1) m pre)
      (.write fn k data now)).2 = .code 0)
    (hkeep : ∀ r ∈ post, ¬ r.Disturbs fn k) :
    (Sfs.serve κ (Run.exec (fun m r => (Sfs.serve κ m r).1) m (pre ++ .write fn k data now :: post))
      (.read fn k)).2 = .data (data.bytes 512) := by
  obtain ⟨hlpre, hlw, hlpost⟩ := (Run.along_append _ _ _ _ _).mp hl
  have hpre := Run.exec_related (serve_simulates hκ m.sb) (hm.serves hκ) hlpre
  have hwrite := serve_simulates hκ m.sb _ _ _ hpre hlw
  have hpost := Run.exec_related (serve_simulates hκ m.sb) hwrite.2 hlpost
  set F := Run.exec (fun F r => (Nodes.step m.sb.capacity F r).1) (fun _ => none) pre
  have hw : (F.step m.sb.capacity (.write fn k data now)).1.Holds fn k (data.bytes 512) :=
    Nodes.holds_of_write (hwrite.1.symm.trans hok)
  have hstep : ∀ (G : Nodes) (r : FileCall), G.Holds fn k (data.bytes 512) → ¬ r.Disturbs fn k →
      (G.step m.sb.capacity r).1.Holds fn k (data.bytes 512) := fun _ _ h hr => h.step hr
  have hend := Run.exec_inv hstep hw (Run.along_of_mem _ hkeep)
  rw [Run.exec_append, Run.exec_cons, (serve_simulates hκ m.sb _ _ (.read fn k) hpost trivial).1]
  exact hend.read

/-- The data of one file are read after another one was written and the device remounted. -/
theorem driver_reads_written_sample :
    (Sfs.serve sampleKernel (Run.exec (fun m r => (Sfs.serve sampleKernel m r).1) sampleMount
      ([.create [97] 0o640 5, .create [98] 0o640 5] ++ .write [97] 0 (fun _ => 3) 6 ::
        [.write [98] 0 (fun _ => 4) 7, .remount])) (.read [97] 0)).2 =
      .data (Store.bytes (fun _ => 3) 512) :=
  driver_reads_written sampleKernel_reliable sampleMount_mounted
    [.create [97] 0o640 5, .create [98] 0o640 5] [.write [98] 0 (fun _ => 4) 7, .remount] [97] 0
    (fun _ => 3) 6
    ⟨(by decide : SfsFileEntry.NameOk [97]), (by decide : SfsFileEntry.NameOk [98]),
      fun _ _ j hj => absurd hj (Nat.not_lt_zero j), fun _ _ j hj => absurd hj (Nat.not_lt_zero j),
      trivial, trivial⟩
    (by decide +kernel) (by simp [FileCall.Disturbs])

end Linuxpedia.Sfs
