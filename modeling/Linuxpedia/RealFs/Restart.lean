import Linuxpedia.RealFs.Start
import Linuxpedia.RealFs.Blind
import Linuxpedia.Lib.Run

/-! Quitting and starting again. `init_browsing` marks the pointers of every entry up
to the first zero one, while `sfs_write` frees the old blocks of a file and leaves old
pointers behind the new ones. As long as each write overwrites every old pointer and
stores no -1, the table in memory is the one that would be rebuilt, so a restart
changes the file offset and `block` only and is never noticed. -/

namespace Linuxpedia.RealFs

open Lib Sfs

variable {s : Shell}

/-- The table in memory describes the pointers on the device. -/
structure Settled (s : Shell) : Prop extends s.Sound where
  settled : s.volume.Settled
  fault : s.usedBlocks.fault = false
  outside : ∀ b, s.usedBlocks.size ≤ b → s.usedBlocks.cell b = 0

/-- A write to a writable file overwrites every old pointer, and does not run out of
free blocks just before a partial block. -/
def Command.Tidy (s : Shell) : Command → Prop
  | .write fn stdin _ => ∀ i, s.volume.slotOf fn = some i →
      (s.volume.entry i).perms &&& 2 ≠ 0 → ¬ Torn 0 (s.freeFor i) stdin.input ∧
        ∀ k : Fin 9, (s.taken i stdin.input).length ≤ k.val → (s.volume.entry i).blocks k = 0
  | _ => True

instance (s : Shell) : DecidablePred (Command.Tidy s)
  | .write fn stdin _ =>
    inferInstanceAs (Decidable (∀ i ∈ s.volume.slotOf fn, (s.volume.entry i).perms &&& 2 ≠ 0 →
      ¬ Torn 0 (s.freeFor i) stdin.input ∧
        ∀ k : Fin 9, (s.taken i stdin.input).length ≤ k.val → (s.volume.entry i).blocks k = 0))
  | .list => .isTrue trivial
  | .create _ _ => .isTrue trivial
  | .remove _ => .isTrue trivial
  | .chperm _ _ => .isTrue trivial
  | .read _ => .isTrue trivial

/-- A settled shell has the table that a restart would build. -/
theorem Settled.rebuilt_eq (h : Settled s) : s.rebuilt = s.usedBlocks := by
  have hseen : ∀ b, s.volume.Seen b → b < s.volume.used.size := by
    intro b hb
    obtain ⟨p, hp⟩ := Volume.held_of_seen hb
    exact h.settled.owned.lt_size hp
  have hstart := h.toWf.start_le
  obtain ⟨hsize, hfault, _, _⟩ := Volume.rebuild_ok hstart h.toWf.size_le hseen
    fun _ => 0
  have hcell : (s.volume.rebuild fun _ => 0).cell = s.usedBlocks.cell := by
    funext b
    by_cases hb : b < s.volume.used.size
    · exact h.settled.exact.rebuild_eq h.settled.owned h.settled.packed hstart h.toWf.size_le _ b hb
    · rw [Volume.rebuild_outside hstart h.toWf.size_le hseen _ (Nat.not_lt.mp hb)]
      exact (h.outside b (Nat.not_lt.mp hb)).symm
  rw [h.toWf.rebuilt_eq]
  exact Buffer.ext hsize hcell (hfault.trans h.fault.symm)

/-- Restarting a settled shell moves the file offset and changes `block`. -/
theorem Settled.restart_moves (h : Settled s) : s.Moves (restart .bits32 s) := by
  have hm := RealFs.restart_moves (o := .bits32) h.toSound
  rw [h.rebuilt_eq] at hm
  exact hm

theorem Settled.of_moves {s' : Shell} (h : Settled s) (hm : s.Moves s') : Settled s' := by
  have hs := h.toSound.of_moves hm
  obtain ⟨p, block, rfl⟩ := hm
  exact ⟨hs, h.settled, h.fault, h.outside⟩

theorem Fresh.settled {bytes : ℕ} (h : Fresh bytes s) : Settled s := by
  refine ⟨h.toSound, h.volume.settled, h.volume.table.1, ?_⟩
  intro b hb
  have hseen : ∀ b, s.volume.Seen b → b < s.volume.used.size :=
    fun b hb => absurd hb (h.volume.not_seen b)
  rw [h.used, h.toWf.rebuilt_eq]
  exact Volume.rebuild_outside h.toWf.start_le h.toWf.size_le hseen _ hb

/-! ### Freeing and writing -/

namespace Settled

variable (h : Settled s) {i : ℕ} (hi : i < s.volume.count)

include h hi

/-- Freeing the pointers of a slot clears exactly the blocks that it holds. -/
theorem cleared_eq : s.cleared i = { s.usedBlocks with
    cell := fun b => if b ∈ (s.volume.entry i).prefixPtrs.map UInt32.toNat then 0
      else s.usedBlocks.cell b } := by
  apply Buffer.clear_ok s.usedBlocks _ h.toWf.size_le
  intro b hb
  obtain ⟨k, hk⟩ := Volume.held_of_mem_prefixPtrs hi hb
  exact h.settled.owned.lt_size hk

theorem cleared_cell {b : ℕ} :
    (s.cleared i).cell b ≠ 0 ↔ s.usedBlocks.cell b ≠ 0 ∧ ¬ ∃ k, s.volume.Held (i, k) b := by
  rw [h.cleared_eq hi, ← h.settled.packed.mem_map_prefixPtrs hi]
  by_cases hb : b ∈ (s.volume.entry i).prefixPtrs.map UInt32.toNat
  · simp [hb]
  · simp [hb]

/-- Taking free blocks after slot `i` was freed. -/
theorem takes_eq (bs : List ℕ) : ((s.cleared i).takes bs).fault = false ∧
    (∀ b, s.usedBlocks.size ≤ b → b ∉ bs → ((s.cleared i).takes bs).cell b = 0) ∧
    ∀ b, ((s.cleared i).takes bs).cell b ≠ 0 → b < s.usedBlocks.size →
      ((s.cleared i).takes bs).cell b = 1 := by
  have hcell : ∀ b, ((s.cleared i).takes bs).cell b = if b ∈ bs then 1 else
      if b ∈ (s.volume.entry i).prefixPtrs.map UInt32.toNat then 0 else s.usedBlocks.cell b := by
    intro b
    rw [Buffer.cell_takes, h.cleared_eq hi]
  refine ⟨?_, ?_, ?_⟩
  · rw [Buffer.fault_takes, h.cleared_eq hi]
    exact h.fault
  · intro b hb hn
    rw [hcell, if_neg hn]
    split_ifs
    · rfl
    · exact h.outside b hb
  · intro b
    rw [hcell]
    split_ifs
    · exact fun _ _ => rfl
    · exact fun h0 => absurd rfl h0
    · exact h.settled.exact.bit b

end Settled

/-- What slot `i` points at after a write that overwrites every old pointer. -/
theorem written_blocks_tidy {i : ℕ} {input : List UInt8} (now : UInt32)
    (htorn : ¬ Torn 0 (s.freeFor i) input)
    (hold : ∀ k : Fin 9, (s.taken i input).length ≤ k.val → (s.volume.entry i).blocks k = 0)
    (k : Fin 9) : (s.written i input now).blocks k =
      match (s.taken i input)[k.val]? with
      | some b => UInt32.ofNat b
      | none => 0 := by
  change (storedEntry _ 0 _ _).blocks k = _
  rw [storedEntry_blocks, if_neg (Nat.not_lt_zero _), Nat.sub_zero, if_neg fun hc => htorn hc.1]
  change (match (s.taken i input)[k.val]? with | some b => _ | none => _) = _
  cases hk : (s.taken i input)[k.val]? with
  | some b => rfl
  | none => exact hold k (List.getElem?_eq_none_iff.mp hk)

theorem held_store (hs : s.Wf) {i : ℕ} (hi : i < s.volume.count) {input : List UInt8}
    (now : UInt32) (htorn : ¬ Torn 0 (s.freeFor i) input)
    (hold : ∀ k : Fin 9, (s.taken i input).length ≤ k.val → (s.volume.entry i).blocks k = 0)
    {k : Fin 9} {b : ℕ} :
    (s.store i input now).volume.Held (i, k) b ↔ (s.taken i input)[k.val]? = some b := by
  have he := store_entry_self hs.geometry hi input now
  have hlt : ∀ c, (s.taken i input)[k.val]? = some c → c ≠ 0 ∧ c < 2 ^ 32 := by
    intro c hc
    obtain ⟨hlo, hhi, _⟩ := taken_range (List.mem_of_getElem? hc)
    have hpos := hs.start_pos
    have hle := hs.size_le
    exact ⟨by omega, by omega⟩
  unfold Volume.Held
  rw [he, written_blocks_tidy now htorn hold]
  cases hk : (s.taken i input)[k.val]? with
  | none =>
    simp only [UInt32.toNat_zero, reduceCtorEq, iff_false]
    rintro ⟨_, h0, hne⟩
    exact hne h0.symm
  | some c =>
    obtain ⟨h0, hc⟩ := hlt c hk
    simp only [UInt32.toNat_ofNat', Nat.mod_eq_of_lt hc, Option.some.injEq]
    constructor
    · exact fun hb => hb.2.1
    · rintro rfl
      exact ⟨hi, rfl, h0⟩

/-- A write that overwrites every old pointer. -/
theorem Settled.store (h : Settled s) {i : ℕ} (hlive : s.volume.Live i) {input : List UInt8}
    (now : UInt32) (htorn : ¬ Torn 0 (s.freeFor i) input)
    (hold : ∀ k : Fin 9, (s.taken i input).length ≤ k.val → (s.volume.entry i).blocks k = 0) :
    (s.store i input now).volume.Settled := by
  have hi := hlive.1
  have hheld : ∀ {k b}, (s.store i input now).volume.Held (i, k) b ↔
    (s.taken i input)[k.val]? = some b := held_store h.toWf hi now htorn hold
  have hself := store_entry_self h.geometry hi input now
  have hcount : (s.store i input now).volume.count = s.volume.count := rfl
  have hset : ∀ k, (∃ b, (s.store i input now).volume.Held (i, k) b) ↔
    ((s.store i input now).volume.entry i).blocks k ≠ 0 := fun k =>
      Volume.held_iff_blocks (hcount ▸ hi)
  apply h.settled.rewrite (i := i) hcount rfl
  · exact fun j hj hji => store_entry_ne h.geometry hj hji input now
  · intro hn
    rw [hself] at hn
    exact absurd hlive.2 hn
  · intro k hk j hj
    obtain ⟨b, hb⟩ := (hset k).mpr hk
    have hlt : k.val < (s.taken i input).length := (List.getElem?_eq_some_iff.mp (hheld.mp hb)).1
    have hjk : j.val < k.val := hj
    have hget := List.getElem?_eq_getElem (show j.val < (s.taken i input).length by omega)
    exact (hset j).mp ⟨_, hheld.mpr hget⟩
  · intro k b hb
    have hr := taken_range (List.mem_of_getElem? (hheld.mp hb))
    refine ⟨hr.1, fun p hp hpb => ?_⟩
    have hm : s.usedBlocks.cell b ≠ 0 ∧ ¬ ∃ k, s.volume.Held (i, k) b := by
      refine ⟨(h.settled.owned.ledger.marked hpb).2, ?_⟩
      rintro ⟨l, hl⟩
      exact hp (congrArg Prod.fst (h.settled.owned.ledger.inj hpb hl))
    exact (h.cleared_cell hi).mpr hm hr.2.2
  · intro k l b hk hl
    have hk := hheld.mp hk
    have hl := hheld.mp hl
    have hlt := (List.getElem?_eq_some_iff.mp hk).1
    exact Fin.ext ((List.getElem?_inj hlt taken_nodup).mp (hk.trans hl.symm))
  · intro b
    have hmem : (∃ k, (s.store i input now).volume.Held (i, k) b) ↔ b ∈ s.taken i input := by
      constructor
      · rintro ⟨k, hk⟩
        exact List.mem_of_getElem? (hheld.mp hk)
      · intro hb
        obtain ⟨n, hn, rfl⟩ := List.getElem_of_mem hb
        have hlen : (s.taken i input).length ≤ 9 := by
          have hle : storedSize 0 (s.freeFor i) input ≤ 512 * 9 := storedSize_le
          rw [length_taken]
          omega
        exact ⟨⟨n, by omega⟩, hheld.mpr (List.getElem?_eq_getElem hn)⟩
    have hmark : b ∈ (s.store i input now).volume.marked ↔
        b < (s.cleared i).size ∧ (b ∈ s.taken i input ∨ (s.cleared i).cell b ≠ 0) :=
      Volume.mem_marked_takes (v := s.volume)
    rw [hmark, hmem, h.cleared_cell hi, Shell.cleared, Buffer.size_clear]
    constructor
    · rintro ⟨hlt, hb | ⟨h0, hno⟩⟩
      · exact Or.inl hb
      · exact Or.inr ⟨⟨hlt, h0⟩, hno⟩
    · rintro (hb | ⟨⟨hlt, h0⟩, hno⟩)
      · exact ⟨(taken_range hb).2.1, Or.inl hb⟩
      · exact ⟨hlt, Or.inr ⟨h0, hno⟩⟩
  · intro b hne hb
    have hsize : (s.store i input now).volume.used.size = s.usedBlocks.size :=
      ((s.cleared i).size_takes _).trans (s.usedBlocks.size_clear _)
    exact (h.takes_eq hi (s.taken i input)).2.2 b hne (hsize ▸ hb)

/-- Rewriting a slot without touching its pointers or the table. -/
theorem Settled.putSlot (h : Settled s) {i : ℕ} (hi : i < s.volume.count) {fe : SfsFileEntry}
    (hblocks : fe.blocks = (s.volume.entry i).blocks)
    (hbare : ¬ fe.Named → ∀ k, fe.blocks k = 0) : (s.putSlot i fe).volume.Settled := by
  have hself : (s.putSlot i fe).volume.entry i = fe := putSlot_entry_self i fe
  have hheld : ∀ k b, (s.putSlot i fe).volume.Held (i, k) b ↔ s.volume.Held (i, k) b := by
    intro k b
    unfold Volume.Held
    rw [hself, hblocks]
    rfl
  have hcount : (s.putSlot i fe).volume.count = s.volume.count := rfl
  apply h.settled.rewrite (i := i) hcount rfl
  · exact fun j _ hj => putSlot_entry_ne hj fe
  · rw [hself]
    exact hbare
  · rw [hself, hblocks]
    exact h.settled.packed i hi
  · intro k b hb
    have hold := (hheld k b).mp hb
    refine ⟨h.settled.owned.data hold, fun p hp hpb => ?_⟩
    exact hp (congrArg Prod.fst (h.settled.owned.ledger.inj hpb hold))
  · intro k l b hk hl
    exact congrArg Prod.snd
      (h.settled.owned.ledger.inj ((hheld k b).mp hk) ((hheld l b).mp hl))
  · intro b
    have hsame : (∃ k, (s.putSlot i fe).volume.Held (i, k) b) ↔ ∃ k, s.volume.Held (i, k) b :=
      exists_congr fun k => hheld k b
    rw [hsame]
    change b ∈ s.volume.marked ↔ _
    constructor
    · intro hb
      by_cases hk : ∃ k, s.volume.Held (i, k) b
      · exact Or.inl hk
      · exact Or.inr ⟨hb, hk⟩
    · rintro (⟨k, hk⟩ | ⟨hb, _⟩)
      · exact h.settled.owned.ledger.marked hk
      · exact hb
  · exact h.settled.exact.bit

/-- Removing a file frees what it holds. -/
theorem Settled.remove (h : Settled s) {i : ℕ} (hi : i < s.volume.count) :
    ((s.withUsed (s.cleared i)).putSlot i .zero).volume.Settled := by
  set s' := (s.withUsed (s.cleared i)).putSlot i .zero with hs'
  have hself : s'.volume.entry i = .zero := putSlot_entry_self i _
  have hnone : ∀ k b, ¬ s'.volume.Held (i, k) b := by
    rintro k b ⟨_, hb, h0⟩
    rw [hself] at hb
    exact h0 hb.symm
  have hcount : s'.volume.count = s.volume.count := rfl
  apply h.settled.rewrite (i := i) hcount rfl
  · exact fun j _ hj => putSlot_entry_ne hj _
  · rw [hself]
    exact fun _ _ => rfl
  · rw [hself]
    exact fun k hk => absurd rfl hk
  · exact fun k b hb => absurd hb (hnone k b)
  · exact fun k _ b hb => absurd hb (hnone k b)
  · intro b
    have hno : ¬ ∃ k, s'.volume.Held (i, k) b := fun ⟨k, hk⟩ => hnone k b hk
    rw [or_iff_right hno]
    change b < (s.cleared i).size ∧ (s.cleared i).cell b ≠ 0 ↔ _
    rw [h.cleared_cell hi, Shell.cleared, Buffer.size_clear, ← and_assoc]
    rfl
  · intro b hne hb
    exact (h.takes_eq hi []).2.2 b hne (s.usedBlocks.size_clear _ ▸ hb)

/-- Every tidy command leaves the table describing the pointers. -/
theorem Effect.settled (h : Settled s) {c : Command} (hc : c.Tidy s) {s' : Shell}
    (he : Effect s c s') : Settled s' := by
  have hsound := he.sound h.toSound
  cases he with
  | stay => exact h
  | create fn now i hi hfree hpre =>
    have hzero : (SfsFileEntry.fresh fn now 7).blocks = (s.volume.entry i).blocks :=
      funext fun k => (h.settled.owned.bare i hi hfree k).symm
    exact ⟨hsound, h.putSlot hi hzero fun _ _ => rfl, h.fault, h.outside⟩
  | remove fn i hi =>
    have hlt := (Volume.live_of_slotOf hi).1
    obtain ⟨hfault, hout, _⟩ := h.takes_eq hlt []
    refine ⟨hsound, h.remove hlt, hfault, fun b hb => hout b ?_ List.not_mem_nil⟩
    exact s.usedBlocks.size_clear _ ▸ hb
  | chperm perm fn i perms hi =>
    have hlive := Volume.live_of_slotOf hi
    exact ⟨hsound, h.putSlot hlive.1 rfl fun hn => absurd hlive.2 hn, h.fault, h.outside⟩
  | write fn stdin now i hi hw =>
    have hlive := Volume.live_of_slotOf hi
    obtain ⟨htorn, hold⟩ := hc i hi hw
    obtain ⟨hfault, hout, _⟩ := h.takes_eq hlive.1 (s.taken i stdin.input)
    refine ⟨hsound, h.store hlive now htorn hold, hfault, fun b hb => ?_⟩
    have hsize : ((s.cleared i).takes (s.taken i stdin.input)).size = s.usedBlocks.size :=
      ((s.cleared i).size_takes _).trans (s.usedBlocks.size_clear _)
    have hle : s.usedBlocks.size ≤ b := hsize ▸ hb
    exact hout b hle fun hmem => Nat.not_lt.mpr hle (taken_range hmem).2.1

theorem Settled.step (h : Settled s) {c : Command} (hr : c.Reaches s) (hc : c.Tidy s) :
    Settled (step .bits32 s c) := by
  obtain ⟨s', he, hm⟩ := step_effect h.toWf c hr
  exact (he.settled h hc).of_moves hm

/-! ### Continuations -/

variable (o : OffT)

/-- What a run of commands prints. -/
def printed (s : Shell) : List Command → List Output
  | [] => []
  | c :: cs => (c.run o s).2 ++ printed (step o s c) cs

variable {o}

theorem putBlocks_sb (bs : List UInt32) (s : Shell) : (putBlocks bs s).sb = s.sb := by
  rw [putBlocks_takeWhile]
  rfl

theorem sfsWriteLoop_sb (n : ℕ) (s : Shell) (w : WriteVars) :
    (sfsWriteLoop o n s w).1.sb = s.sb := by
  induction n generalizing s w with
  | zero => rfl
  | succ n ih =>
    rw [sfsWriteLoop]
    rcases readStdin s.block w.curReadI w.toRead w.stdin with ⟨block, got, rest⟩
    simp only
    split_ifs
    · rfl
    · rfl
    · exact ih _ _
    · rfl
    · exact ih _ _

theorem writePartial_sb (s : Shell) (w : WriteVars) : (writePartial o s w).1.sb = s.sb := by
  unfold writePartial
  simp only
  split_ifs <;> rfl

theorem sfsReadLoop_sb (bs : List UInt32) (s : Shell) (remToRead : UInt32) (out : List UInt8) :
    (sfsReadLoop o bs s remToRead out).1.sb = s.sb := by
  obtain ⟨p, block, h⟩ := sfsReadLoop_moves (o := o) bs s remToRead out
  rw [h]
  rfl

/-- No command changes the super block in memory. -/
theorem step_sb (s : Shell) (c : Command) : (step o s c).sb = s.sb := by
  unfold step Command.run
  cases c with
  | list => rfl
  | create fn now =>
    simp only [sfsCreate]
    rcases sfsCreateLoop fn (s.seekTable o).sb.entryCount.toNat 0 (s.seekTable o).toHandle with
      ⟨h, _ | i⟩
    · rfl
    · simp only
      split_ifs <;> rfl
  | remove fn =>
    simp only [sfsRemove]
    split_ifs
    · rfl
    · exact putBlocks_sb _ _
  | chperm perm fn =>
    simp only [sfsChperm, sfsUpdate]
    split_ifs <;> rfl
  | read fn =>
    simp only [sfsRead]
    split_ifs
    · rfl
    · rfl
    · exact sfsReadLoop_sb _ _ _ _
  | write fn stdin now =>
    simp only [sfsWrite]
    split_ifs
    · rfl
    · rfl
    · exact (writePartial_sb _ _).trans ((sfsWriteLoop_sb _ _ _).trans (putBlocks_sb _ _))

/-- The file offset and `block` matter to no continuation. -/
theorem Shell.Moves.continues {s s' : Shell} (hg : Geometry s.sb) (hm : s.Moves s')
    (commands : List Command) : printed o s' commands = printed o s commands ∧
      (Run.exec (step o) s' commands).dev = (Run.exec (step o) s commands).dev := by
  induction commands generalizing s s' with
  | nil =>
    obtain ⟨p, block, rfl⟩ := hm
    exact ⟨rfl, rfl⟩
  | cons c cs ih =>
    obtain ⟨p, block, rfl⟩ := hm
    have hsame := Command.run_moved (o := o) hg p block c
    obtain ⟨hprint, hdev⟩ := ih (s := step o s c) (by rw [step_sb]; exact hg) hsame.moves
    refine ⟨?_, hdev⟩
    unfold printed
    rw [hsame.2]
    exact congrArg ((c.run o s).2 ++ ·) hprint

/-- A restart is not noticed: whatever is done next prints the same and leaves the
same device. -/
def RestartInvisible (s : Shell) : Prop := ∀ continuation : List Command,
  printed .bits32 (restart .bits32 s) continuation = printed .bits32 s continuation ∧
    (Run.exec (step .bits32) (restart .bits32 s) continuation).dev =
      (Run.exec (step .bits32) s continuation).dev

/-- After every run of tidy commands from a formatted partition a restart is not
noticed. -/
theorem restart_invisible {bytes : ℕ} (hsize : bytes / 512 < 2 ^ 31)
    (hs : Started .bits32 bytes s) (commands : List Command)
    (hc : Run.Along (step .bits32) (fun s c => c.Reaches s ∧ c.Tidy s) s commands) :
    RestartInvisible (Run.exec (step .bits32) s commands) := by
  have hstep : ∀ (s : Shell) (c : Command), Settled s → c.Reaches s ∧ c.Tidy s →
      Settled (step .bits32 s c) := fun s c h hc => h.step hc.1 hc.2
  have hend : Settled (Run.exec (step .bits32) s commands) :=
    Run.exec_inv hstep (hs.fresh hsize).settled hc
  intro continuation
  exact hend.restart_moves.continues hend.geometry continuation

/-- Two files, one of them rewritten with as many blocks and one removed. -/
theorem restart_invisible_sample : RestartInvisible (Run.exec (step .bits32) sampleShell
    [.create [97] 0, .create [98] 0, .write [97] [List.replicate 512 1, [1]] 0,
      .write [98] [[3]] 0, .write [97] [List.replicate 512 4, [5]] 0, .remove [98]]) :=
  restart_invisible (by decide) sampleShell_started
    [.create [97] 0, .create [98] 0, .write [97] [List.replicate 512 1, [1]] 0,
      .write [98] [[3]] 0, .write [97] [List.replicate 512 4, [5]] 0, .remove [98]]
    (by decide +kernel)

/-- After a file was rewritten with fewer blocks the next write goes to block 3, after
a restart to block 4. -/
theorem restart_visible : (Run.exec (step .bits32) sampleShell [.create [102] 0,
      .write [102] [List.replicate 512 1, [1]] 0, .write [102] [[2]] 0]).usedBlocks.fault = false ∧
    ¬ RestartInvisible (Run.exec (step .bits32) sampleShell [.create [102] 0,
      .write [102] [List.replicate 512 1, [1]] 0, .write [102] [[2]] 0]) := by
  constructor
  · decide +kernel
  · intro h
    have hdev := (h [.create [103] 0, .write [103] [[3]] 0]).2
    have hbyte := congrArg (fun dev => dev 1536) hdev
    exact absurd hbyte (by decide +kernel)

end Linuxpedia.RealFs
