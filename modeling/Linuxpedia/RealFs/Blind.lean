import Linuxpedia.RealFs.BrowseSpec

/-! The file offset and what `block` holds between two commands do not matter. Every
command seeks to the entry table first, and it prints and writes only bytes of
`block` that it has filled itself. So two shells that differ in nothing else print
the same and stay the same, whatever the commands are. -/

namespace Linuxpedia.RealFs

open Lib Sfs

variable {o : OffT}

/-- The same state up to `block`, and the same result. -/
def Same {α : Type} (r r' : Shell × α) : Prop := (∃ block, r'.1 = r.1.withBlock block) ∧ r'.2 = r.2

theorem Same.moves {α : Type} {r r' : Shell × α} (h : Same r r') : r.1.Moves r'.1 := by
  obtain ⟨⟨block, hr⟩, _⟩ := h
  exact ⟨r.1.pos, block, hr⟩

theorem Same.refl {α : Type} (s : Shell) (block : Store) (a : α) :
    Same (s, a) (s.withBlock block, a) := ⟨⟨block, rfl⟩, rfl⟩

/-- Both runs take the same branch. -/
theorem Same.ite {α : Type} {c : Prop} [Decidable c] {r₁ r₁' r₂ r₂' : Shell × α}
    (h₁ : Same r₁ r₁') (h₂ : Same r₂ r₂') :
    Same (if c then r₁ else r₂) (if c then r₁' else r₂') := by
  by_cases hc : c
  · rw [if_pos hc, if_pos hc]
    exact h₁
  · rw [if_neg hc, if_neg hc]
    exact h₂

theorem seekTable_moved {s : Shell} (hg : Geometry s.sb) (p : ℕ) (block : Store) :
    (s.moved p block).seekTable o = (s.seekTable o).withBlock block := by
  rw [seekTable_eq hg, seekTable_eq (s := s.moved p block) hg]
  rfl

theorem sfsLookup_moved {s : Shell} (hg : Geometry s.sb) (p : ℕ) (block : Store)
    (fn : List UInt8) : sfsLookup o (s.moved p block) fn =
      ((sfsLookup o s fn).1.withBlock block, (sfsLookup o s fn).2) := by
  unfold sfsLookup
  rw [seekTable_moved hg]
  rfl

theorem putBlocks_withBlock (bs : List UInt32) (s : Shell) (block : Store) :
    putBlocks bs (s.withBlock block) = (putBlocks bs s).withBlock block := by
  induction bs generalizing s with
  | nil => rfl
  | cons b bs ih =>
    unfold putBlocks
    split_ifs
    · rfl
    · exact ih (putDataBlock s (asInt b))

/-- What `read` puts into `block` does not depend on what was there. -/
theorem readBlock_withBlock (s : Shell) (block : Store) (n : ℕ) :
    ((s.withBlock block).readBlock n).block.bytes n = (s.readBlock n).block.bytes n := by
  apply Store.bytes_congr
  intro i hi
  have h := Store.blit_inside s.block (s.toHandle.read n).2 (o := 0) hi
  have h' := Store.blit_inside block (s.toHandle.read n).2 (o := 0) hi
  rw [Nat.zero_add] at h h'
  exact h'.trans h.symm

theorem sfsReadLoop_cons {s : Shell} {b : UInt32} {bs : List UInt32} {remToRead toRead : UInt32}
    {out : List UInt8} (hb : b ≠ 0)
    (ht : toRead = if remToRead ≥ s.sb.blockSize then s.sb.blockSize else remToRead) :
    sfsReadLoop o (b :: bs) s remToRead out =
      if remToRead - toRead = 0 then
        ((s.seekSet o (b * s.sb.blockSize)).readBlock toRead.toNat, out ++
          ((s.seekSet o (b * s.sb.blockSize)).readBlock toRead.toNat).block.bytes toRead.toNat)
      else sfsReadLoop o bs ((s.seekSet o (b * s.sb.blockSize)).readBlock toRead.toNat)
        (remToRead - toRead) (out ++
          ((s.seekSet o (b * s.sb.blockSize)).readBlock toRead.toNat).block.bytes toRead.toNat) := by
  subst ht
  exact if_neg hb

theorem sfsReadLoop_withBlock (bs : List UInt32) (s : Shell) (block : Store) (remToRead : UInt32)
    (out : List UInt8) : Same (sfsReadLoop o bs s remToRead out)
      (sfsReadLoop o bs (s.withBlock block) remToRead out) := by
  induction bs generalizing s block remToRead out with
  | nil => exact ⟨⟨block, rfl⟩, rfl⟩
  | cons b bs ih =>
    by_cases hb : b = 0
    · subst hb
      exact ⟨⟨block, rfl⟩, rfl⟩
    · set toRead : UInt32 := if remToRead ≥ s.sb.blockSize then s.sb.blockSize else remToRead
        with ht
      have hseek : (s.withBlock block).seekSet o (b * (s.withBlock block).sb.blockSize) =
          (s.seekSet o (b * s.sb.blockSize)).withBlock block := rfl
      rw [sfsReadLoop_cons hb ht, sfsReadLoop_cons (s := s.withBlock block) hb ht, hseek,
        readBlock_withBlock]
      by_cases hdone : remToRead - toRead = 0
      · rw [if_pos hdone, if_pos hdone]
        exact ⟨⟨_, rfl⟩, rfl⟩
      · rw [if_neg hdone, if_neg hdone]
        exact ih _ _ _ _

/-- The bytes of `block` that a run of the loop of `sfs_write` relies on. -/
def Agree (block block' : Store) (n : ℕ) : Prop := ∀ i < n, block' i = block i

/-- The same state up to `block`, whose filled bytes agree, and the same variables. -/
def Filled (r r' : Shell × WriteVars) : Prop :=
  (∃ block, r'.1 = r.1.withBlock block ∧ Agree r.1.block block r.2.curReadI) ∧ r'.2 = r.2

theorem readStdin_le {block b : Store} {off n got : ℕ} {stdin rest : Stdin}
    (hread : readStdin block off n stdin = (b, got, rest)) : got ≤ n := by
  cases stdin with
  | nil =>
    cases hread
    exact Nat.zero_le n
  | cons c cs =>
    cases hread
    exact Nat.min_le_left n c.length

theorem readStdin_agree {block block' b : Store} {off got : ℕ} (h : Agree block block' off)
    (n : ℕ) {stdin rest : Stdin} (hread : readStdin block off n stdin = (b, got, rest)) :
    ∃ b', readStdin block' off n stdin = (b', got, rest) ∧ Agree b b' (off + got) := by
  cases stdin with
  | nil =>
    cases hread
    exact ⟨block', rfl, h⟩
  | cons c cs =>
    cases hread
    refine ⟨_, rfl, fun i hi => ?_⟩
    by_cases hlt : i < off
    · rw [Store.blit_outside _ _ (Or.inl hlt), Store.blit_outside _ _ (Or.inl hlt)]
      exact h i hlt
    · obtain ⟨j, rfl⟩ : ∃ j, i = off + j := ⟨i - off, by omega⟩
      rw [Store.blit_inside _ _ (by omega), Store.blit_inside _ _ (by omega)]

/-- Writing filled bytes of `block`. -/
theorem writeBlock_agree (s : Shell) {block : Store} {n : ℕ} (h : Agree s.block block n) :
    (s.withBlock block).writeBlock n = (s.writeBlock n).withBlock block := by
  have hdev : s.dev.blit s.pos n block = s.dev.blit s.pos n s.block :=
    Store.blit_congr _ fun i hi => h i hi
  unfold Shell.writeBlock Shell.withBlock Handle.write
  rw [hdev]

/-- Two runs of the loop from states that agree on the bytes filled so far. -/
theorem sfsWriteLoop_agree (n : ℕ) {s : Shell} {block : Store} {w : WriteVars}
    (hroom : w.curReadI + w.toRead = s.sb.blockSize.toNat) (h : Agree s.block block w.curReadI) :
    Filled (sfsWriteLoop o n s w) (sfsWriteLoop o n (s.withBlock block) w) := by
  induction n generalizing s block w with
  | zero => exact ⟨⟨block, rfl, h⟩, rfl⟩
  | succ n ih =>
    rcases hr : readStdin s.block w.curReadI w.toRead w.stdin with ⟨b, got, rest⟩
    obtain ⟨b', hr', hagree⟩ := readStdin_agree h w.toRead hr
    have hkeep : Agree b b' w.curReadI := fun i hi => hagree i (by omega)
    by_cases h0 : got = 0
    · subst h0
      rw [sfsWriteLoop_eof n hr, sfsWriteLoop_eof (s := s.withBlock block) n hr']
      exact ⟨⟨b', rfl, hkeep⟩, rfl⟩
    by_cases hfull : got = w.toRead
    · subst hfull
      rw [hroom] at hagree
      by_cases hk : w.blockI < 9
      · set t := (getDataBlock (s.withBlock b)).1
        have hget : getDataBlock (s.withBlock b) = (t, (getDataBlock (s.withBlock b)).2) := rfl
        have hget' : getDataBlock ((s.withBlock block).withBlock b') =
          (t.withBlock b', (getDataBlock (s.withBlock b)).2) := rfl
        by_cases hfree : (getDataBlock (s.withBlock b)).2 = -1
        · rw [hfree] at hget hget'
          rw [sfsWriteLoop_full n hr h0 hk hget,
            sfsWriteLoop_full (s := s.withBlock block) n hr' h0 hk hget']
          exact ⟨⟨b', rfl, hkeep⟩, rfl⟩
        · rw [sfsWriteLoop_block n hr h0 hk hget hfree,
            sfsWriteLoop_block (s := s.withBlock block) n hr' h0 hk hget' hfree]
          have hwrite : ((t.withBlock b').seekSet o (UInt32.ofInt (getDataBlock
              (s.withBlock b)).2 * t.sb.blockSize)).writeBlock t.sb.blockSize.toNat = _ :=
            writeBlock_agree (t.seekSet o _) hagree
          rw [Shell.withBlock_sb, hwrite]
          apply ih
          · exact Nat.zero_add _
          · intro i hi
            exact absurd hi (Nat.not_lt_zero i)
      · rw [sfsWriteLoop_limit n hr h0 hk,
          sfsWriteLoop_limit (s := s.withBlock block) n hr' h0 hk]
        exact ⟨⟨b', rfl, hkeep⟩, rfl⟩
    · have hle := readStdin_le hr
      rw [sfsWriteLoop_part n hr h0 hfull,
        sfsWriteLoop_part (s := s.withBlock block) n hr' h0 hfull]
      apply ih
      · simp only [Shell.withBlock_sb]
        omega
      · exact hagree

theorem writePartial_agree {s : Shell} {block : Store} {w : WriteVars}
    (hagree : Agree s.block block w.curReadI) :
    Same (writePartial o s w) (writePartial o (s.withBlock block) w) := by
  unfold writePartial
  by_cases hc : w.curRead = 0 ∧ w.curReadI ≠ 0
  · rw [if_pos hc, if_pos hc]
    by_cases hk : w.blockI < 9
    · rw [dif_pos hk, dif_pos hk]
      have hget : getDataBlock (s.withBlock block) =
        ((getDataBlock s).1.withBlock block, (getDataBlock s).2) := rfl
      rw [hget]
      by_cases hb : UInt32.ofInt (getDataBlock s).2 = UInt32.ofInt (-1)
      · simp only [if_pos hb]
        exact ⟨⟨block, rfl⟩, rfl⟩
      · have hwrite : (((getDataBlock s).1.withBlock block).seekSet o (UInt32.ofInt
            (getDataBlock s).2 * s.sb.blockSize)).writeBlock w.curReadI = _ :=
          writeBlock_agree ((getDataBlock s).1.seekSet o _) hagree
        simp only [if_neg hb]
        exact ⟨⟨block, hwrite⟩, rfl⟩
    · rw [dif_neg hk, dif_neg hk]
      exact ⟨⟨block, rfl⟩, rfl⟩
  · rw [if_neg hc, if_neg hc]
    exact ⟨⟨block, rfl⟩, rfl⟩

/-! ### Commands -/

section Commands

variable {s : Shell} (hg : Geometry s.sb) (p : ℕ) (block : Store)

include hg

theorem sfsList_moved : Same (sfsList o s) (sfsList o (s.moved p block)) := by
  unfold sfsList
  rw [seekTable_moved hg]
  exact ⟨⟨block, rfl⟩, rfl⟩

theorem sfsCreate_moved (fn : List UInt8) (now : UInt32) :
    Same (sfsCreate o s fn now) (sfsCreate o (s.moved p block) fn now) := by
  unfold sfsCreate
  rw [seekTable_moved hg]
  simp only [Shell.withBlock]
  rcases sfsCreateLoop fn (s.seekTable o).sb.entryCount.toNat 0 (s.seekTable o).toHandle with
    ⟨h, _ | i⟩
  · exact Same.refl _ block _
  · exact Same.ite (Same.refl _ block _) (Same.refl _ block _)

theorem sfsRemove_moved (fn : List UInt8) :
    Same (sfsRemove o s fn) (sfsRemove o (s.moved p block) fn) := by
  unfold sfsRemove
  rw [sfsLookup_moved hg]
  rcases sfsLookup o s fn with ⟨t, i, fe⟩
  simp only [putBlocks_withBlock]
  exact Same.ite (Same.refl t block _) (Same.refl _ block _)

theorem sfsChperm_moved (fn : List UInt8) (perm : ℤ) :
    Same (sfsChperm o s fn perm) (sfsChperm o (s.moved p block) fn perm) := by
  unfold sfsChperm sfsUpdate
  rw [sfsLookup_moved hg]
  rcases sfsLookup o s fn with ⟨t, i, fe⟩
  exact Same.ite (Same.refl t block _) (Same.refl _ block _)

theorem sfsRead_moved (fn : List UInt8) :
    Same (sfsRead o s fn) (sfsRead o (s.moved p block) fn) := by
  unfold sfsRead
  rw [sfsLookup_moved hg]
  rcases sfsLookup o s fn with ⟨t, i, fe⟩
  have hloop := sfsReadLoop_withBlock (o := o) (List.ofFn fe.blocks) t block fe.size []
  refine Same.ite (Same.refl t block _) (Same.ite (Same.refl t block _) ⟨hloop.1, ?_⟩)
  exact congrArg (fun out => [Output.data out]) hloop.2

theorem sfsWrite_moved (fn : List UInt8) (stdin : Stdin) (now : UInt32) :
    Same (sfsWrite o s fn stdin now) (sfsWrite o (s.moved p block) fn stdin now) := by
  unfold sfsWrite
  rw [sfsLookup_moved hg]
  rcases sfsLookup o s fn with ⟨t, i, fe⟩
  simp only [putBlocks_withBlock]
  refine Same.ite (Same.refl t block _) (Same.ite (Same.refl t block _) ?_)
  set t' := putBlocks (List.ofFn fe.blocks) t
  have hempty : Agree t'.block block 0 := fun i hi => absurd hi (Nat.not_lt_zero i)
  obtain ⟨⟨block', hshell, hagree⟩, hvars⟩ := sfsWriteLoop_agree (o := o)
    (stdin.flatten.length + 1) (s := t')
    (w := ⟨stdin, fe, 0, 0, t'.sb.blockSize.toNat, 0, 0⟩) (Nat.zero_add _) hempty
  simp only [Shell.withBlock_sb]
  rw [hshell, hvars]
  obtain ⟨⟨block'', hshell'⟩, hvars'⟩ := writePartial_agree (o := o) hagree
  rw [hshell', hvars']
  exact Same.refl _ block'' _

/-- Every command prints the same and leaves the same up to `block`. -/
theorem Command.run_moved (c : Command) : Same (c.run o s) (c.run o (s.moved p block)) := by
  cases c with
  | list => exact sfsList_moved hg p block
  | create fn now => exact sfsCreate_moved hg p block fn now
  | remove fn => exact sfsRemove_moved hg p block fn
  | chperm perm fn => exact sfsChperm_moved hg p block fn perm
  | read fn => exact sfsRead_moved hg p block fn
  | write fn stdin now => exact sfsWrite_moved hg p block fn stdin now

end Commands

end Linuxpedia.RealFs
