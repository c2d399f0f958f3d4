import Linuxpedia.Sfs.Layout

/-! What `sfs_write` does with its input, without the loop. The bytes go block by
block to the first of the free blocks, as long as there is an index and a free
block left. When the free blocks run out just before a partial block, the -1 of
`get_data_block` is stored behind the blocks that were. -/

namespace Linuxpedia.RealFs

open Lib Sfs

/-- The number of bytes stored from index `k` on. -/
def storedSize (k : ℕ) (free : List ℕ) (input : List UInt8) : ℕ :=
  min input.length (512 * min (9 - k) free.length)

/-- The blocks taken for them. -/
def storedBlocks (k : ℕ) (free : List ℕ) (input : List UInt8) : List ℕ :=
  free.take ((storedSize k free input + 511) / 512)

/-- A partial block is left over with an index for it but no block. -/
def Torn (k : ℕ) (free : List ℕ) (input : List UInt8) : Prop :=
  free.length < 9 - k ∧ input.length / 512 = free.length ∧ input.length % 512 ≠ 0

instance (k : ℕ) (free : List ℕ) (input : List UInt8) : Decidable (Torn k free input) :=
  inferInstanceAs (Decidable (_ ∧ _ ∧ _))

/-- The entry with the blocks pointed at from index `k` on. Indices behind them keep
what they had. -/
def storedEntry (fe : SfsFileEntry) (k : ℕ) (free : List ℕ) (input : List UInt8) : SfsFileEntry :=
  { fe with
    blocks := fun j =>
      if j.val < k then fe.blocks j
      else match (storedBlocks k free input)[j.val - k]? with
        | some b => UInt32.ofNat b
        | none => if Torn k free input ∧ j.val = k + free.length then UInt32.ofInt (-1)
            else fe.blocks j }

/-- The bytes written to the blocks, 512 to each. -/
def putData (dev : Store) : List ℕ → List UInt8 → Store
  | [], _ => dev
  | b :: bs, input =>
    putData (dev.blit (512 * b) (min 512 input.length) fun i => input.getD i 0) bs (input.drop 512)

variable {k : ℕ} {free : List ℕ} {input : List UInt8}

theorem point_blocks_val (fe : SfsFileEntry) (hk : k < 9) (b : UInt32) (j : Fin 9) :
    (fe.point ⟨k, hk⟩ b).blocks j = if j.val = k then b else fe.blocks j := by
  simp [SfsFileEntry.point, Function.update_apply, Fin.ext_iff]

theorem storedEntry_blocks (fe : SfsFileEntry) (j : Fin 9) :
    (storedEntry fe k free input).blocks j = if j.val < k then fe.blocks j
      else match (storedBlocks k free input)[j.val - k]? with
        | some b => UInt32.ofNat b
        | none => if Torn k free input ∧ j.val = k + free.length then UInt32.ofInt (-1)
            else fe.blocks j := rfl

theorem length_storedBlocks : (storedBlocks k free input).length =
    (storedSize k free input + 511) / 512 := by
  unfold storedBlocks storedSize
  rw [List.length_take]
  omega

theorem storedSize_le : storedSize k free input ≤ 512 * (9 - k) := by
  unfold storedSize
  omega

/-- No more bytes: nothing to do. -/
theorem stored_nil (fe : SfsFileEntry) : storedSize k free [] = 0 ∧ storedBlocks k free [] = [] ∧
    storedEntry fe k free [] = fe := by
  have hsize : storedSize k free [] = 0 := by simp [storedSize]
  have hblocks : storedBlocks k free [] = [] := by simp [storedBlocks, hsize]
  refine ⟨hsize, hblocks, ?_⟩
  simp [storedEntry, hblocks, Torn]

/-- No index left, or a whole block of input and no free block. -/
theorem stored_stop (fe : SfsFileEntry) (h : 9 ≤ k ∨ free = [] ∧ 512 ≤ input.length) :
    storedSize k free input = 0 ∧ storedBlocks k free input = [] ∧
      storedEntry fe k free input = fe := by
  have hsize : storedSize k free input = 0 := by
    unfold storedSize
    rcases h with h | ⟨rfl, _⟩
    · omega
    · simp
  have hblocks : storedBlocks k free input = [] := by simp [storedBlocks, hsize]
  have htorn : ¬ Torn k free input := by
    rintro ⟨h1, h2, _⟩
    rcases h with h | ⟨rfl, hlen⟩
    · omega
    · simp only [List.length_nil] at h2
      omega
  refine ⟨hsize, hblocks, ?_⟩
  simp [storedEntry, hblocks, htorn]

/-- A partial block that finds no free block. -/
theorem stored_torn (fe : SfsFileEntry) (hf : free = []) (hk : k < 9) (h0 : input ≠ [])
    (h : input.length < 512) : storedSize k free input = 0 ∧ storedBlocks k free input = [] ∧
      storedEntry fe k free input = fe.point ⟨k, hk⟩ (UInt32.ofInt (-1)) := by
  subst hf
  have hpos := List.length_pos_iff.mpr h0
  have htorn : Torn k [] input := by
    refine ⟨?_, ?_, ?_⟩
    · simp only [List.length_nil]
      omega
    · simp only [List.length_nil]
      omega
    · omega
  have hsize : storedSize k [] input = 0 := by simp [storedSize]
  have hblocks : storedBlocks k [] input = [] := by simp [storedBlocks]
  refine ⟨hsize, hblocks, ?_⟩
  refine SfsFileEntry.ext rfl rfl rfl rfl (funext fun j => ?_)
  rw [storedEntry_blocks, point_blocks_val]
  by_cases hj : j.val = k
  · simp [hblocks, htorn, hj]
  · simp [hblocks, htorn, hj]

/-- One block of the input goes to the first free block. -/
theorem stored_cons (fe : SfsFileEntry) (b : ℕ) (free : List ℕ) (hk : k < 9) (h : 512 ≤ input.length) :
    storedSize k (b :: free) input = 512 + storedSize (k + 1) free (input.drop 512) ∧
      storedBlocks k (b :: free) input = b :: storedBlocks (k + 1) free (input.drop 512) ∧
      storedEntry fe k (b :: free) input =
        storedEntry (fe.point ⟨k, hk⟩ (UInt32.ofNat b)) (k + 1) free (input.drop 512) := by
  have hsize : storedSize k (b :: free) input =
      512 + storedSize (k + 1) free (input.drop 512) := by
    unfold storedSize
    rw [List.length_cons, List.length_drop]
    omega
  have hblocks : storedBlocks k (b :: free) input =
      b :: storedBlocks (k + 1) free (input.drop 512) := by
    unfold storedBlocks
    rw [hsize, show (512 + storedSize (k + 1) free (input.drop 512) + 511) / 512 =
      (storedSize (k + 1) free (input.drop 512) + 511) / 512 + 1 by omega, List.take_succ_cons]
  have htorn : Torn k (b :: free) input ↔ Torn (k + 1) free (input.drop 512) := by
    unfold Torn
    rw [List.length_cons, List.length_drop]
    omega
  refine ⟨hsize, hblocks, ?_⟩
  refine SfsFileEntry.ext rfl rfl rfl rfl (funext fun j => ?_)
  simp only [storedEntry_blocks, point_blocks_val, htorn, hblocks, List.length_cons]
  rcases Nat.lt_trichotomy j.val k with hj | hj | hj
  · simp [hj, show j.val < k + 1 by omega, show j.val ≠ k by omega]
  · simp [hj]
  · have hsub : j.val - k = j.val - (k + 1) + 1 := by omega
    simp [hsub, show ¬ j.val < k by omega, show ¬ j.val < k + 1 by omega,
      show j.val ≠ k by omega, show k + (free.length + 1) = k + 1 + free.length by omega]

/-- A partial block that finds a free block. -/
theorem stored_partial (fe : SfsFileEntry) (b : ℕ) (free : List ℕ) (hk : k < 9) (h0 : input ≠ [])
    (h : input.length < 512) : storedSize k (b :: free) input = input.length ∧
      storedBlocks k (b :: free) input = [b] ∧
      storedEntry fe k (b :: free) input = fe.point ⟨k, hk⟩ (UInt32.ofNat b) := by
  have hpos := List.length_pos_iff.mpr h0
  have hsize : storedSize k (b :: free) input = input.length := by
    unfold storedSize
    rw [List.length_cons]
    omega
  have hblocks : storedBlocks k (b :: free) input = [b] := by
    unfold storedBlocks
    rw [hsize, show (input.length + 511) / 512 = 1 by omega, List.take_succ_cons, List.take_zero]
  have htorn : ¬ Torn k (b :: free) input := by
    rintro ⟨_, h2, _⟩
    rw [List.length_cons] at h2
    omega
  refine ⟨hsize, hblocks, ?_⟩
  refine SfsFileEntry.ext rfl rfl rfl rfl (funext fun j => ?_)
  rw [storedEntry_blocks, point_blocks_val]
  rcases Nat.lt_trichotomy j.val k with hj | hj | hj
  · simp [hj, show j.val ≠ k by omega]
  · simp [hj, hblocks]
  · have hsub : j.val - k = j.val - (k + 1) + 1 := by omega
    simp [hblocks, htorn, hsub, show ¬ j.val < k by omega, show j.val ≠ k by omega]

end Linuxpedia.RealFs
