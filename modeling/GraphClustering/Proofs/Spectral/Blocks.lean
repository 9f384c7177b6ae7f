import GraphClustering.Proofs.Graph.Weights
import GraphClustering.Spectral.RowBlocks

/-!
# Products by blocks of rows

Blocks that cover the rows of a matrix write its product, in whatever order they are written and
whatever was there before (`foldl_writeBlock_eq`).  So the product by blocks is the product of the
matrix (`mulVec_of_ofMatrix`).  A matrix is refused only if it has more rows than the least block
and a negative number of workers (`ofMatrix_eq`), on every machine (`orDefault_nonneg_iff`).
-/

namespace GraphClustering

theorem Matrix.mulVec_of_size {α : Type} [Scalar α] {m : Matrix α} {x : Array α}
    (h : x.size = m.columns) : m.mulVec x = .ok (m.product x) :=
  if_pos h

namespace RowBlocks

variable {α : Type} {m : Matrix α} {workers : Option Int} {minRows : Int} {b : RowBlocks α}
  {processors : Option Nat}

/-! ## Blocks -/

theorem getElem?_foldl_setIfInBounds (js : List Nat) (f : Nat → α) (out : Array α) (i : Nat) :
    (js.foldl (fun out j => out.setIfInBounds j (f j)) out)[i]? =
      if i ∈ js then out[i]?.map fun _ => f i else out[i]? := by
  induction js generalizing out with
  | nil => simp
  | cons j js ih =>
      rw [List.foldl_cons, ih, Array.getElem?_setIfInBounds]
      by_cases hij : j = i
      · subst hij
        by_cases inside : j < out.size <;> simp [inside]
      · simp [hij, Ne.symm hij]

section Product

variable [Scalar α]

/-- The rows of a block that the matrix has are written, each with its own product. -/
theorem writes_eq (m : Matrix α) (x : Array α) (c : Int × Int) : writes m x c =
    (List.range' c.1.toNat (min c.2.toNat m.order - c.1.toNat)).map fun i =>
      (i, Matrix.rowDot (m.rows.getD i []) x) := by
  refine List.ext_getElem ?_ fun k hk _ => ?_
  · simp only [writes, rowsOf, part, Matrix.product, Matrix.order, List.length_zip,
      List.length_range', Array.length_toList, Array.size_map, Array.size_extract, List.length_map]
    omega
  · simp only [writes, rowsOf, part, Matrix.product, List.length_zip, List.length_range',
      Array.length_toList, Array.size_map, Array.size_extract] at hk
    have inside : c.1.toNat + k < m.rows.size := by omega
    simp [writes, rowsOf, part, Matrix.product, Array.getD_eq_getD_getElem?, inside]

/-- The rows are written in the order of the blocks. -/
theorem foldl_writeBlock (m : Matrix α) (x out : Array α) (blocks : List (Int × Int)) :
    blocks.foldl (writeBlock m x) out =
      (blocks.flatMap fun c => List.range' c.1.toNat (min c.2.toNat m.order - c.1.toNat)).foldl
        (fun out i => out.setIfInBounds i (Matrix.rowDot (m.rows.getD i []) x)) out := by
  rw [List.foldl_flatMap]
  refine List.foldl_ext _ _ _ fun out c _ => ?_
  rw [writeBlock, writes_eq, List.foldl_map]

/-- Blocks that cover the rows write the product, in any order and over whatever was there. -/
theorem foldl_writeBlock_eq (x : Array α) {out : Array α} {blocks : List (Int × Int)}
    (size : out.size = m.order)
    (cover : ∀ i < m.order, ∃ c ∈ blocks, c.1.toNat ≤ i ∧ i < c.2.toNat) :
    blocks.foldl (writeBlock m x) out = m.product x := by
  apply Array.ext_getElem?
  intro i
  rw [foldl_writeBlock, getElem?_foldl_setIfInBounds, Matrix.product, Array.getElem?_map]
  by_cases hi : i < m.order
  · obtain ⟨c, hc, first, last⟩ := cover i hi
    have covered : i ∈ blocks.flatMap fun c =>
        List.range' c.1.toNat (min c.2.toNat m.order - c.1.toNat) :=
      List.mem_flatMap.mpr ⟨c, hc, List.mem_range'_1.mpr ⟨first, by omega⟩⟩
    have row : m.rows[i]? = some m.rows[i] := Array.getElem?_eq_getElem hi
    rw [if_pos covered, Array.getElem?_eq_getElem (size ▸ hi), Array.getD_eq_getD_getElem?, row]
    rfl
  · have none : m.rows[i]? = none := Array.getElem?_eq_none (Nat.le_of_not_lt hi)
    simp [none, hi, size]

theorem writeBlocks_eq (x : Array α) {blocks : List (Int × Int)}
    (cover : ∀ i < m.order, ∃ c ∈ blocks, c.1.toNat ≤ i ∧ i < c.2.toNat) :
    writeBlocks m x blocks = m.product x :=
  foldl_writeBlock_eq x Array.size_replicate cover

/-- Blocks that cover the rows give the product, whether or not there are workers for them. -/
theorem Team.mulVec_eq {t : Team α} {order : List (Int × Int)} (x : Array α)
    (cover : ∀ i < t.blocks.matrix.order, ∃ c ∈ order, c.1.toNat ≤ i ∧ i < c.2.toNat) :
    t.mulVec order x = t.blocks.matrix.mulVec x := by
  rw [mulVec, Matrix.mulVec]
  by_cases fits : x.size = t.blocks.matrix.columns
  · rw [if_neg (not_not.mpr fits), if_pos fits, writeBlocks_eq x cover, ite_self]
  · rw [if_pos fits, if_neg fits]

/-- Chunks of rows cover them. -/
theorem cover_rowChunks {n : Nat} {size : Int} (hs : 0 < size) :
    ∀ i < n, ∃ c ∈ rowChunks n size, c.1.toNat ≤ i ∧ i < c.2.toNat := by
  intro i hi
  have covered : i ∈ (rowChunks n size).flatMap fun c =>
      List.range' c.1.toNat (c.2.toNat - c.1.toNat) := by
    rw [flatMap_rowChunks hs]
    exact List.mem_range.mpr hi
  obtain ⟨c, hc, mem⟩ := List.mem_flatMap.mp covered
  obtain ⟨first, last⟩ := List.mem_range'_1.mp mem
  exact ⟨c, hc, first, by omega⟩

end Product

/-! ## Workers -/

theorem blockSize_pos (n : Nat) (w : Int) (h : 0 < minRows) : 0 < blockSize n w minRows := by
  rw [blockSize]
  split
  · exact Int.one_pos
  · exact h.trans_le (le_max_left _ _)

theorem length_rowChunks (n : Nat) (size : Int) :
    (rowChunks n size).length = chunkCount n size := by
  rw [rowChunks, List.length_map, List.length_range]

/-- For a negative number of workers the blocks are as small as they may be. -/
theorem blockSize_of_neg {n : Nat} {w : Int} (some : n ≠ 0) (few : w < 0) (h : 0 ≤ minRows) :
    blockSize n w minRows = minRows := by
  have share := Int.fdiv_nonneg_of_nonpos_of_nonpos (a := -(n : Int)) (by omega) few.le
  rw [blockSize, if_neg some, max_eq_left (by omega)]

/-- There are several blocks of the least size if there are more rows than in one. -/
theorem one_lt_length_rowChunks {n : Nat} {size : Int} (h : 0 < size) :
    1 < (rowChunks n size).length ↔ size < n := by
  have floor : -(n : Int) / size < -1 ↔ -(n : Int) < -1 * size := Int.ediv_lt_iff_lt_mul h
  rw [length_rowChunks, chunkCount, Int.fdiv_eq_ediv_of_nonneg _ h.le]
  omega

/-- A matrix is refused if there are several blocks and a negative number of workers for them. -/
theorem ofMatrix_eq (h : 0 < minRows) :
    ofMatrix m workers minRows processors =
      if minRows < m.order ∧ View.orDefault workers (defaultWorkers processors) < 0 then
        .error .negativeWorkers
      else .ok ⟨m, rowChunks m.order
        (blockSize m.order (View.orDefault workers (defaultWorkers processors)) minRows)⟩ := by
  have size := blockSize_pos m.order (View.orDefault workers (defaultWorkers processors)) h
  have several : View.orDefault workers (defaultWorkers processors) < 0 →
      (1 < (rowChunks m.order
        (blockSize m.order (View.orDefault workers (defaultWorkers processors)) minRows)).length ↔
          minRows < m.order) := by
    intro few
    rw [one_lt_length_rowChunks size]
    rcases Nat.eq_zero_or_pos m.order with none | some
    · rw [none] at size ⊢
      omega
    · rw [blockSize_of_neg some.ne' few h.le]
  rw [ofMatrix, rowChunks?, if_neg size.ne']
  exact if_congr (and_congr_left several) rfl rfl

theorem eq_of_ofMatrix (h : 0 < minRows) (found : ofMatrix m workers minRows processors = .ok b) :
    b = ⟨m, rowChunks m.order
      (blockSize m.order (View.orDefault workers (defaultWorkers processors)) minRows)⟩ := by
  rw [ofMatrix_eq h] at found
  split at found <;> cases found
  rfl

/-- The product by blocks is the product. -/
theorem mulVec_of_ofMatrix [Scalar α] (h : 0 < minRows)
    (found : ofMatrix m workers minRows processors = .ok b) (x : Array α) :
    b.mulVec x = m.mulVec x := by
  have size := blockSize_pos m.order (View.orDefault workers (defaultWorkers processors)) h
  obtain rfl := eq_of_ofMatrix h found
  exact Team.mulVec_eq x (cover_rowChunks size)

/-- There is a worker on every machine. -/
theorem defaultWorkers_pos (processors : Option Nat) : 0 < defaultWorkers processors :=
  lt_max_of_lt_left Int.one_pos

/-- Whether the number of workers is negative does not depend on the machine. -/
theorem orDefault_nonneg_iff (workers : Option Int) (processors : Option Nat) :
    0 ≤ View.orDefault workers (defaultWorkers processors) ↔ 0 ≤ View.orDefault workers 1 := by
  have some := (defaultWorkers_pos processors).le
  cases workers with
  | none => exact iff_of_true some Int.one_nonneg
  | some k =>
      rw [View.orDefault, View.orDefault]
      split
      · exact iff_of_true some Int.one_nonneg
      · exact Iff.rfl

/-- Whether the rows of a matrix make a single block, or there may be workers for several. -/
def Staffed (n : Nat) (workers : Option Int) : Prop :=
  n ≤ defaultRows ∨ 0 ≤ View.orDefault workers 1

theorem ofMatrix_of_staffed (h : Staffed m.order workers) (processors : Option Nat) :
    ∃ b, ofMatrix m workers defaultRows processors = .ok b := by
  rw [ofMatrix_eq (by decide), if_neg]
  · exact ⟨_, rfl⟩
  · rintro ⟨many, few⟩
    rcases h with single | some
    · exact absurd many single.not_gt
    · exact absurd few ((orDefault_nonneg_iff workers processors).mpr some).not_gt

theorem ofMatrix_of_not_staffed (h : ¬ Staffed m.order workers) (processors : Option Nat) :
    ofMatrix m workers defaultRows processors = .error .negativeWorkers := by
  rw [Staffed, not_or, not_le, ← orDefault_nonneg_iff workers processors, not_le] at h
  rw [ofMatrix_eq (by decide), if_pos h]

end RowBlocks

end GraphClustering
