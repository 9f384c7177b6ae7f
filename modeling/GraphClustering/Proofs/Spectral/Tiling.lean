import GraphClustering.Proofs.Rational
import GraphClustering.Proofs.Spectral.Blocks

/-!
# Blocks that tile the rows

The blocks of a matrix follow each other without a gap and none is empty (`tiling_rowChunks`), and
there are no more of them than workers (`length_bounds_le`).  So the workers write every entry of a
product once, and it is the product of the matrix in whatever order they write, before and after
they are dismissed (`team_tiles`).
-/

namespace GraphClustering

/-- Blocks one after the other, the first from `a` on, the last up to `b`, none of them empty. -/
inductive Tiling : Int → Int → List (Int × Int) → Prop
  | nil {a : Int} : Tiling a a []
  | cons {a b c : Int} {blocks : List (Int × Int)} :
      a < b → Tiling b c blocks → Tiling a c ((a, b) :: blocks)

namespace Tiling

variable {a b c : Int} {blocks : List (Int × Int)}

theorem concat (h : Tiling a b blocks) (lt : b < c) : Tiling a c (blocks ++ [(b, c)]) := by
  induction h with
  | nil => exact .cons lt .nil
  | cons first _ ih => exact .cons first (ih lt)

theorem within (h : Tiling a b blocks) : ∀ t ∈ blocks, a ≤ t.1 ∧ t.1 < t.2 ∧ t.2 ≤ b := by
  induction h with
  | nil => exact List.forall_mem_nil _
  | @cons a b c blocks lt rest ih =>
      have le : b ≤ c := by
        cases rest with
        | nil => exact le_rfl
        | cons lt _ =>
            have first := ih _ List.mem_cons_self
            exact (first.2.1.trans_le first.2.2).le
      refine List.forall_mem_cons.mpr ⟨⟨le_rfl, lt, le⟩, fun t ht => ?_⟩
      obtain ⟨from_b, some, to_c⟩ := ih t ht
      exact ⟨lt.le.trans from_b, some, to_c⟩

/-- No block starts before an earlier one has ended. -/
theorem pairwise (h : Tiling a b blocks) : blocks.Pairwise fun s t => s.2 ≤ t.1 := by
  induction h with
  | nil => exact .nil
  | cons _ rest ih => exact .cons (fun t ht => (rest.within t ht).1) ih

end Tiling

/-! ## Chunks -/

/-- The chunks that start before the end of the rows tile them up to there. -/
theorem tiling_range {n k : Nat} {size : Int} (hs : 0 < size) (inside : (k - 1) * size < n) :
    Tiling 0 (min (k * size) n) ((List.range k).map fun (i : Nat) =>
      (i * size, min (i * size + size) n)) := by
  induction k with
  | zero =>
      rw [Nat.cast_zero, zero_mul, min_eq_left (Int.natCast_nonneg n)]
      exact .nil
  | succ k ih =>
      rw [Nat.cast_succ, add_sub_cancel_right] at inside
      have before : ((k : Int) - 1) * size < n := by
        rw [sub_mul, one_mul]
        omega
      have all := ih before
      rw [min_eq_left inside.le] at all
      rw [List.range_succ, List.map_append, List.map_singleton, Nat.cast_succ, add_mul, one_mul]
      exact all.concat (lt_min (lt_add_of_pos_right _ hs) inside)

/-- The number of chunks is the least one with which they reach the end of the rows. -/
theorem chunkCount_le_iff {n k : Nat} {size : Int} (hs : 0 < size) :
    chunkCount n size ≤ k ↔ n ≤ k * size := by
  have reach : -(k : Int) ≤ -(n : Int) / size ↔ -(k : Int) * size ≤ -(n : Int) :=
    Int.le_ediv_iff_mul_le hs
  rw [neg_mul] at reach
  rw [chunkCount, Int.fdiv_eq_ediv_of_nonneg _ hs.le]
  omega

/-- The chunks tile the rows. -/
theorem tiling_rowChunks {n : Nat} {size : Int} (hs : 0 < size) :
    Tiling 0 n (rowChunks n size) := by
  have reached := (chunkCount_le_iff hs).mp (le_refl (chunkCount n size))
  have whole := tiling_range (n := n) (k := chunkCount n size) hs ?_
  · rwa [min_eq_right reached] at whole
  · cases hk : chunkCount n size with
    | zero =>
        rw [Nat.cast_zero, zero_sub, neg_one_mul]
        omega
    | succ k =>
        rw [Nat.cast_succ, add_sub_cancel_right]
        by_contra past
        have few := (chunkCount_le_iff hs).mpr (not_lt.mp past)
        omega

namespace RowBlocks

variable {α : Type} {m : Matrix α} {workers minRows : Int}

/-- There are no more blocks than workers. -/
theorem length_bounds_le (some : 1 ≤ workers) (n : Nat) (h : 1 ≤ minRows) :
    ((rowChunks n (blockSize n workers minRows)).length : Int) ≤ workers := by
  obtain ⟨w, rfl⟩ := Int.eq_ofNat_of_zero_le (Int.zero_le_ofNat 1 |>.trans some)
  have size : 0 < blockSize n w minRows := blockSize_pos n w h
  rw [length_rowChunks, Int.ofNat_le, chunkCount_le_iff size]
  rcases Nat.eq_zero_or_pos n with rfl | rows
  · exact Int.mul_nonneg (Int.natCast_nonneg w) size.le
  · -- a block is no smaller than the rows shared out among the workers, rounded up
    have share : -(-(n : Int) / w) ≤ blockSize n w minRows := by
      rw [blockSize, if_neg rows.ne', Int.fdiv_eq_ediv_of_nonneg _ (Int.natCast_nonneg w)]
      exact le_max_right _ _
    have floor := Int.ediv_mul_le (-(n : Int)) (b := w) (by omega)
    calc (n : Int)
      _ ≤ -(-(n : Int) / w) * w := by rw [neg_mul]; omega
      _ ≤ blockSize n w minRows * w :=
          Int.mul_le_mul_of_nonneg_right share (Int.natCast_nonneg w)
      _ = w * blockSize n w minRows := Int.mul_comm _ _

variable [Scalar α]

/-- The places that the workers write are those of the rows. -/
theorem places_perm {bounds order : List (Int × Int)} (tiling : Tiling 0 m.order bounds)
    (rows : bounds.flatMap rowsOf = List.range m.order) (h : order.Perm bounds) (x : Array α) :
    ((order.flatMap (writes m x)).map Prod.fst).Perm (List.range m.order) := by
  have places : ∀ c ∈ order, (writes m x c).map Prod.fst = rowsOf c := fun c hc => by
    have last := (tiling.within c (h.mem_iff.mp hc)).2.2
    rw [writes_eq, List.map_map, rowsOf, min_eq_left (Int.toNat_le.mpr last)]
    exact List.map_id _
  rw [List.map_flatMap, List.flatMap_congr places, ← rows]
  exact h.flatMap_right _

/-- One or more workers with blocks of one or more rows: the blocks tile the rows of the matrix,
at most as many of them as workers.  In whatever order the workers write their blocks, they write
every entry of the product once, and what they find in its place does not matter.  The product is
the one of the matrix at once, and it is the same when the workers have been dismissed. -/
theorem team_tiles (some : 1 ≤ workers) (h : 1 ≤ minRows) (processors : Option Nat) :
    ∃ b, ofMatrix m workers minRows processors = .ok b ∧ b.matrix = m ∧ Tiling 0 m.order b.bounds ∧
      (b.bounds.Pairwise fun s t => s.2 ≤ t.1) ∧ (b.bounds.length : Int) ≤ workers ∧
      ∀ order, order.Perm b.bounds → ∀ x : Array α, x.size = m.columns →
        ((order.flatMap (writes m x)).map Prod.fst).Perm (List.range m.order) ∧
        (∀ out, out.size = m.order → order.foldl (writeBlock m x) out = m.product x) ∧
        b.team.mulVec order x = .ok (m.product x) ∧
        b.team.dismiss.mulVec order x = .ok (m.product x) := by
  have given : View.orDefault workers (defaultWorkers processors) = workers :=
    if_neg (by omega)
  have size : 0 < blockSize m.order workers minRows := blockSize_pos m.order workers h
  have tiling := tiling_rowChunks (n := m.order) size
  refine ⟨⟨m, rowChunks m.order (blockSize m.order workers minRows)⟩, ?_, rfl, tiling,
    tiling.pairwise, length_bounds_le some m.order h, fun order perm x fits => ?_⟩
  · rw [ofMatrix_eq h, given, if_neg fun few => absurd few.2 (by omega)]
  · have cover : ∀ i < m.order, ∃ c ∈ order, c.1.toNat ≤ i ∧ i < c.2.toNat := fun i hi => by
      obtain ⟨c, hc, inside⟩ := cover_rowChunks size i hi
      exact ⟨c, perm.mem_iff.mpr hc, inside⟩
    have product := Matrix.mulVec_of_size fits
    exact ⟨places_perm tiling (flatMap_rowChunks size) perm x,
      fun out same => foldl_writeBlock_eq x same cover,
      (Team.mulVec_eq x cover).trans product, (Team.mulVec_eq x cover).trans product⟩

/-- The rows of a lower triangle, with a row without entries. -/
def lower : Matrix ℚ :=
  ⟨5, #[[(0, 1)], [(0, 2), (1, 1)], [], [(3, 4)], [(2, 3), (4, 1)]]⟩

/-- Three workers write five rows, the last block first. -/
theorem team_tiles_lower : ∃ b, ofMatrix lower (some 3) 1 = .ok b ∧
    b.bounds = [(0, 2), (2, 4), (4, 5)] ∧ Tiling 0 5 b.bounds ∧
    b.team.mulVec [(4, 5), (0, 2), (2, 4)] #[1, 1, 2, 1, 3] = .ok #[1, 3, 0, 4, 9] ∧
    b.team.dismiss.mulVec [(4, 5), (0, 2), (2, 4)] #[1, 1, 2, 1, 3] = .ok #[1, 3, 0, 4, 9] := by
  have one : (1 : Int) ≤ 1 := le_rfl
  have three : (1 : Int) ≤ 3 := by decide
  obtain ⟨b, found, -, tiling, -, -, all⟩ := team_tiles (m := lower) three one (some 8)
  have bounds : b.bounds = [(0, 2), (2, 4), (4, 5)] := by
    cases found
    decide
  have product : lower.product #[1, 1, 2, 1, 3] = #[1, 3, 0, 4, 9] := by decide +kernel
  obtain ⟨-, -, waiting, dismissed⟩ := all [(4, 5), (0, 2), (2, 4)]
    (bounds ▸ by decide) #[1, 1, 2, 1, 3] rfl
  exact ⟨b, found, bounds, tiling, product ▸ waiting, product ▸ dismissed⟩

end RowBlocks

end GraphClustering
