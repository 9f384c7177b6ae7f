import GraphClustering.Graph.Store
import Mathlib

/-!
# Sorted arrays and lists

The binary search finds exactly the keys that a strictly ascending array holds
(`position?_eq_some_iff`), and `sortedDistinct` and `sortedRows` list the
members of a list in strictly ascending order.
-/

namespace GraphClustering

namespace Search

/-- Values of an array at two positions are related as its values are in order. -/
theorem rel_getD {α : Type} {R : α → α → Prop} {arr : Array α} {d : α} {i j : Nat}
    (h : arr.toList.Pairwise R) (hij : i < j) (hj : j < arr.size) :
    R (arr.getD i d) (arr.getD j d) := by
  have related := List.pairwise_iff_getElem.mp h i j (hij.trans hj) hj hij
  simpa [Array.getD_eq_getD_getElem?, hj, hij.trans hj] using related

section Bound

variable {α : Type} [LT α] [DecidableLT α] [DecidableEq α] [Inhabited α]
variable {arr : Array α} {key : α} {lo hi k : Nat}

omit [DecidableEq α] in
/-- The search ends at the only place that separates smaller values from the others. -/
theorem lowerBound_eq {fuel : Nat} (hlo : lo ≤ k) (hhi : k ≤ hi) (hfuel : hi - lo ≤ fuel)
    (below : ∀ i, lo ≤ i → i < k → arr.getD i default < key)
    (above : ∀ i, k ≤ i → i < hi → ¬ arr.getD i default < key) :
    lowerBound arr key fuel lo hi = k := by
  induction fuel generalizing lo hi with
  | zero => rw [lowerBound]; omega
  | succ fuel ih =>
      rw [lowerBound]
      by_cases h : lo < hi
      · rw [if_pos h]
        by_cases hm : lo + (hi - lo) / 2 < k
        · rw [if_pos (below _ (Nat.le_add_right _ _) hm)]
          exact ih hm hhi (by omega) (fun i hi' => below i (by omega)) above
        · have hm' := Nat.le_of_not_lt hm
          rw [if_neg (above _ hm' (by omega))]
          exact ih hlo hm' (by omega) below fun i hki hi' => above i hki (by omega)
      · rw [if_neg h]; omega

omit [DecidableEq α] in
theorem le_lowerBound (arr : Array α) (key : α) (fuel lo hi : Nat) :
    lo ≤ lowerBound arr key fuel lo hi := by
  induction fuel generalizing lo hi with
  | zero => exact Nat.le_refl lo
  | succ fuel ih =>
      rw [lowerBound]
      by_cases h : lo < hi
      · rw [if_pos h]
        dsimp only
        split
        · exact Nat.le_trans (by omega) (ih (lo + (hi - lo) / 2 + 1) hi)
        · exact ih lo _
      · rw [if_neg h]

theorem le_of_positionWithin? (h : positionWithin? arr key lo hi = some k) : lo ≤ k := by
  rw [positionWithin?] at h
  split at h
  · cases h
    exact le_lowerBound arr key _ lo hi
  · cases h

theorem positionWithin?_eq_some (h : positionWithin? arr key lo hi = some k) :
    k < hi ∧ arr.getD k default = key := by
  rw [positionWithin?] at h
  split at h
  · rename_i hp
    cases h
    exact hp
  · cases h

theorem position?_eq_some (h : position? arr key = some k) :
    k < arr.size ∧ arr.getD k default = key :=
  positionWithin?_eq_some h

end Bound

variable {α : Type} [LinearOrder α] [Inhabited α] {arr : Array α} {key : α} {lo hi k : Nat}

theorem positionWithin?_getD (hlo : lo ≤ k) (hhi : k < hi)
    (ascending : ∀ i j, lo ≤ i → i < j → j < hi → arr.getD i default < arr.getD j default) :
    positionWithin? arr (arr.getD k default) lo hi = some k := by
  have bound : lowerBound arr (arr.getD k default) (hi - lo) lo hi = k := by
    refine lowerBound_eq hlo hhi.le le_rfl (fun i hi hik => ascending i k hi hik hhi) ?_
    intro i hki hi
    rcases Nat.eq_or_lt_of_le hki with rfl | hki
    · exact lt_irrefl _
    · exact lt_asymm (ascending k i hlo hki hi)
  rw [positionWithin?, bound]
  exact if_pos ⟨hhi, rfl⟩

theorem positionWithin?_eq_some_iff
    (ascending : ∀ i j, lo ≤ i → i < j → j < hi → arr.getD i default < arr.getD j default) :
    positionWithin? arr key lo hi = some k ↔ lo ≤ k ∧ k < hi ∧ arr.getD k default = key := by
  refine ⟨fun h => ⟨le_of_positionWithin? h, positionWithin?_eq_some h⟩, ?_⟩
  rintro ⟨hlo, hhi, rfl⟩
  exact positionWithin?_getD hlo hhi ascending

theorem position?_getD (hk : k < arr.size) (ascending : arr.toList.Pairwise (· < ·)) :
    position? arr (arr.getD k default) = some k :=
  positionWithin?_getD (Nat.zero_le k) hk fun _ _ _ hij hj => rel_getD ascending hij hj

theorem position?_eq_some_iff (ascending : arr.toList.Pairwise (· < ·)) :
    position? arr key = some k ↔ k < arr.size ∧ arr.getD k default = key := by
  refine ⟨position?_eq_some, ?_⟩
  rintro ⟨hk, rfl⟩
  exact position?_getD hk ascending

theorem exists_position? (ascending : arr.toList.Pairwise (· < ·)) (h : key ∈ arr) :
    ∃ k, position? arr key = some k := by
  obtain ⟨k, hk, rfl⟩ := Array.mem_iff_getElem.mp h
  refine ⟨k, (position?_eq_some_iff ascending).mpr ⟨hk, ?_⟩⟩
  simp [Array.getD_eq_getD_getElem?, hk]

end Search

/-! ## Lists without repetition -/

section Distinct

variable {α : Type} [DecidableEq α] {a b : α} {xs : List α}

private theorem eraseRepsBy_loop (a : α) (xs acc : List α) :
    List.eraseRepsBy.loop (· == ·) a xs acc =
      acc.reverse ++ List.eraseRepsBy.loop (· == ·) a xs [] := by
  induction xs generalizing a acc with
  | nil => simp [List.eraseRepsBy.loop]
  | cons b xs ih =>
      rw [List.eraseRepsBy.loop, List.eraseRepsBy.loop]
      split
      · exact ih a acc
      · rw [ih b (a :: acc), ih b [a]]; simp

theorem eraseReps_cons_cons :
    (a :: b :: xs).eraseReps = if a = b then (a :: xs).eraseReps else a :: (b :: xs).eraseReps := by
  simp only [List.eraseReps, List.eraseRepsBy, List.eraseRepsBy.loop]
  by_cases h : a = b
  · rw [if_pos h, beq_iff_eq.mpr h]
  · rw [if_neg h, beq_eq_false_iff_ne.mpr h]
    simpa using eraseRepsBy_loop b xs [a]

theorem mem_eraseReps : ∀ {xs : List α}, a ∈ xs.eraseReps ↔ a ∈ xs
  | [] => Iff.rfl
  | [b] => by simp [List.eraseReps, List.eraseRepsBy, List.eraseRepsBy.loop]
  | b :: c :: xs => by
      rw [eraseReps_cons_cons]
      split
      · rename_i h
        rw [mem_eraseReps, ← h]; simp
      · rw [List.mem_cons, mem_eraseReps, ← List.mem_cons]

end Distinct

section Ascending

variable {α : Type} [LinearOrder α] {xs : List α}

theorem pairwise_eraseReps : ∀ {xs : List α}, xs.Pairwise (· ≤ ·) →
    xs.eraseReps.Pairwise (· < ·)
  | [], _ => List.Pairwise.nil
  | [b], _ => List.pairwise_singleton _ b
  | b :: c :: xs, h => by
      obtain ⟨hb, hc⟩ := List.pairwise_cons.mp h
      rw [eraseReps_cons_cons]
      split
      · rename_i hbc
        rw [hbc]; exact pairwise_eraseReps hc
      · rename_i hbc
        refine List.pairwise_cons.mpr ⟨?_, pairwise_eraseReps hc⟩
        intro d hd
        have hlt : b < c := lt_of_le_of_ne (hb c List.mem_cons_self) hbc
        rcases List.mem_cons.mp (mem_eraseReps.mp hd) with rfl | hd
        · exact hlt
        · exact hlt.trans_le ((List.pairwise_cons.mp hc).1 d hd)

theorem pairwise_eraseReps_mergeSort (xs : List α) :
    (xs.mergeSort fun a b => a ≤ b).eraseReps.Pairwise (· < ·) := by
  apply pairwise_eraseReps
  have sorted : (xs.mergeSort fun a b => a ≤ b).Pairwise fun a b => decide (a ≤ b) = true :=
    List.pairwise_mergeSort (fun a b c => by simpa using le_trans)
      (fun a b => by simpa using le_total a b) xs
  exact sorted.imp fun h => by simpa using h

end Ascending

theorem mem_sortedDistinct {a : Int} {xs : List Int} : a ∈ sortedDistinct xs ↔ a ∈ xs :=
  mem_eraseReps.trans List.mem_mergeSort

theorem sortedDistinct_ascending (xs : List Int) : (sortedDistinct xs).Pairwise (· < ·) :=
  pairwise_eraseReps_mergeSort xs

theorem mem_sortedRows {a : Nat} {xs : List Nat} : a ∈ sortedRows xs ↔ a ∈ xs :=
  mem_eraseReps.trans List.mem_mergeSort

theorem sortedRows_ascending (xs : List Nat) : (sortedRows xs).Pairwise (· < ·) :=
  pairwise_eraseReps_mergeSort xs

end GraphClustering
