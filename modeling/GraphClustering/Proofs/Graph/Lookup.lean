import GraphClustering.Proofs.Graph.Interpolation

/-!
# Looking up a key

A round of the interpolation search depends on the values at the ends of its window and at its
probe only (`Window.Round.of_reads`), all of them positions of the window.  In an ascending array
the search finds a position of the key in its window, if there is one; where no value is repeated,
so does the binary search of the slice (`interpolationSearch_finds`).  The two take the end of the
window in different ways: one names the last position, the other the one behind it, and
counts from the end of the array below zero.  Whatever the values are, the search ends after
as many rounds as bisection alone would need, twice (`interpolationSearch_budget`).
-/

namespace GraphClustering.Search

open Relation (ReflTransGen)

variable {arr : Array Int} {key lo hi : Int} {found : Option Nat} {w : Window} {p k : Nat}

/-! ## Windows of an array -/

namespace Window

/-- The window from one position of an array up to another one. -/
def between (lo hi : Int) : Window :=
  ⟨true, lo.toNat, (hi + 1).toNat⟩

theorem width_between (first : 0 ≤ lo) : (between lo hi).width = (hi + 1 - lo).toNat := by
  simp only [width, between]
  omega

/-- The positions that are looked at in a round: the ends, and the probe if they leave it open. -/
def Reads (w : Window) (arr : Array Int) (key : Int) (p : Nat) : Prop :=
  w.lo < w.stop ∧ (p = w.lo ∨ p = w.stop - 1) ∨ w.Open arr key ∧ p = w.probe arr key

theorem Reads.mem (h : w.Reads arr key p) : w.lo ≤ p ∧ p < w.stop := by
  rcases h with ⟨window, rfl | rfl⟩ | ⟨between, rfl⟩
  · exact ⟨le_rfl, window⟩
  · omega
  · exact between.probe_mem

/-- What a round does depends on the values at these positions only. -/
theorem Round.of_reads {arr' : Array Int} {r : Option Nat ⊕ Window} (round : Round arr key w r)
    (same : ∀ p, w.Reads arr key p → arr'.getD p 0 = arr.getD p 0) : Round arr' key w r := by
  have ends : w.lo < w.stop →
      arr'.getD w.lo 0 = arr.getD w.lo 0 ∧ arr'.getD (w.stop - 1) 0 = arr.getD (w.stop - 1) 0 :=
    fun window => ⟨same _ (.inl ⟨window, .inl rfl⟩), same _ (.inl ⟨window, .inr rfl⟩)⟩
  have probe : w.Open arr key → w.Open arr' key ∧ w.probe arr' key = w.probe arr key ∧
      arr'.getD (w.probe arr key) 0 = arr.getD (w.probe arr key) 0 := fun between => by
    obtain ⟨first, last⟩ := ends between.window
    refine ⟨⟨between.window, ?_, ?_, ?_⟩, ?_, same _ (.inr ⟨between, rfl⟩)⟩
    · exact first ▸ between.first
    · exact last ▸ between.last
    · exact first ▸ last ▸ between.apart
    · rw [Window.probe, first, last, Window.probe]
  cases round with
  | empty empty => exact .empty empty
  | below window small => exact .below window ((ends window).1 ▸ small)
  | above window large => exact .above window ((ends window).2 ▸ large)
  | flat window equal => exact .flat window ((ends window).1.trans equal)
  | probed between equal =>
      obtain ⟨between', position, value⟩ := probe between
      rw [← position] at value equal ⊢
      exact .probed between' (value.trans equal)
  | right between small =>
      obtain ⟨between', position, value⟩ := probe between
      rw [← position] at value small ⊢
      exact .right between' (value.trans_lt small)
  | left between large =>
      obtain ⟨between', position, value⟩ := probe between
      rw [← position] at value large ⊢
      exact .left between' (large.trans_eq value.symm)

/-- The values in a window of an array ascend if all values do. -/
theorem ordered_between (ordered : arr.toList.Pairwise (· ≤ ·)) (last : hi < arr.size) :
    (between lo hi).Ordered arr := by
  intro i j _ hij hj
  rcases hij.eq_or_lt with rfl | lt
  · exact le_rfl
  · exact rel_getD ordered lt (hj.trans_le (by simp only [between]; omega))

theorem holds_between (first : 0 ≤ lo) (last : hi < arr.size) :
    (between lo hi).Holds arr key k ↔ lo ≤ k ∧ k ≤ hi ∧ arr[k]? = some key := by
  have positions : lo.toNat ≤ k ∧ k < (hi + 1).toNat ↔ lo ≤ k ∧ k ≤ hi := by omega
  rw [Holds, between, ← and_assoc, ← and_assoc, positions, Array.getD_eq_getD_getElem?]
  refine and_congr_right fun inside => ?_
  rw [Array.getElem?_eq_getElem (by omega), Option.getD_some, Option.some_inj]

end Window

open Window

/-! ## Both searches -/

theorem interpolationSearch_eq (first : 0 ≤ lo) (last : hi < arr.size) {fuel : Nat}
    (ended : (between lo hi).search arr key fuel = some found) :
    interpolationSearch arr key lo hi = .ok found := by
  obtain ⟨found', ended'⟩ : ∃ found', (between lo hi).search arr key (between lo hi).width =
      some found' := exists_search le_rfl
  have same : some found' = some found := by
    rw [← search_mono ended' (le_max_left _ fuel), ← search_mono ended (le_max_right _ _)]
  have run : interpolationSearch arr key lo hi =
      .ok (((between lo hi).search arr key (between lo hi).width).getD none) := by
    rw [interpolationSearch, if_neg (by omega)]
    rfl
  rw [run, ended', same, Option.getD_some]

/-- Where no value is repeated, the binary search of a slice gives the right answer in a window
that ends where the slice does. -/
theorem locate_eq (ascending : arr.toList.Pairwise (· < ·)) (first : 0 ≤ lo) {stop : Int}
    (start : w.lo = lo.toNat) (clip : Position.clamp arr.size stop = w.stop)
    (answers : w.Answers arr key found) :
    locate arr [key] lo (some stop) = [found.map fun k => (k : Int)] := by
  have inside : w.stop ≤ arr.size := clip ▸ Position.clamp_le _ _
  have front : Position.clamp arr.size lo = min w.lo arr.size := by
    rw [Position.clamp, if_pos first, start]
  have holds : ∀ k, positionWithin? arr key (min w.lo arr.size) w.stop = some k ↔
      w.Holds arr key k := fun k => by
    rw [positionWithin?_eq_some_iff fun i j _ hij hj => rel_getD ascending hij (hj.trans_le inside),
      Holds]
    refine and_congr_left ?_
    rintro ⟨hk, -⟩
    omega
  have same : positionWithin? arr key (min w.lo arr.size) w.stop = found := by
    refine Option.ext fun k => ?_
    rw [holds, answers.eq_some_iff fun i j hi hj => ?_]
    exact Option.some_inj.mp (((holds i).mpr hi).symm.trans ((holds j).mpr hj))
  rw [locate, List.map_singleton, Option.getD_some, front, clip, same]
  cases found with
  | none => rfl
  | some k =>
      obtain ⟨h, hk, -⟩ : w.Holds arr key k := answers
      have place : lo + ((k : Int) - (min w.lo arr.size : Nat)) = k := by omega
      exact congrArg (fun i => [some i]) place

/-- In a window of an ascending array the interpolation search ends, in no more rounds than the
window has positions; all positions it looks at lie in the window that is left by then, and in
the array.  It finds a position of the key, if there is one in the window.  Where no value is
repeated, the binary search of the slice that ends behind the window comes to the same; only if
the window ends before the first position, that slice is another one, for its end counts from the
end of the array, and is searched like the window with an end counted so. -/
theorem interpolationSearch_finds (key lo hi : Int) (ordered : arr.toList.Pairwise (· ≤ ·))
    (first : 0 ≤ lo) (last : hi < arr.size) :
    ∃ found, interpolationSearch arr key lo hi = .ok found ∧
      (∀ fuel, (hi + 1 - lo).toNat ≤ fuel →
        searchWithin arr key fuel true lo.toNat (hi + 1).toNat = some found) ∧
      (∀ w, ReflTransGen (Narrows arr key) (between lo hi) w → ∀ p, w.Reads arr key p →
        w.lo ≤ p ∧ p < w.stop ∧ p < arr.size) ∧
      (∀ i, found = some i → lo ≤ i ∧ i ≤ hi ∧ arr[i]? = some key) ∧
      (found = none → ∀ i : Nat, lo ≤ i → i ≤ hi → arr[i]? ≠ some key) ∧
      (arr.toList.Pairwise (· < ·) →
        (-1 ≤ hi → locate arr [key] lo (some (hi + 1)) = [found.map fun k => (k : Int)]) ∧
        (hi < -1 → ∃ other, interpolationSearch arr key lo (hi + arr.size) = .ok other ∧
          locate arr [key] lo (some (hi + 1)) = [other.map fun k => (k : Int)])) := by
  obtain ⟨found, ended⟩ : ∃ found, (between lo hi).search arr key (hi + 1 - lo).toNat =
      some found := exists_search (width_between first).le
  have answers := answers_of_search (ordered_between ordered last) ended
  refine ⟨found, interpolationSearch_eq first last ended, fun fuel => search_mono ended,
    fun w windows p reads => ?_, ?_, ?_, fun ascending => ⟨fun front => ?_, fun behind => ?_⟩⟩
  · obtain ⟨-, stop⟩ := within_of_narrows windows
    have within := reads.mem
    refine ⟨within.1, within.2, within.2.trans_le (stop.trans ?_)⟩
    simp only [between]
    omega
  · rintro i rfl
    exact (holds_between first last).mp answers
  · rintro rfl i hi hi' value
    exact answers i ((holds_between first last).mpr ⟨hi, hi', value⟩)
  · refine locate_eq ascending first (w := between lo hi) rfl ?_ answers
    rw [Position.clamp, if_pos (by omega)]
    simp only [between]
    omega
  · have last' : hi + arr.size < arr.size := by omega
    obtain ⟨other, ended'⟩ : ∃ other, (between lo (hi + arr.size)).search arr key
        (hi + arr.size + 1 - lo).toNat = some other := exists_search (width_between first).le
    refine ⟨other, interpolationSearch_eq first last' ended',
      locate_eq ascending first (w := between lo (hi + arr.size)) rfl ?_
        (answers_of_search (ordered_between ordered last') ended')⟩
    rw [Position.clamp, if_neg (by omega)]
    simp only [between]
    omega

/-- Repeated values below a value far away. -/
def skewed : Array Int :=
  #[0, 4, 4, 4, 5, 6, 7, 1000000000000]

/-- A few values, none of them repeated. -/
def spread : Array Int :=
  #[1, 3, 10, 50]

theorem interpolationSearch_finds_skewed :
    (∃ i : Nat, interpolationSearch skewed 7 1 7 = .ok (some i) ∧ skewed[i]? = some 7) ∧
      (∃ found, interpolationSearch spread 10 1 3 = .ok found ∧
        locate spread [10] 1 (some (3 + 1)) = [found.map fun k => (k : Int)]) ∧
      ∃ found, interpolationSearch spread 10 0 (-2 + 4) = .ok found ∧
        locate spread [10] 0 (some (-2 + 1)) = [found.map fun k => (k : Int)] := by
  have ordered : spread.toList.Pairwise (· ≤ ·) := by decide
  have ascending : spread.toList.Pairwise (· < ·) := by decide
  refine ⟨?_, ?_, ?_⟩
  · obtain ⟨found, run, -, -, right, none, -⟩ := interpolationSearch_finds 7 1 7
      (by decide : skewed.toList.Pairwise (· ≤ ·)) (by decide) (by decide)
    cases found with
    | none => exact absurd rfl (none rfl 6 (by decide) (by decide))
    | some i => exact ⟨i, run, (right i rfl).2.2⟩
  · obtain ⟨found, run, -, -, -, -, same⟩ := interpolationSearch_finds 10 1 3 ordered (by decide)
      (by decide)
    exact ⟨found, run, (same ascending).1 (by decide)⟩
  · obtain ⟨_, -, -, -, -, -, same⟩ := interpolationSearch_finds 10 0 (-2) ordered (by decide)
      (by decide)
    exact (same ascending).2 (by decide)

/-- A window that ends two places before the first position is empty, but not the slice that ends
one place before the first position: it ends before the last one. -/
theorem locate_before_front : spread.toList.Pairwise (· < ·) ∧ (0 : Int) ≤ 0 ∧
    (-2 : Int) < spread.size ∧ interpolationSearch spread 10 0 (-2) = .ok none ∧
      locate spread [10] 0 (some (-2 + 1)) = [some 2] :=
  ⟨by decide, by decide, by decide, rfl, by decide⟩

/-- Whatever the values are, the search ends after two rounds for each time that its window can
be halved, and one more. -/
theorem interpolationSearch_budget (key lo hi : Int) (first : 0 ≤ lo) (last : hi < arr.size) :
    ∃ found, interpolationSearch arr key lo hi = .ok found ∧
      ∀ fuel, 2 * Nat.log 2 (hi + 1 - lo).toNat + 1 ≤ fuel →
        searchWithin arr key fuel true lo.toNat (hi + 1).toNat = some found := by
  obtain ⟨found, ended⟩ : ∃ found, (between lo hi).search arr key
      (2 * Nat.log 2 (hi + 1 - lo).toNat + 1) = some found :=
    exists_search_of_log rfl (by rw [width_between first])
  exact ⟨found, interpolationSearch_eq first last ended, fun fuel => search_mono ended⟩

theorem interpolationSearch_budget_skewed :
    ∃ found, interpolationSearch skewed 999 0 7 = .ok found ∧
      searchWithin skewed 999 7 true 0 8 = some found := by
  obtain ⟨found, run, ended⟩ := @interpolationSearch_budget skewed 999 0 7 (by decide)
    (by decide)
  exact ⟨found, run, ended 7 (by decide)⟩

end GraphClustering.Search
