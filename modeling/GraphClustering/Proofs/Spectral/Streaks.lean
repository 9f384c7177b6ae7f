import GraphClustering.Proofs.Decimal.Product
import GraphClustering.Proofs.Rational
import GraphClustering.Proofs.Spectral.Failures

/-!
# The first settled window

The streak of an entry has a given length iff the signs of the entry are the same over as many
steps (`SignTrail.le_streak_iff`), so the trail of a power iteration is settled iff enough
entries are on one side throughout the last iterates (`SignTrail.settled_after_iff`).  The
iteration ends with the first iterate at which this is so
(`PowerIteration.run_until_settled`).
-/

namespace GraphClustering

namespace SignTrail

/-! ## Streaks -/

/-- The number of the latest steps over which signs stayed the same. -/
def streak (signs : Nat → Bool) : Nat → Nat
  | 0 => 0
  | k + 1 => if signs k == signs (k + 1) then streak signs k + 1 else 0

/-- Signs are on one side from `first` to `last`. -/
def Steady (signs : Nat → Bool) (first last : Nat) : Prop :=
  ∃ side, ∀ j ∈ Finset.Icc first last, signs j = side

instance (signs : Nat → Bool) (first last : Nat) : Decidable (Steady signs first last) :=
  inferInstanceAs (Decidable (∃ side, ∀ j ∈ Finset.Icc first last, signs j = side))

variable {signs : Nat → Bool} {first k n t : Nat}

theorem Steady.refl (signs : Nat → Bool) (k : Nat) : Steady signs k k :=
  ⟨signs k, fun j hj => by
    rw [Finset.Icc_self, Finset.mem_singleton] at hj
    rw [hj]⟩

/-- Signs are steady up to the next place if they are so up to here and do not change here. -/
theorem steady_succ_iff (h : first ≤ k) :
    Steady signs first (k + 1) ↔ signs k = signs (k + 1) ∧ Steady signs first k := by
  constructor
  · rintro ⟨side, steady⟩
    constructor
    · rw [steady k (Finset.mem_Icc.mpr ⟨h, k.le_succ⟩),
        steady (k + 1) (Finset.right_mem_Icc.mpr (h.trans k.le_succ))]
    · exact ⟨side, fun j hj => steady j (Finset.Icc_subset_Icc_right k.le_succ hj)⟩
  · rintro ⟨same, side, steady⟩
    refine ⟨side, fun j hj => ?_⟩
    obtain ⟨low, high⟩ := Finset.mem_Icc.mp hj
    rcases Nat.le_succ_iff.mp high with high | rfl
    · exact steady j (Finset.mem_Icc.mpr ⟨low, high⟩)
    · rw [← same]
      exact steady k (Finset.right_mem_Icc.mpr h)

/-- A streak is at least as long as any steady stretch that ends with it. -/
theorem le_streak_iff : t ≤ streak signs k ↔ t ≤ k ∧ Steady signs (k - t) k := by
  induction k generalizing t with
  | zero =>
      rw [streak, Nat.zero_sub]
      exact (and_iff_left (Steady.refl signs 0)).symm
  | succ k ih =>
      cases t with
      | zero => exact iff_of_true (Nat.zero_le _) ⟨Nat.zero_le _, Steady.refl signs (k + 1)⟩
      | succ t =>
          rw [streak, Nat.add_sub_add_right, steady_succ_iff (Nat.sub_le k t), beq_eq_decide,
            Nat.succ_le_succ_iff]
          by_cases same : signs k = signs (k + 1)
          · rw [if_pos (decide_eq_true same), Nat.succ_le_succ_iff, ih, and_iff_right same]
          · rw [if_neg (by rwa [decide_eq_true_eq])]
            exact iff_of_false (Nat.not_succ_le_zero t) fun h => same h.2.1

/-! ## What has to be reached -/

/-- A positive share of some entries is positive. -/
theorem times_pos {a : Number} (pos : Number.less (.int 0) a = true) (entries : 0 < n) :
    Number.less (.int 0) (times a n) = true := by
  cases a with
  | flag b =>
      cases b with
      | false => cases pos
      | true =>
          rw [times, Number.less_int, decide_eq_true_iff]
          simpa using entries
  | int z =>
      rw [Number.less_int, decide_eq_true_iff] at pos
      rw [times, Number.less_int, decide_eq_true_iff]
      exact Int.mul_pos pos (Int.natCast_pos.mpr entries)
  | real x =>
      rw [Number.less_zero_real_iff] at pos
      rw [times, Number.less_zero_real_iff]
      exact Decimal.bitsFrom_mul pos (Decimal.bitsFrom_nearest entries)

/-! ## Trails of a sequence of vectors -/

variable {α : Type} [Scalar α] {xs : Nat → List α} {trailSize required threshold : Number}

/-- The signs of an entry of the vectors of a sequence. -/
def signsAt (xs : Nat → List α) (i k : Nat) : Bool :=
  positive ((xs k).getD i 0)

/-- The trail after the first `k` steps of a sequence of vectors of length `n`. -/
def after (trailSize required : Number) (n : Nat) (xs : Nat → List α) (k : Nat) : SignTrail :=
  ⟨trailSize, required, (List.range n).map fun i => streak (signsAt xs i) k⟩

theorem fresh_eq_after (xs : Nat → List α) :
    fresh n trailSize threshold = after trailSize (times threshold n) n xs 0 := by
  have zeros : ((List.range n).map fun i => streak (signsAt xs i) 0) = List.replicate n 0 := by
    simp [streak]
  rw [fresh, after, zeros]

/-- A step brings the trail of the next vector. -/
theorem observe_after (length : ∀ k, (xs k).length = n) (k : Nat) :
    (after trailSize required n xs k).observe (xs k) (xs (k + 1)) =
      .ok (after trailSize required n xs (k + 1)) := by
  have same : Vector.broadcast (fun a b => positive a == positive b) (xs k) (xs (k + 1)) =
      .ok ((List.range n).map fun i => signsAt xs i k == signsAt xs i (k + 1)) := by
    rw [Vector.broadcast_of_length_eq _ ((length k).trans (length (k + 1)).symm)]
    congr 1
    apply List.ext_getElem
    · simp [length]
    · intro i hi hi'
      simp only [List.getElem_zipWith, List.getElem_map, List.getElem_range, signsAt]
      rw [List.getD_eq_getElem, List.getD_eq_getElem]
  rw [observe, same]
  simp only [bind, Except.bind, after]
  rw [Vector.broadcast_of_length_eq _ (by simp)]
  dsimp only
  rw [List.zipWith_map_left, List.zipWith_map_right, List.zipWith_self]
  rfl

/-- The number of entries that are on one side from `first` to `last`. -/
def steadyEntries (n : Nat) (xs : Nat → List α) (first last : Nat) : Nat :=
  (List.range n).countP fun i => decide (Steady (signsAt xs i) first last)

/-- Enough entries are on one side throughout the latest iterates, of which there are enough. -/
def SettledAt (trail : Nat) (required : Number) (n : Nat) (xs : Nat → List α) (k : Nat) : Prop :=
  trail ≤ k ∧ required.atMost (.int (steadyEntries n xs (k - trail) k)) = true

instance (trail : Nat) (required : Number) (n : Nat) (xs : Nat → List α) (k : Nat) :
    Decidable (SettledAt trail required n xs k) :=
  inferInstanceAs (Decidable (_ ∧ _))

theorem longStreaks_after (trail k : Nat) :
    (after (.int trail) required n xs k).longStreaks =
      if trail ≤ k then steadyEntries n xs (k - trail) k else 0 := by
  have long (i : Nat) : Number.atMost (.int trail) (.int (streak (signsAt xs i) k)) =
      decide (trail ≤ k ∧ Steady (signsAt xs i) (k - trail) k) := by
    rw [Number.atMost_int, decide_eq_decide, Nat.cast_le, le_streak_iff]
  rw [longStreaks, after, List.countP_map]
  simp only [Function.comp_def, long]
  split
  · rename_i enough
    simp only [enough, true_and, steadyEntries]
  · rename_i few
    simp [few]

/-- A trail that asks for something is settled at the settled windows. -/
theorem settled_after_iff {trail : Nat} (pos : Number.less (.int 0) required = true) :
    (after (.int trail) required n xs k).settled = true ↔
      SettledAt trail required n xs k := by
  rw [settled, longStreaks_after, SettledAt]
  split
  · rename_i enough
    exact (and_iff_right enough).symm
  · rename_i few
    refine iff_of_false ?_ fun h => few h.1
    intro none
    have below : Number.less (.int 0) required = false := Number.less_eq_false_of_atMost none
    rw [pos] at below
    cases below

end SignTrail

namespace PowerIteration

open SignTrail

variable {α : Type} [Scalar α]

/-! ## Iterates -/

/-- The iterates of a function on vectors, normalised and aligned. -/
def iterates (image : List α → List α) (start : List α) : Nat → List α
  | 0 => Vector.scale (Vector.norm start) start
  | k + 1 => aligned (iterates image start k) (image (iterates image start k))

variable {operator : List α → Except Fault (List α)} {image : List α → List α}
  {start : List α} {threshold limit : Number} {n trail m : Nat}

theorem length_iterates (answers : ∀ x, x.length = n → (image x).length = n)
    (length : start.length = n) (k : Nat) : (iterates image start k).length = n := by
  induction k with
  | zero => rw [iterates, Vector.length_scale, length]
  | succ k ih => exact length_aligned ih (answers _ ih)

/-! ## Runs -/

section Run

variable (answers : ∀ x, x.length = n → operator x = .ok (image x) ∧ (image x).length = n)
  (length : start.length = n)

include answers length

/-- The steps end with the first iterate at which the trail has settled. -/
theorem steps_after (trailSize required limit : Number) (fuel calls : Nat) :
    let settles k := (after trailSize required n (iterates image start) k).settled
    steps operator limit fuel calls (after trailSize required n (iterates image start) calls)
        (iterates image start calls) =
      match (List.range' (calls + 1) fuel).find? settles with
      | some k => ⟨k, .ok (iterates image start k)⟩
      | none => ⟨calls + fuel, .error (.notConverged limit)⟩ := by
  intro settles
  have size := length_iterates (fun x hx => (answers x hx).2) length
  induction fuel generalizing calls with
  | zero => rfl
  | succ fuel ih =>
      have advanced : next (iterates image start calls) (image (iterates image start calls)) =
          .ok (iterates image start (calls + 1)) :=
        next_eq (size calls) (answers _ (size calls)).2
      rw [steps, (answers _ (size calls)).1]
      simp only [bind, Except.bind, advanced, observe_after size]
      rw [List.range'_succ, List.find?_cons]
      change (if settles (calls + 1) then _ else _) = _
      cases settled : settles (calls + 1) with
      | true => rfl
      | false =>
          rw [if_neg Bool.false_ne_true, ih, Nat.add_assoc calls 1 fuel, Nat.add_comm 1 fuel]

variable (nonzero : Scalar.isZero (Vector.norm start) = false)
  (hm : limit.toInt? = some (m : Int))

include nonzero hm

theorem run_eq (trailSize threshold : Number) :
    run operator (fresh n trailSize threshold) start limit =
      match (List.range' 1 m).find? fun k =>
        (after trailSize (times threshold n) n (iterates image start) k).settled with
      | some k => ⟨k, .ok (iterates image start k)⟩
      | none => ⟨m, .error (.notConverged limit)⟩ := by
  have whole := steps_after answers length trailSize (times threshold n) limit m 0
  simp only [Nat.zero_add] at whole
  rw [run, fresh_eq_after (iterates image start), hm]
  dsimp only
  rw [if_neg (by rw [nonzero]; exact Bool.false_ne_true), Int.toNat_natCast]
  exact whole

/-- A run returns the first iterate at which enough entries have been on one side throughout the
window before it, after as many calls; if there is none within the limit, it fails after as many
calls as the limit allows.  So it never returns before the first window is complete. -/
theorem run_until_settled (entries : 0 < n) (window : 0 < trail)
    (pos : Number.less (.int 0) threshold = true) :
    let xs := iterates image start
    let settled := SettledAt trail (times threshold n) n xs
    let result := run operator (fresh n (.int trail) threshold) start limit
    (∀ k, IsLeast {k | k ≤ m ∧ settled k} k → result = ⟨k, .ok (xs k)⟩) ∧
    ((∀ k ≤ m, ¬ settled k) → result = ⟨m, .error (.notConverged limit)⟩) ∧
    (∀ x, result.outcome = .ok x → trail ≤ result.calls) ∧
    (m < trail → result = ⟨m, .error (.notConverged limit)⟩) := by
  intro xs settled result
  have settled_iff (k : Nat) :
      (after (.int trail) (times threshold n) n xs k).settled = true ↔ settled k :=
    settled_after_iff (times_pos pos entries)
  have result_eq : result = _ := run_eq answers length nonzero hm (.int trail) threshold
  have raises (never : ∀ k ≤ m, ¬ settled k) : result = ⟨m, .error (.notConverged limit)⟩ := by
    rw [result_eq, List.find?_range'_eq_none.mpr]
    intro k first last
    rw [Bool.not_eq_true', ← Bool.not_eq_true, settled_iff]
    exact never k (by omega)
  refine ⟨?returns, raises, ?waits, fun short => raises fun k hk h => ?_⟩
  case returns =>
    rintro k ⟨⟨within, now⟩, least⟩
    have started : trail ≤ k := now.1
    rw [result_eq, List.find?_range'_eq_some.mpr]
    refine ⟨(settled_iff k).mpr now, List.mem_range'_1.mpr (by omega), fun j first earlier => ?_⟩
    rw [Bool.not_eq_true', ← Bool.not_eq_true, settled_iff]
    exact fun h => (least ⟨earlier.le.trans within, h⟩).not_gt earlier
  case waits =>
    intro x
    rw [result_eq]
    split
    · rename_i k found
      have now := List.find?_some found
      exact fun _ => ((settled_iff k).mp now).1
    · nofun
  · exact (short.trans_le h.1).not_ge hk

end Run

/-- The first entry changes its sign in the first step, so the window of two steps is settled
one step later than it is complete. -/
theorem run_until_settled_turning :
    let image : List ℚ → List ℚ := fun _ => [3, 4]
    let xs := iterates image [-4, 3]
    IsLeast {k | k ≤ 5 ∧ SettledAt 2 (times (.int 1) 2) 2 xs k} 3 ∧
      run (fun x => .ok (image x)) (fresh 2 (.int 2) (.int 1)) [-4, 3] (.int 5) =
        ⟨3, .ok [3 / 5, 4 / 5]⟩ := by
  intro image xs
  have first : IsLeast {k | k ≤ 5 ∧ SettledAt 2 (times (.int 1) 2) 2 xs k} 3 := by
    refine ⟨⟨by decide, by decide +kernel⟩, fun k hk => ?_⟩
    by_contra early
    have none : ∀ k < 3, ¬ SettledAt 2 (times (.int 1) 2) 2 xs k := by decide +kernel
    exact none k (Nat.lt_of_not_ge early) hk.2
  refine ⟨first, ?_⟩
  have answers : ∀ x : List ℚ, x.length = 2 →
      (.ok (image x) : Except Fault (List ℚ)) = .ok (image x) ∧ (image x).length = 2 :=
    fun _ _ => ⟨rfl, rfl⟩
  have nonzero : Scalar.isZero (Vector.norm [(-4 : ℚ), 3]) = false := by decide +kernel
  have limit : Number.toInt? (.int 5) = some ((5 : Nat) : Int) := rfl
  have pos : Number.less (.int 0) (.int 1) = true := by decide
  have returns := (run_until_settled answers rfl nonzero limit (by decide) Nat.two_pos pos).1 3 first
  have last : xs 3 = [3 / 5, 4 / 5] := by decide +kernel
  exact last ▸ returns

end PowerIteration

end GraphClustering
