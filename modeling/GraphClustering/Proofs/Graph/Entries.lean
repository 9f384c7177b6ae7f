import Mathlib
import GraphClustering.Graph.Store
import GraphClustering.Proofs.Exact

/-!
# Normal lists of entries

The normal form of a list of entries is strictly ordered by place, and it holds an
entry just where the weights given for the place have a sum that is not zero: this
sum (`mem_normalize`).  With both directions of every edge, the sums are symmetric.
-/

namespace GraphClustering.Entry

variable {α : Type} {a b e : Entry α} {es : List (Entry α)} {r c n : Nat}

/-- The strict order of places: by row, then by column. -/
def Precedes (a b : Entry α) : Prop :=
  a.row < b.row ∨ a.row = b.row ∧ a.col < b.col

theorem before_iff : before a b = true ↔ a.row < b.row ∨ a.row = b.row ∧ a.col ≤ b.col := by
  simp [before]

theorem samePlace_iff : samePlace a b = true ↔ a.row = b.row ∧ a.col = b.col := by
  simp [samePlace]

theorem precedes_of_before (h : before a b = true) (hne : samePlace a b = false) :
    Precedes a b := by
  rw [before_iff] at h
  rw [← Bool.not_eq_true, samePlace_iff] at hne
  rw [Precedes]
  omega

theorem Precedes.trans_before (h : Precedes a b) (h' : before b e = true) : Precedes a e := by
  rw [before_iff] at h'
  rw [Precedes] at h ⊢
  omega

theorem sorted_mergeSort (es : List (Entry α)) :
    (es.mergeSort before).Pairwise fun a b => before a b = true := by
  refine List.pairwise_mergeSort ?_ ?_ es
  · intro a b c
    simp only [before_iff]
    omega
  · intro a b
    simp only [Bool.or_eq_true, before_iff]
    omega

/-- What holds of the entries and their mirror images holds of both directions. -/
theorem forall_mem_symmetric {P : Entry α → Prop} (h : ∀ e ∈ es, P e ∧ P e.reversed) :
    ∀ e ∈ symmetric es, P e := by
  intro e he
  rcases List.mem_append.mp he with he | he
  · exact (h e he).1
  · obtain ⟨e', he', rfl⟩ := List.mem_map.mp he
    exact (h e' (List.mem_filter.mp he').1).2

/-! ## Order -/

section Order

variable [Scalar α]

theorem exists_of_mem_mergeRuns (he : e ∈ mergeRuns es) :
    ∃ e' ∈ es, e'.row = e.row ∧ e'.col = e.col := by
  fun_induction mergeRuns es with
  | case1 => cases he
  | case2 a => exact ⟨e, he, rfl, rfl⟩
  | case3 a b rest same ih =>
      obtain ⟨e', he', place⟩ := ih he
      rcases List.mem_cons.mp he' with rfl | he'
      · exact ⟨a, List.mem_cons_self, place⟩
      · exact ⟨e', List.mem_cons_of_mem _ (List.mem_cons_of_mem _ he'), place⟩
  | case4 a b rest other ih =>
      rcases List.mem_cons.mp he with rfl | he
      · exact ⟨e, List.mem_cons_self, rfl, rfl⟩
      · obtain ⟨e', he', place⟩ := ih he
        exact ⟨e', List.mem_cons_of_mem _ he', place⟩

/-- Merging the runs of a sorted list leaves one entry for each place. -/
theorem strict_mergeRuns (h : es.Pairwise fun a b => before a b = true) :
    (mergeRuns es).Pairwise Precedes := by
  fun_induction mergeRuns es with
  | case1 => exact List.Pairwise.nil
  | case2 a => exact List.pairwise_singleton _ a
  | case3 a b rest same ih =>
      obtain ⟨first, rest'⟩ := List.pairwise_cons.mp h
      refine ih (List.pairwise_cons.mpr ⟨fun e he => ?_, (List.pairwise_cons.mp rest').2⟩)
      exact first e (List.mem_cons_of_mem _ he)
  | case4 a b rest other ih =>
      obtain ⟨first, rest'⟩ := List.pairwise_cons.mp h
      refine List.pairwise_cons.mpr ⟨fun e he => ?_, ih rest'⟩
      have step := precedes_of_before (first b List.mem_cons_self) (by simpa using other)
      obtain ⟨e', he', row, col⟩ := exists_of_mem_mergeRuns he
      have later : Precedes a e' := by
        rcases List.mem_cons.mp he' with rfl | he'
        · exact step
        · exact step.trans_before ((List.pairwise_cons.mp rest').1 e' he')
      rwa [Precedes, row, col] at later

theorem strict_normalize (es : List (Entry α)) : (normalize es).Pairwise Precedes :=
  (strict_mergeRuns (sorted_mergeSort es)).filter _

/-- A place in the normal form is one of those given. -/
theorem exists_of_mem_normalize (he : e ∈ normalize es) :
    ∃ e' ∈ es, e'.row = e.row ∧ e'.col = e.col := by
  obtain ⟨e', he', place⟩ := exists_of_mem_mergeRuns (List.mem_filter.mp he).1
  exact ⟨e', List.mem_mergeSort.mp he', place⟩

theorem row_lt_of_mem_normalize (h : ∀ e ∈ es, e.row < n) (he : e ∈ normalize es) :
    e.row < n := by
  obtain ⟨e', he', row, -⟩ := exists_of_mem_normalize he
  exact row ▸ h e' he'

end Order

/-! ## Presence -/

section Presence

variable [Scalar α]

/-- Whether a weight other than zero is given for a place. -/
def Present (es : List (Entry α)) (r c : Nat) : Prop :=
  ∃ e ∈ es, e.row = r ∧ e.col = c ∧ Scalar.isZero e.weight = false

theorem present_cons : Present (e :: es) r c ↔
    (e.row = r ∧ e.col = c ∧ Scalar.isZero e.weight = false) ∨ Present es r c :=
  List.exists_mem_cons_iff ..

theorem present_iff_of_mem_iff {es' : List (Entry α)} (h : ∀ e, e ∈ es ↔ e ∈ es') :
    Present es r c ↔ Present es' r c :=
  exists_congr fun e => and_congr_left fun _ => h e

/-- Both directions of the entries are given. -/
theorem Present.symm (h : Present (symmetric es) r c) : Present (symmetric es) c r := by
  obtain ⟨e, he, rfl, rfl, nonzero⟩ := h
  by_cases loop : e.row = e.col
  · exact ⟨e, he, loop, loop.symm, nonzero⟩
  · refine ⟨e.reversed, ?_, rfl, rfl, nonzero⟩
    rcases List.mem_append.mp he with he | he
    · exact List.mem_append_right _ (List.mem_map.mpr
        ⟨e, List.mem_filter.mpr ⟨he, by simpa using loop⟩, rfl⟩)
    · obtain ⟨e', he', rfl⟩ := List.mem_map.mp he
      exact List.mem_append_left _ (List.mem_filter.mp he').1

variable [VanishingSums α]

/-- Merging entries that are not negative leaves an entry where there was one. -/
theorem present_mergeRuns (nonneg : ∀ e ∈ es, Scalar.less e.weight 0 = false) :
    Present (mergeRuns es) r c ↔ Present es r c := by
  fun_induction mergeRuns es with
  | case1 => rfl
  | case2 a => rfl
  | case3 a b rest same ih =>
      obtain ⟨row, col⟩ := samePlace_iff.mp same
      have ha := nonneg a List.mem_cons_self
      have hb := nonneg b (List.mem_cons_of_mem _ List.mem_cons_self)
      rw [ih (List.forall_mem_cons.mpr ⟨VanishingSums.less_add _ _ ha hb, fun e he =>
        nonneg e (List.mem_cons_of_mem _ (List.mem_cons_of_mem _ he))⟩)]
      simp only [present_cons, ← row, ← col, VanishingSums.isZero_add _ _ ha hb,
        Bool.and_eq_false_iff]
      tauto
  | case4 a b rest other ih =>
      rw [present_cons, ih fun e he => nonneg e (List.mem_cons_of_mem _ he), ← present_cons]

theorem present_normalize (nonneg : ∀ e ∈ es, Scalar.less e.weight 0 = false) :
    (∃ x, ⟨r, c, x⟩ ∈ normalize es) ↔ Present es r c := by
  have same : Present (mergeRuns (es.mergeSort before)) r c ↔ Present es r c := by
    rw [present_mergeRuns fun e he => nonneg e (List.mem_mergeSort.mp he)]
    exact present_iff_of_mem_iff fun e => List.mem_mergeSort
  rw [← same]
  simp only [normalize, List.mem_filter, Bool.not_eq_true']
  constructor
  · rintro ⟨x, entry, nonzero⟩
    exact ⟨_, entry, rfl, rfl, nonzero⟩
  · rintro ⟨⟨_, _, x⟩, entry, rfl, rfl, nonzero⟩
    exact ⟨x, entry, nonzero⟩

/-- With both directions of every edge, a place has an entry if its mirror image has one. -/
theorem exists_mem_normalize_symmetric {x : α}
    (nonneg : ∀ e ∈ symmetric es, Scalar.less e.weight 0 = false)
    (h : ⟨r, c, x⟩ ∈ normalize (symmetric es)) : ∃ y, ⟨c, r, y⟩ ∈ normalize (symmetric es) :=
  (present_normalize nonneg).mpr ((present_normalize nonneg).mp ⟨x, h⟩).symm

end Presence

variable [ExactScalar α]

/-! ## Sums -/

/-- The sum of the weights given for a place. -/
def sumAt (es : List (Entry α)) (r c : Nat) : α :=
  ((es.filter fun e => e.row = r ∧ e.col = c).map weight).sum

theorem sumAt_cons (e : Entry α) (es : List (Entry α)) (r c : Nat) :
    sumAt (e :: es) r c = (if e.row = r ∧ e.col = c then e.weight else 0) + sumAt es r c := by
  rw [sumAt, sumAt, List.filter_cons]
  split <;> simp_all

theorem sumAt_append (es es' : List (Entry α)) (r c : Nat) :
    sumAt (es ++ es') r c = sumAt es r c + sumAt es' r c := by
  rw [sumAt, List.filter_append, List.map_append, List.sum_append, sumAt, sumAt]

theorem sumAt_perm {es' : List (Entry α)} (h : es.Perm es') (r c : Nat) :
    sumAt es r c = sumAt es' r c :=
  ((h.filter _).map _).sum_eq

theorem sumAt_eq_zero (h : ∀ e ∈ es, ¬ (e.row = r ∧ e.col = c)) : sumAt es r c = 0 := by
  rw [sumAt, List.filter_eq_nil_iff.mpr fun e he => by simpa using h e he]
  rfl

theorem sumAt_nonneg (h : ∀ e ∈ es, 0 ≤ e.weight) (r c : Nat) : 0 ≤ sumAt es r c := by
  refine List.sum_nonneg fun x hx => ?_
  obtain ⟨e, he, rfl⟩ := List.mem_map.mp hx
  exact h e (List.mem_filter.mp he).1

/-- A place with a sum other than zero has an entry. -/
theorem exists_of_sumAt_ne_zero (h : sumAt es r c ≠ 0) : ∃ e ∈ es, e.row = r ∧ e.col = c := by
  by_contra none
  exact h (sumAt_eq_zero fun e he place => none ⟨e, he, place⟩)

theorem sumAt_of_mem (strict : es.Pairwise Precedes) (he : e ∈ es) :
    sumAt es e.row e.col = e.weight := by
  have apart : ∀ {a b : Entry α}, Precedes a b → ¬ (a.row = b.row ∧ a.col = b.col) := by
    intro a b h
    rw [Precedes] at h
    omega
  induction es with
  | nil => cases he
  | cons a es ih =>
      obtain ⟨first, rest⟩ := List.pairwise_cons.mp strict
      rw [sumAt_cons]
      rcases List.mem_cons.mp he with rfl | he
      · rw [if_pos ⟨rfl, rfl⟩, sumAt_eq_zero, add_zero]
        exact fun b hb place => apart (first b hb) ⟨place.1.symm, place.2.symm⟩
      · rw [if_neg (apart (first e he)), zero_add, ih rest he]

theorem sumAt_mergeRuns (es : List (Entry α)) (r c : Nat) :
    sumAt (mergeRuns es) r c = sumAt es r c := by
  fun_induction mergeRuns es with
  | case1 => rfl
  | case2 a => rfl
  | case3 a b rest same ih =>
      obtain ⟨row, col⟩ := samePlace_iff.mp same
      rw [ih, sumAt_cons, sumAt_cons, sumAt_cons, ← row, ← col]
      split
      · exact add_assoc _ _ _
      · rw [zero_add, zero_add]
  | case4 a b rest other ih => rw [sumAt_cons, ih, sumAt_cons a]

/-! ## Normal form -/

/-- The normal form holds the sums that are not zero. -/
theorem mem_normalize : e ∈ normalize es ↔ e.weight = sumAt es e.row e.col ∧ e.weight ≠ 0 := by
  have sums : ∀ r c, sumAt (mergeRuns (es.mergeSort before)) r c = sumAt es r c := fun r c => by
    rw [sumAt_mergeRuns, sumAt_perm (List.mergeSort_perm es before)]
  have strict := strict_mergeRuns (sorted_mergeSort es)
  have nonzero : (!Scalar.isZero e.weight) = true ↔ e.weight ≠ 0 := by
    rw [Bool.not_eq_true', ← Bool.not_eq_true]
    exact not_congr decide_eq_true_iff
  rw [normalize, List.mem_filter, nonzero]
  refine and_congr_left fun hne => ⟨fun he => ?_, fun weight => ?_⟩
  · rw [← sums, sumAt_of_mem strict he]
  · rw [weight, ← sums] at hne
    obtain ⟨e', he', row, col⟩ := exists_of_sumAt_ne_zero hne
    have weight' := sumAt_of_mem strict he'
    rw [sums, row, col, ← weight] at weight'
    obtain ⟨r, c, w⟩ := e
    obtain ⟨r', c', w'⟩ := e'
    cases row
    cases col
    cases weight'
    exact he'

theorem weight_pos_of_mem_normalize (h : ∀ e ∈ es, 0 ≤ e.weight) (he : e ∈ normalize es) :
    0 < e.weight := by
  obtain ⟨sum, hne⟩ := mem_normalize.mp he
  exact lt_of_le_of_ne (sum ▸ sumAt_nonneg h e.row e.col) (Ne.symm hne)

/-! ## Both directions -/

theorem sumAt_symmetric (es : List (Entry α)) (r c : Nat) :
    sumAt (symmetric es) r c = sumAt es r c + if r = c then 0 else sumAt es c r := by
  have mirrored : sumAt ((es.filter fun e => e.row != e.col).map reversed) r c =
      if r = c then 0 else sumAt es c r := by
    induction es with
    | nil => simp [sumAt]
    | cons e es ih =>
        by_cases loop : e.row = e.col
        · rw [List.filter_cons_of_neg (by simpa using loop), ih, sumAt_cons]
          split_ifs with same place
          · rfl
          · exact absurd (place.2.symm.trans (loop.symm.trans place.1)) same
          · rw [zero_add]
        · rw [List.filter_cons_of_pos (by simpa using loop), List.map_cons, sumAt_cons, ih,
            sumAt_cons]
          simp only [reversed, and_comm (a := e.col = r)]
          split_ifs with place same same
          · exact absurd (place.1.trans (same.symm.trans place.2.symm)) loop
          · rfl
          · exact add_zero _
          · rfl
  rw [symmetric, sumAt_append, mirrored]

theorem sumAt_symmetric_comm (es : List (Entry α)) (r c : Nat) :
    sumAt (symmetric es) r c = sumAt (symmetric es) c r := by
  rw [sumAt_symmetric, sumAt_symmetric]
  by_cases h : r = c
  · rw [h]
  · rw [if_neg h, if_neg (Ne.symm h), add_comm]

theorem mem_normalize_symmetric {x : α} (h : ⟨r, c, x⟩ ∈ normalize (symmetric es)) :
    ⟨c, r, x⟩ ∈ normalize (symmetric es) := by
  rw [mem_normalize] at h ⊢
  rwa [sumAt_symmetric_comm] at h

end GraphClustering.Entry
