import GraphClustering.Cluster.Digest
import GraphClustering.Proofs.Decimal.Lawful

/-!
# The order of a digest

Rows are ordered by weight, then by share, then by vertex.  The first two are compared by strict
weak orders, where scalars are lawful, and one such order after another is one again
(`WeakOrder.thenBy`).  So the order of rows is one as well, and rows of distinct vertices never tie
(`Ranked.before_or_before`): sorting them puts each before all that follow
(`Ranked.pairwise_before_mergeSort`).
-/

namespace GraphClustering

/-! ## Weak orders -/

section WeakOrders

variable {β : Type} {R S : β → β → Prop}

/-- A relation by which nothing comes before itself, and whatever comes before something else
leaves no third thing on a level with both. -/
structure WeakOrder (R : β → β → Prop) : Prop where
  asymm : ∀ a b, R a b → ¬ R b a
  cotrans : ∀ a b c, R a c → R a b ∨ R b c

/-- By one relation first, and where that leaves two on a level, by another one. -/
def ThenBy (R S : β → β → Prop) (a b : β) : Prop :=
  R a b ∨ ¬ R b a ∧ S a b

theorem WeakOrder.thenBy (hR : WeakOrder R) (hS : WeakOrder S) : WeakOrder (ThenBy R S) where
  asymm a b := by
    rintro (first | ⟨level, second⟩)
    · rintro (back | ⟨level, -⟩)
      · exact hR.asymm a b first back
      · exact level first
    · rintro (back | ⟨-, back⟩)
      · exact level back
      · exact hS.asymm a b second back
  cotrans a b c := by
    rintro (first | ⟨level, second⟩)
    · exact (hR.cotrans a b c first).imp .inl .inl
    · by_cases lower : R a b
      · exact .inl (.inl lower)
      by_cases upper : R b c
      · exact .inr (.inl upper)
      -- whichever way `b` were apart from `a` or `c`, they would be apart from each other
      rcases hS.cotrans a b c second with second | second
      · refine .inl (.inr ⟨fun back => ?_, second⟩)
        exact (hR.cotrans b c a back).elim upper level
      · refine .inr (.inr ⟨fun back => ?_, second⟩)
        exact (hR.cotrans c a b back).elim level lower

theorem WeakOrder.comap {γ : Type} (hR : WeakOrder R) (f : γ → β) :
    WeakOrder fun a b => R (f a) (f b) :=
  ⟨fun _ _ => hR.asymm _ _, fun _ _ _ => hR.cotrans _ _ _⟩

theorem WeakOrder.of_linearOrder [LinearOrder β] : WeakOrder fun a b : β => a < b :=
  ⟨fun _ _ => lt_asymm, fun a b _ lt => (lt_or_ge a b).imp_right fun le => le.trans_lt lt⟩

end WeakOrders

namespace Ranked

variable {α : Type} [Scalar α]

/-- Whether a row comes before another one: its weight is above, or neither weight is and its
score is above, or neither score is either and its vertex is smaller. -/
def Before : Ranked α → Ranked α → Prop :=
  ThenBy (fun a b => above a.weight b.weight = true)
    (ThenBy (fun a b => above a.score b.score = true) fun a b => a.vertex < b.vertex)

/-- Rows of distinct vertices are never on a level. -/
theorem before_or_before {a b : Ranked α} (ne : a.vertex ≠ b.vertex) : Before a b ∨ Before b a := by
  by_cases lower : above a.weight b.weight = true
  · exact .inl (.inl lower)
  by_cases upper : above b.weight a.weight = true
  · exact .inr (.inl upper)
  by_cases lower' : above a.score b.score = true
  · exact .inl (.inr ⟨upper, .inl lower'⟩)
  by_cases upper' : above b.score a.score = true
  · exact .inr (.inr ⟨lower, .inl upper'⟩)
  rcases lt_or_gt_of_ne ne with lt | gt
  · exact .inl (.inr ⟨upper, .inr ⟨upper', lt⟩⟩)
  · exact .inr (.inr ⟨lower, .inr ⟨lower', gt⟩⟩)

theorem above_iff {x y : α} : above x y = true ↔
    Scalar.less y x = true ∨ Scalar.isNan y = true ∧ Scalar.isNan x = false := by
  rw [above, Bool.or_eq_true, Bool.and_eq_true, Bool.not_eq_true']

variable [LawfulScalar α]

/-- What is not a number is below all numbers and on a level with its like. -/
theorem weakOrder_above : WeakOrder fun x y : α => above x y = true where
  asymm x y := by
    rw [above_iff, above_iff]
    rintro (less | ⟨nan, number⟩) (less' | ⟨nan', number'⟩)
    · exact Bool.false_ne_true ((LawfulScalar.less_asymm y x less).symm.trans less')
    · exact Bool.false_ne_true ((LawfulScalar.isNan_of_less y x less).2.symm.trans nan')
    · exact Bool.false_ne_true ((LawfulScalar.isNan_of_less x y less').2.symm.trans nan)
    · exact Bool.false_ne_true (number.symm.trans nan')
  cotrans x y z := by
    rw [above_iff, above_iff, above_iff]
    rintro (less | ⟨nan, number⟩)
    · cases hy : Scalar.isNan y with
      | true => exact .inl (.inr ⟨rfl, (LawfulScalar.isNan_of_less z x less).2⟩)
      | false => exact (LawfulScalar.less_cotrans z y x less hy).symm.imp .inl .inl
    · cases hy : Scalar.isNan y with
      | true => exact .inl (.inr ⟨rfl, number⟩)
      | false => exact .inr (.inr ⟨nan, rfl⟩)

theorem weakOrder_before : WeakOrder (Before (α := α)) :=
  (weakOrder_above.comap weight).thenBy
    ((weakOrder_above.comap score).thenBy (WeakOrder.of_linearOrder.comap vertex))

/-- A row is at least another one unless that one comes before it. -/
theorem atLeast_iff (a b : Ranked α) : atLeast a b = true ↔ ¬ Before b a := by
  have weights := weakOrder_above.asymm a.weight b.weight
  have scores := weakOrder_above.asymm a.score b.score
  rw [atLeast, Before, ThenBy, ThenBy]
  by_cases lower : above a.weight b.weight = true
  · simp [lower, weights lower]
  by_cases upper : above b.weight a.weight = true
  · simp [lower, upper]
  by_cases lower' : above a.score b.score = true
  · simp [lower, upper, lower', scores lower']
  by_cases upper' : above b.score a.score = true
  · simp [lower, upper, lower', upper']
  · simp [lower, upper, lower', upper']

/-- Rows of distinct vertices are sorted. -/
theorem pairwise_before_mergeSort {rows : List (Ranked α)} (nodup : (rows.map vertex).Nodup) :
    (rows.mergeSort atLeast).Pairwise Before := by
  have trans : ∀ a b c : Ranked α, atLeast a b = true → atLeast b c = true →
      atLeast a c = true := by
    intro a b c
    simp only [atLeast_iff]
    intro ab bc ca
    exact (weakOrder_before.cotrans c b a ca).elim bc ab
  have total : ∀ a b : Ranked α, (atLeast a b || atLeast b a) = true := by
    intro a b
    rw [Bool.or_eq_true, atLeast_iff, atLeast_iff]
    by_contra both
    rw [not_or, not_not, not_not] at both
    exact weakOrder_before.asymm b a both.1 both.2
  have distinct := ((List.mergeSort_perm rows atLeast).map vertex).nodup_iff.mpr nodup
  refine (List.pairwise_mergeSort trans total rows).imp₂ (fun a b least ne => ?_)
    (List.pairwise_map.mp distinct)
  exact (before_or_before ne).resolve_right ((atLeast_iff a b).mp least)

end Ranked

end GraphClustering
