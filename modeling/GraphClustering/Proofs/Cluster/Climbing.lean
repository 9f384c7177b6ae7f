import Mathlib
import GraphClustering.Proofs.Cluster.Failures
import GraphClustering.Proofs.Cluster.SecureRun
import GraphClustering.Proofs.Cluster.Lineage

/-!
# Climbing to the root or not at all

Over exact weights the overlap of a cluster with an ancestor is the weight inside the
cluster as a share of the weight that its vertices have inside the ancestor
(`overlap_cases`).  A higher ancestor holds more, so there the share is no greater
(`overlap_bounds`).  What is too little for the parent is too little for all ancestors, and
a cluster that leaves its parent goes up to the root.
-/

namespace GraphClustering

open Forest

/-! ## Landing -/

namespace TreeRule

section Landing

variable {α : Type} [Scalar α] {graph v : View α} {minOverlap : α} {f : Forest}
variable {a p : ClusterId} {as : List ClusterId}

/-- A cluster that does not land at the first ancestor goes on because it overlaps too
little. -/
theorem landing_beyond (h : landing graph v minOverlap f (p :: as) = .ok (some a))
    (beyond : a ≠ p) : f.isRoot p = false ∧
      ∃ s, overlap graph v f p = .ok s ∧ Scalar.less s minOverlap = true := by
  rw [landing] at h
  split at h
  · cases h
    exact absurd rfl beyond
  · rename_i inner
    obtain ⟨s, hs, h⟩ := exists_of_bind_eq_ok h
    split at h
    · rename_i low
      exact ⟨Bool.eq_false_iff.mpr inner, s, hs, low⟩
    · cases h
      exact absurd rfl beyond

/-- A cluster lands at a root or where it overlaps enough. -/
theorem enough_of_landing (h : landing graph v minOverlap f as = .ok (some a)) :
    f.isRoot a = true ∨
      ∃ s, overlap graph v f a = .ok s ∧ Scalar.less s minOverlap = false := by
  induction as with
  | nil => cases h
  | cons d as ih =>
      rw [landing] at h
      split at h
      · rename_i top
        cases h
        exact .inl top
      · obtain ⟨s, hs, h⟩ := exists_of_bind_eq_ok h
        split at h
        · exact ih h
        · rename_i enough
          cases h
          exact .inr ⟨s, hs, Bool.eq_false_iff.mpr enough⟩

end Landing

end TreeRule

/-! ## Weights within -/

section Exact

variable {α : Type} [ExactScalar α] {graph u v w x : View α} {minOverlap : α}
variable {f f' : Forest} {a b c p r : ClusterId} {s t : α}

namespace View

/-- The weight that the vertices of a view have inside another one. -/
def weightWithin (v w : View α) : α :=
  (v.rows.toList.map w.weightAt).sum

theorem weightWithin_mono (huw : u.PartOf w) (hwx : w.PartOf x) (nonneg : x.NonnegEntries)
    (v : View α) : v.weightWithin u ≤ v.weightWithin w :=
  List.sum_le_sum fun r _ => weightAt_mono huw hwx nonneg r

theorem weightWithin_nonneg (hw : w.PartOf x) (nonneg : x.NonnegEntries) (v : View α) :
    0 ≤ v.weightWithin w := by
  refine List.sum_nonneg fun y hy => ?_
  obtain ⟨r, -, rfl⟩ := List.mem_map.mp hy
  exact weightAt_nonneg hw.ascending (fun row e he => nonneg row e (hw.store ▸ he)) r

end View

/-- A share of a growing whole does not grow, even if the whole is nothing at first. -/
theorem div_antitone_of_le {own less more : α} (nonneg : 0 ≤ own) (hl : own ≤ less)
    (hm : less ≤ more) : own / more ≤ own / less := by
  rcases (nonneg.trans hl).eq_or_lt with zero | pos
  · have none : own = 0 := le_antisymm (zero ▸ hl) nonneg
    rw [none, zero_div, zero_div]
  · exact div_le_div_of_nonneg_left nonneg pos hm

namespace TreeRule

/-! ## Overlaps -/

/-- The overlap is the share of weight that stays inside, where weights are found. -/
theorem overlap_of_weights (hw : aggregateView graph f a = .ok w) (hv : v.PartOf w)
    (ascending : w.vertexList.Pairwise (· < ·)) {ws : Array α} (hws : w.weights = .ok ws) :
    overlap graph v f a = .ok (v.weightWithin v / v.weightWithin w) := by
  obtain ⟨vs, hvs⟩ := View.exists_weights_of_partOf hv hws
  have total : Vector.pairwiseSum (((w.localIds v.vertexList).filterMap id).filterMap
      fun i => ws[i]?) = v.weightWithin w := by
    rw [Vector.pairwiseSum_eq, List.filterMap_filterMap, View.weights_of_ok hws,
      View.weightWithin, ← hv.filterMap_localIds ascending]
    rfl
  simp only [overlap, hw, bind, Except.bind, hws, total]
  by_cases zero : v.weightWithin w = 0
  · rw [if_pos (isZero_eq_true_iff.mpr zero), zero, div_zero]
  · rw [if_neg fun h => zero (isZero_eq_true_iff.mp h), hvs]
    dsimp only
    rw [Vector.pairwiseSum_eq, View.weights_of_ok hvs, Array.toList_map]
    rfl

/-- The overlap is the share of weight that stays inside, unless there are no workers to
find the weights. -/
theorem overlap_cases (hw : aggregateView graph f a = .ok w) (hv : v.PartOf w)
    (ascending : w.vertexList.Pairwise (· < ·)) :
    overlap graph v f a = .ok (v.weightWithin v / v.weightWithin w) ∨
      ∃ e, overlap graph v f a = .error e ∧ w.Understaffed e := by
  cases hws : w.weights with
  | ok ws => exact .inl (overlap_of_weights hw hv ascending hws)
  | error e =>
      refine .inr ⟨e, ?_, View.failure_of_weights hws⟩
      simp only [overlap, hw, bind, Except.bind, hws]

/-- An overlap does not fall as the ancestor loses vertices. -/
theorem exists_overlap_ge (compressed : graph.Compressed) (nonneg : graph.NonnegEntries)
    (hw : aggregateView graph f a = .ok w) (part : w.PartOf graph)
    (hu : aggregateView graph f' a = .ok u) (less : u.PartOf w) (hv : v.PartOf u)
    (hs : overlap graph v f a = .ok s) : ∃ t, overlap graph v f' a = .ok t ∧ s ≤ t := by
  obtain ⟨w', hw', hs'⟩ := exists_of_bind_eq_ok hs
  obtain ⟨ws, hws, -⟩ := exists_of_bind_eq_ok hs'
  rw [hw] at hw'
  cases hw'
  obtain ⟨us, hus⟩ := View.exists_weights_of_partOf less hws
  have ascending := (part.compressed compressed).vertexList_ascend
  rw [overlap_of_weights hw (hv.trans less) ascending hws] at hs
  cases hs
  have ascending := ((less.trans part).compressed compressed).vertexList_ascend
  refine ⟨_, overlap_of_weights hu hv ascending hus, ?_⟩
  exact div_antitone_of_le (View.weightWithin_nonneg (hv.trans (less.trans part)) nonneg v)
    (View.weightWithin_mono hv (less.trans part) nonneg v)
    (View.weightWithin_mono less part nonneg v)

section Tree

variable (compressed : graph.Compressed) (hf : f.Rooted r)
variable (inside : ∀ id ∈ f.aggregate r, id ∈ graph.vertexList) (hc : f.root c = r)
variable (hv : aggregateView graph f c = .ok v)

include compressed hf inside hc

omit [ExactScalar α] in
/-- In a tree over a graph only the want of workers for the graph can matter. -/
theorem understaffed_of_unweighed {e : Fault} (ha : a ∈ c :: f.ancestors c)
    (h : Unweighed graph f a e) : graph.Understaffed e := by
  obtain ⟨u, hu, few⟩ := h.resolve_left (aggregateView_ne_error compressed hf inside hc ha)
  exact few.of_partOf
    (aggregate_partOf compressed hf inside (hf.root_of_mem_lineage hc ha) hu)

include hv

/-- The overlap with an ancestor in terms of the ancestor's view. -/
theorem exists_overlap_eq (ha : a ∈ f.ancestors c) (hs : overlap graph v f a = .ok s) :
    ∃ w, aggregateView graph f a = .ok w ∧ v.PartOf w ∧ w.PartOf graph ∧
      s = v.weightWithin v / v.weightWithin w := by
  have root := hf.root_of_mem_lineage hc (List.mem_cons_of_mem c ha)
  obtain ⟨w, hw, part⟩ := exists_aggregate_partOf compressed hf inside root
  have below := aggregate_partOf_above compressed hf inside hc ha hv hw
  refine ⟨w, hw, below, part, ?_⟩
  rcases overlap_cases hw below (part.compressed compressed).vertexList_ascend with
    same | ⟨e, fails, -⟩
  · rw [same] at hs
    exact (Except.ok.inj hs).symm
  · rw [fails] at hs
    cases hs

variable (nonneg : graph.NonnegEntries)
include nonneg

/-- Overlaps lie between zero and one, and do not rise from an ancestor to a higher one. -/
theorem overlap_bounds (ha : a ∈ f.ancestors c) (hs : overlap graph v f a = .ok s) :
    0 ≤ s ∧ s ≤ 1 ∧ ∀ b ∈ f.ancestors a, ∀ t, overlap graph v f b = .ok t → t ≤ s := by
  obtain ⟨w, hw, hvw, part, rfl⟩ := exists_overlap_eq compressed hf inside hc hv ha hs
  have own := View.weightWithin_nonneg (hvw.trans part) nonneg v
  have grows := View.weightWithin_mono hvw part nonneg v
  refine ⟨div_nonneg own (own.trans grows), div_le_one_of_le₀ grows (own.trans grows), ?_⟩
  intro b hb t ht
  have hbc := (ancestors_suffix hf.toWellFormed ha).subset (List.mem_cons_of_mem _ hb)
  obtain ⟨x, hx, -, above, rfl⟩ := exists_overlap_eq compressed hf inside hc hv hbc ht
  have root := hf.root_of_mem_lineage hc (List.mem_cons_of_mem c ha)
  exact div_antitone_of_le own grows <| View.weightWithin_mono
    (aggregate_partOf_above compressed hf inside root hb hw hx) above nonneg v

/-- A cluster that leaves its parent lands at the root. -/
theorem eq_root_of_landing (hp : f.parent c = some p) (beyond : a ≠ p)
    (h : landing graph v minOverlap f (f.ancestors c) = .ok (some a)) : a = r := by
  have ha := mem_of_landing h
  rw [ancestors_of_parent hf.toWellFormed hp] at h
  obtain ⟨-, s, hs, low⟩ := landing_beyond h beyond
  rcases enough_of_landing h with top | ⟨t, ht, enough⟩
  · exact (hf.isRoot_iff (hf.root_of_mem_lineage hc (List.mem_cons_of_mem c ha))).mp top
  · -- What is not enough for the parent cannot be enough above it.
    exfalso
    rw [ancestors_of_parent hf.toWellFormed hp] at ha
    have hpc : p ∈ f.ancestors c := by
      rw [ancestors_of_parent hf.toWellFormed hp]
      exact List.mem_cons_self
    obtain ⟨-, -, falls⟩ := overlap_bounds compressed hf inside hc hv nonneg hpc hs
    have le := falls a ((List.mem_cons.mp ha).resolve_left beyond) t ht
    rw [less_eq_true_iff] at low
    rw [less_eq_false_iff] at enough
    exact absurd (enough.trans le) (not_le.mpr low)

/-- A cluster stays where it is or climbs to the root, and it climbs if its overlap with a
parent below the root is too little. -/
theorem climb_outcome {changed : Bool} (h : climb graph minOverlap f c = .ok (f', changed)) :
    f' = (if changed then f.reparent c r else f) ∧
      (changed = true ↔ ∃ p s, f.parent c = some p ∧ p ≠ r ∧
        overlap graph v f p = .ok s ∧ s < minOverlap) := by
  cases changed with
  | false =>
      refine ⟨(climb_sound graph minOverlap r).unchanged h, iff_of_false nofun ?_⟩
      rintro ⟨p, s, hp, ne, hs, low⟩
      have inner : f.isRoot p = false :=
        Bool.eq_false_iff.mpr fun top => ne ((hf.isRoot_parent_iff hc hp).mp top)
      obtain ⟨v', s', hv', hs', enough⟩ := overlap_of_climb hf.toWellFormed h hp inner
      rw [hv] at hv'
      cases hv'
      rw [hs] at hs'
      cases hs'
      exact absurd low (not_lt.mpr (less_eq_false_iff.mp enough))
  | true =>
      rcases climb_cases h with ⟨-, -, hb⟩ | ⟨p, v', o, hp, -, hv', ho,
        ⟨-, -, hb⟩ | ⟨a, rfl, beyond, rfl, -⟩⟩
      · cases hb
      · cases hb
      · rw [hv] at hv'
        cases hv'
        obtain rfl := eq_root_of_landing compressed hf inside hc hv nonneg hp beyond ho
        rw [ancestors_of_parent hf.toWellFormed hp] at ho
        obtain ⟨-, s, hs, low⟩ := landing_beyond ho beyond
        exact ⟨rfl, iff_of_true rfl ⟨p, s, hp, beyond.symm, hs, less_eq_true_iff.mp low⟩⟩

end Tree

/-- In a tree over a graph without negative weights, the overlaps of a cluster with its
ancestors lie between zero and one and do not rise on the way up.  So a cluster climbs to
the root or not at all, and it does climb if its parent is not the root and overlaps too
little.  Only want of workers can keep the weights from being found. -/
theorem climb_to_root (compressed : graph.Compressed) (nonneg : graph.NonnegEntries)
    (hf : f.Rooted r) (inside : ∀ id ∈ f.aggregate r, id ∈ graph.vertexList)
    (hc : f.root c = r) (minOverlap : α) : ∃ v, aggregateView graph f c = .ok v ∧
      (∀ a ∈ f.ancestors c, match overlap graph v f a with
        | .ok s => 0 ≤ s ∧ s ≤ 1 ∧ ∀ b ∈ f.ancestors a, ∀ t, overlap graph v f b = .ok t → t ≤ s
        | .error e => graph.Understaffed e) ∧
      match climb graph minOverlap f c with
      | .ok (f', changed) => f' = (if changed then f.reparent c r else f) ∧
          (changed = true → f'.parent c = some r) ∧
          (changed = true ↔ ∃ p s, f.parent c = some p ∧ p ≠ r ∧
            overlap graph v f p = .ok s ∧ s < minOverlap)
      | .error e => graph.Understaffed e := by
  obtain ⟨v, hv, part⟩ := exists_aggregate_partOf compressed hf inside hc
  refine ⟨v, hv, ?_, ?_⟩
  · intro a ha
    cases hs : overlap graph v f a with
    | ok s => exact overlap_bounds compressed hf inside hc hv nonneg ha hs
    | error e =>
        exact (failure_of_overlap hs).elim
          (understaffed_of_unweighed compressed hf inside hc (List.mem_cons_of_mem c ha))
          (·.of_partOf part)
  · cases hx : climb graph minOverlap f c with
    | error e =>
        obtain ⟨a, ha, fails⟩ := failure_of_climb hx
        exact understaffed_of_unweighed compressed hf inside hc ha fails
    | ok x =>
        obtain ⟨f', changed⟩ := x
        obtain ⟨moved, climbs⟩ := climb_outcome compressed hf inside hc hv nonneg hx
        refine ⟨moved, ?_, climbs⟩
        rintro rfl
        obtain ⟨p, -, hp, -⟩ := climbs.mp rfl
        rw [moved, if_pos rfl, parent_reparent _ _ _ _ (lt_size_of_parent hp), if_pos rfl]

end TreeRule

end Exact

namespace Clustering

/-- A pair across the middle edge, two levels below the root. -/
def acrossPairs : Forest :=
  let f := ((Forest.empty.spawn none).1.spawn (some 0)).1.addToRemainder 1 [10]
  let f := (f.spawn (some 1)).1.addToRemainder 2 [40]
  (f.spawn (some 2)).1.addToRemainder 3 [20, 30]

theorem rooted_acrossPairs : acrossPairs.Rooted 0 := by
  have first := (rooted_single.spawn (p := 0) (by decide)).addToRemainder 1 [10]
  have second := (first.spawn (p := 1) (by decide)).addToRemainder 2 [40]
  exact (second.spawn (p := 2) (by decide)).addToRemainder 3 [20, 30]

/-- Two of the five units of weight stay inside the pair, then two of eight. -/
theorem climb_to_root_acrossPairs : ∃ v f',
    TreeRule.aggregateView pairs acrossPairs 3 = .ok v ∧
    TreeRule.overlap pairs v acrossPairs 2 = .ok (2 / 5) ∧
    TreeRule.overlap pairs v acrossPairs 1 = .ok (1 / 4) ∧
    TreeRule.climb pairs (1 / 2) acrossPairs 3 = .ok (f', true) ∧ f'.parent 3 = some 0 := by
  let _ := exactRat
  have vertices : acrossPairs.aggregate 0 = [10, 40, 20, 30] := by cbv
  obtain ⟨v, hv, -, outcome⟩ := TreeRule.climb_to_root (c := 3) lawful_pairs.mirrored.toCompressed
    posEntries_pairs.nonneg rooted_acrossPairs
    (by rw [vertices, vertexList_pairs]; decide) (by cbv) (1 / 2)
  obtain ⟨u, f', hu, first, second, moved⟩ : ∃ u f',
      TreeRule.aggregateView pairs acrossPairs 3 = .ok u ∧
      TreeRule.overlap pairs u acrossPairs 2 = .ok (2 / 5) ∧
      TreeRule.overlap pairs u acrossPairs 1 = .ok (1 / 4) ∧
      TreeRule.climb pairs (1 / 2) acrossPairs 3 = .ok (f', true) :=
    ⟨_, _, by cbv, by cbv, by cbv, by cbv⟩
  rw [moved] at outcome
  exact ⟨u, f', hu, first, second, moved, outcome.2.1 rfl⟩

end Clustering

end GraphClustering
