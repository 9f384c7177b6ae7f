import Mathlib
import GraphClustering.Proofs.Cluster.RelativeWeight
import GraphClustering.Proofs.Graph.Connected

/-!
# Parts that keep their share of weight

A part of the graph is secure if every vertex with weight keeps the share of it that
the guard asks for.  The guard leaves secure parts, and so does the search for
components, since a component holds all neighbours that its vertices have in the
view: no component has to be scored.
-/

namespace GraphClustering.Guard

variable {α : Type} [ExactScalar α] {g : Guard α} {u v : View α} {s : Guarded α}

/-- Every vertex with weight keeps the share of it that the guard asks for. -/
structure Ample (g : Guard α) (u : View α) : Prop where
  part : u.PartOf g.graph
  ample : ∀ r ∈ u.rows.toList, 0 < g.graph.weightAt r →
    g.minLikelihood * g.graph.weightAt r ≤ u.weightAt r

/-- An ample part in which every vertex has weight, if there are several and the guard
asks for any. -/
structure Secure (g : Guard α) (u : View α) : Prop extends g.Ample u where
  weighty : 2 ≤ u.order → 0 < g.minLikelihood → ∀ r ∈ u.rows.toList, 0 < g.graph.weightAt r

theorem ample_graph (lawful : g.graph.Lawful) (pos : g.graph.PosEntries)
    (share : g.minLikelihood ≤ 1) : g.Ample g.graph where
  part := .refl lawful.ascending
  ample r _ _ := mul_le_of_le_one_left
    (View.weightAt_nonneg lawful.ascending pos.nonneg r) share

/-- A component of an ample part is secure: its vertices lose none of their neighbours. -/
theorem Ample.secure_of_mem_components (lawful : g.graph.Lawful) (pos : g.graph.PosEntries)
    (hv : g.Ample v) (hu : u ∈ v.components) : g.Secure u := by
  have hv' := hv.part.lawful lawful
  have inside := View.partOf_of_mem_components hu
  have part := inside.trans hv.part
  refine ⟨⟨part, ?_⟩, ?_⟩
  · intro r hr weight
    rw [View.weightAt_eq_of_closed inside hv'.ascending]
    · exact hv.ample r (inside.subset hr) weight
    · rintro ⟨c, x⟩ entry hc
      exact View.closed_of_mem_components hv'.mirrored hu hr entry hc
  · intro several _ r hr
    obtain ⟨c, hc, x, entry⟩ := View.exists_entry_of_mem_components hv'.mirrored hu several hr
    rw [hv.part.store] at entry
    exact View.weightAt_pos lawful.ascending pos entry (part.subset hc)

/-- The weights that are found in an ample part and in the graph are in that relation. -/
theorem Ample.le_of_weights (lawful : g.graph.Lawful) (hu : g.Ample u) {ws us : Array α}
    (hws : g.graph.weights = .ok ws) (hus : u.weights = .ok us) {id : Int} {i j : Nat} {w x : α}
    (hi : g.graph.vertices[i]? = some id) (hj : u.vertices[j]? = some id) (hw : ws[i]? = some w)
    (hx : us[j]? = some x) (weight : 0 < w) : g.minLikelihood * w ≤ x := by
  obtain ⟨r, hr, hr'⟩ := View.PartOf.exists_row lawful.nodup_vertexList (.refl lawful.ascending)
    hu.part hi hj
  rw [View.weights_of_ok hws, Array.getElem?_map, hr, Option.map_some, Option.some_inj] at hw
  rw [View.weights_of_ok hus, Array.getElem?_map, hr', Option.map_some, Option.some_inj] at hx
  subst hw hx
  exact hu.ample r (View.mem_rows_iff.mpr ⟨j, hr'⟩) weight

/-! ## Scores and shares -/

section Scores

variable (hm : g.metric = Metric.relativeWeight) (lawful : g.graph.Lawful)
include hm lawful

/-- In a consistent part every share of weight is large enough. -/
theorem Consistent.le_share (hu : u.PartOf g.graph) (h : g.Consistent u) {r : Nat}
    (hr : r ∈ u.rows.toList) :
    g.minLikelihood ≤ View.share (u.weightAt r) (g.graph.weightAt r) := by
  obtain ⟨scores, hscores, high⟩ := h
  rw [hm] at hscores
  rcases Metric.relativeWeight_cases hu lawful.vertexList_ascend with shares | ⟨e, fault, -⟩
  · rw [shares] at hscores
    cases hscores
    obtain ⟨i, hi⟩ := View.mem_rows_iff.mp hr
    have enough := high i (Array.getElem?_eq_some_iff.mp hi).1
    rw [scoresLow, Array.getElem?_map, hi] at enough
    exact less_eq_false_iff.mp enough
  · rw [fault] at hscores
    cases hscores

theorem Consistent.secure (hu : u.PartOf g.graph) (h : g.Consistent u) : g.Secure u := by
  have shares := fun r hr => h.le_share hm lawful hu (r := r) hr
  refine ⟨⟨hu, fun r hr weight => ?_⟩, fun _ asked r hr => ?_⟩
  · have share := shares r hr
    rw [View.share, if_pos (less_eq_true_iff.mpr weight), le_div_iff₀ weight] at share
    exact share
  · by_contra weightless
    have share := shares r hr
    rw [View.share, if_neg (by rwa [less_eq_true_iff])] at share
    exact absurd asked (not_lt.mpr share)

/-- The guard leaves a secure part. -/
theorem secure_of_ensure (hv : v.PartOf g.graph) (h : g.ensure v = .ok s)
    (hu : s.kept = some u) : g.Secure u := by
  have part := partOf_of_shrink hv.ascending h hu
  refine Consistent.secure hm lawful (part.trans hv) ?_
  exact (ensure_fits (hv.nodup_vertexList lawful.nodup_vertexList) h).consistent u hu

/-- A secure part of several vertices is consistent if its weights can be found. -/
theorem Secure.consistent_or (h : g.Secure u) (several : 2 ≤ u.order) :
    g.Consistent u ∨ ∃ e, g.metric g.graph u = .error e ∧ g.graph.Understaffed e := by
  rw [hm]
  refine (Metric.relativeWeight_cases h.part lawful.vertexList_ascend).imp_left fun shares => ?_
  refine ⟨_, hm ▸ shares, fun i hi => ?_⟩
  have row : u.rows[i]? = some u.rows[i] := Array.getElem?_eq_getElem hi
  rw [scoresLow, Array.getElem?_map, row]
  have hr : u.rows[i] ∈ u.rows.toList := View.mem_rows_iff.mpr ⟨i, row⟩
  refine less_eq_false_iff.mpr ?_
  change g.minLikelihood ≤ View.share (u.weightAt u.rows[i]) (g.graph.weightAt u.rows[i])
  rw [View.share]
  split
  · rename_i weight
    rw [less_eq_true_iff] at weight
    exact (le_div_iff₀ weight).mpr (h.ample _ hr weight)
  · rename_i weightless
    by_contra asked
    exact weightless (less_eq_true_iff.mpr (h.weighty several (not_le.mp asked) _ hr))

end Scores

end GraphClustering.Guard
