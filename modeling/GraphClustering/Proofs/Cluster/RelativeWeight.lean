import Mathlib
import GraphClustering.Proofs.Cluster.GreatestPart
import GraphClustering.Proofs.Cluster.QueuePhase
import GraphClustering.Proofs.Graph.Weights

/-!
# The share of weight inside a part

Over exact weights the relative weight of a vertex in a part of a graph is its
weight there as a share of its weight in the graph (`relativeWeight_cases`).  Where no
weight is negative it does not rise when the part shrinks, so the guard leaves the
greatest part in which no vertex scores too low.
-/

namespace GraphClustering

open Relation

namespace View

variable {α : Type} {u graph : View α}

theorem localIds_vertexList (graph u : View α) : graph.localIds u.vertexList =
    u.rows.toList.map fun r => Search.position? graph.vertices (u.store.labels.getD r 0) := by
  rw [localIds, vertexList_eq_map, List.map_map]
  rfl

/-- All vertices of a part of a view are found in it. -/
theorem PartOf.any_isNone_localIds (hu : u.PartOf graph)
    (ascending : graph.vertexList.Pairwise (· < ·)) :
    (graph.localIds u.vertexList).any Option.isNone = false := by
  rw [localIds_vertexList, List.any_map, List.any_eq_false]
  intro r hr
  obtain ⟨i, hi, -⟩ := hu.exists_position? ascending hr
  simp only [Function.comp_apply, hi, Option.isNone_some]
  exact Bool.false_ne_true

/-- What is known for each row of a view is found for the rows of a part. -/
theorem PartOf.filterMap_localIds {β : Type} (hu : u.PartOf graph)
    (ascending : graph.vertexList.Pairwise (· < ·)) (f : Nat → β) :
    ((graph.localIds u.vertexList).filterMap fun p => p.bind fun i => (graph.rows.map f)[i]?) =
      u.rows.toList.map f := by
  rw [localIds_vertexList, List.filterMap_map, ← List.filterMap_eq_map]
  refine List.filterMap_congr fun r hr => ?_
  obtain ⟨i, hi, row⟩ := hu.exists_position? ascending hr
  rw [Function.comp_apply, hi, Option.bind_some, Array.getElem?_map, row]
  rfl

/-- Where the weights are found as functions of the rows, the relative weights are their shares. -/
theorem PartOf.relativeWeights_of_weights [Scalar α] (hu : u.PartOf graph)
    (ascending : graph.vertexList.Pairwise (· < ·)) {f g : Nat → α}
    (own : u.weights = .ok (u.rows.map f)) (total : graph.weights = .ok (graph.rows.map g)) :
    u.relativeWeights graph = .ok (u.rows.map fun r => share (f r) (g r)) := by
  rw [relativeWeights]
  simp only [hu.any_isNone_localIds ascending, Bool.false_eq_true, if_false, own, total, bind,
    Except.bind, hu.filterMap_localIds ascending]
  congr 1
  apply Array.ext_getElem?
  intro i
  simp only [Array.getElem?_zipWith, Array.getElem?_map, List.getElem?_toArray,
    List.getElem?_map, Array.getElem?_toList]
  cases u.rows[i]? <;> rfl

end View

/-- The relative weights in a part fail only for want of workers. -/
theorem Metric.failure_of_relativeWeight {α : Type} [Scalar α] {graph u : View α} {e : Fault}
    (hu : u.PartOf graph) (ascending : graph.vertexList.Pairwise (· < ·))
    (h : relativeWeight graph u = .error e) : graph.Understaffed e := by
  rw [relativeWeight] at h
  split at h
  · cases h
  · rw [View.relativeWeights, hu.any_isNone_localIds ascending, if_neg Bool.false_ne_true] at h
    rcases cases_of_bind_eq_error h with h | ⟨own, -, h⟩
    · exact (View.failure_of_weights h).of_partOf hu
    · rcases cases_of_bind_eq_error h with h | ⟨total, -, h⟩
      · exact View.failure_of_weights h
      · cases h

/-- A guard that scores by weight in a graph whose labels, rows and columns ascend. -/
structure Guard.ByWeight {α : Type} [Scalar α] (g : Guard α) : Prop where
  metric : g.metric = .relativeWeight
  compressed : g.graph.Compressed

theorem Guard.ByWeight.failure_of_metric {α : Type} [Scalar α] {g : Guard α} {u : View α}
    {e : Fault} (w : g.ByWeight) (hu : u.PartOf g.graph) (h : g.metric g.graph u = .error e) :
    g.graph.Understaffed e := by
  rw [w.metric] at h
  exact Metric.failure_of_relativeWeight hu w.compressed.vertexList_ascend h

section Exact

variable {α : Type} [ExactScalar α] {graph u v w : View α} {a b : α}

namespace View

theorem share_le_share (h : a ≤ b) (t : α) : share a t ≤ share b t := by
  rw [share, share]
  split
  · rename_i pos
    exact div_le_div_of_nonneg_right h (less_eq_true_iff.mp pos).le
  · exact le_rfl

/-- Where both weights are found, the relative weights are the shares of the rows. -/
theorem relativeWeights_eq (hu : u.PartOf graph) (ascending : graph.vertexList.Pairwise (· < ·)) :
    u.relativeWeights graph = (do
      let _ ← u.weights
      let _ ← graph.weights
      .ok (u.rows.map fun r => share (u.weightAt r) (graph.weightAt r))) := by
  cases hus : u.weights with
  | error e =>
      rw [relativeWeights, hu.any_isNone_localIds ascending, if_neg Bool.false_ne_true, hus]
      rfl
  | ok us =>
      cases hws : graph.weights with
      | error e =>
          rw [relativeWeights, hu.any_isNone_localIds ascending, if_neg Bool.false_ne_true, hus,
            hws]
          rfl
      | ok ws =>
          rw [weights_of_ok hus] at hus
          rw [weights_of_ok hws] at hws
          exact hu.relativeWeights_of_weights ascending hus hws

end View

namespace Metric

/-- The scores of a part are the shares of weight that stay inside, unless there are
no workers to find the weights. -/
theorem relativeWeight_cases (hu : u.PartOf graph)
    (ascending : graph.vertexList.Pairwise (· < ·)) :
    relativeWeight graph u =
        .ok (u.rows.map fun r => View.share (u.weightAt r) (graph.weightAt r)) ∨
      ∃ e, relativeWeight graph u = .error e ∧ graph.Understaffed e := by
  rw [relativeWeight]
  split
  · rename_i empty
    rw [Array.eq_empty_of_size_eq_zero empty, Array.map_empty]
    exact .inl rfl
  · rw [View.relativeWeights_eq hu ascending]
    cases hus : u.weights with
    | error e => exact .inr ⟨e, rfl, (View.failure_of_weights hus).of_partOf hu⟩
    | ok us =>
        cases hws : graph.weights with
        | error e => exact .inr ⟨e, rfl, View.failure_of_weights hws⟩
        | ok ws => exact .inl rfl

/-- Shares of weights do not rise when the part shrinks. -/
theorem relativeWeight_monotoneOn (ascending : graph.vertexList.Pairwise (· < ·))
    (nonneg : graph.NonnegEntries) (staffed : graph.Staffed) (hv : v.PartOf graph) :
    relativeWeight.MonotoneOn graph v := by
  have scores : ∀ u, u.PartOf graph → relativeWeight graph u =
      .ok (u.rows.map fun r => View.share (u.weightAt r) (graph.weightAt r)) := fun u hu =>
    (relativeWeight_cases hu ascending).resolve_right fun ⟨_, _, few⟩ => few.2 staffed
  refine ⟨fun u hu => ⟨_, scores u (hu.trans hv), Array.size_map⟩, ?_⟩
  intro u w huw hwv s s' hs hs' id i j x x' hi hj hx hx' t below
  have hw := hwv.trans hv
  have hu := huw.trans hw
  rw [scores u hu] at hs
  rw [scores w hw] at hs'
  cases hs
  cases hs'
  obtain ⟨r, hr, hr'⟩ := View.PartOf.exists_row (ascending.imp fun h => ne_of_lt h) hu hw hi hj
  rw [Array.getElem?_map, hr, Option.map_some, Option.some_inj] at hx
  rw [Array.getElem?_map, hr', Option.map_some, Option.some_inj] at hx'
  subst hx hx'
  rw [less_eq_true_iff] at below ⊢
  refine lt_of_le_of_lt (View.share_le_share ?_ _) below
  exact View.weightAt_mono huw hw nonneg r

end Metric

end Exact

/-- Shares of exact weights, none of them negative, are a metric by which no vertex
scores higher in a smaller part.  Under any such metric let the core of a view be the
vertices of all its parts in which no vertex scores too low.  The guard returns the
part on the core if that is large enough and nothing otherwise; and whichever failing
vertices are dropped, again and again, until none fails, the part on the core is left. -/
theorem Guard.ensure_greatest :
    (∀ {β : Type} [ExactScalar β] (graph v : View β), graph.vertexList.Pairwise (· < ·) →
      graph.NonnegEntries → graph.Staffed → v.PartOf graph →
        Metric.relativeWeight.MonotoneOn graph v) ∧
    ∀ {α : Type} [Scalar α] {g : Guard α} {v : View α}, Number.atMost (.int 1) g.minSize = true →
      v.rows.toList.Pairwise (· < ·) → v.vertexList.Nodup → g.metric.MonotoneOn g.graph v →
      ∃ u dropped, u.PartOf v ∧ (∀ id, id ∈ u.vertexList ↔ id ∈ g.core v) ∧
        g.ensure v = .ok ⟨if g.minSize.atMost (.int (g.core v).ncard) then some u else none,
          dropped⟩ ∧
        WellFounded (fun w w' => g.Drops w' w) ∧ ∀ w, ReflTransGen g.Drops v w →
          (g.Consistent w ↔ w = u) ∧ ((∃ w', g.Drops w w') ↔ w ≠ u) := by
  refine ⟨fun graph v => Metric.relativeWeight_monotoneOn, ?_⟩
  intro α _ g v hm ascending hv mono
  have answers : ∀ u, u.PartOf v → ∃ scores, g.metric g.graph u = .ok scores := fun u hu =>
    (mono.answers u hu).imp fun _ h => h.1
  obtain ⟨u, reach, consistent⟩ := exists_consistent_of_answers hv ascending answers
  have part := (partOf_of_reaches mono hv ascending reach).1
  have core : ∀ id, id ∈ u.vertexList ↔ id ∈ g.core v := fun id =>
    mem_core_iff_of_reaches mono hv ascending reach consistent
  have unique : ∀ w, ReflTransGen g.Drops v w → (g.Consistent w ↔ w = u) := fun w hw =>
    ⟨fun h => eq_of_reaches mono hv ascending hw reach h consistent, fun h => h ▸ consistent⟩
  have size := ncard_core (part.nodup_vertexList hv) core
  obtain ⟨s, hs, outcome⟩ := shrink_reaches [] hv ascending answers
    (Nat.lt_succ_self v.order)
  refine ⟨u, s.dropped, part, core, hs.trans ?_, wellFounded_drops g, fun w hw =>
    ⟨unique w hw, ?_⟩⟩
  · rw [size, Number.atMost_eq_not_less (Number.isNan_eq_false_of_atMost hm)]
    rcases outcome with ⟨w, kept, hw, fits, large⟩ | ⟨kept, w, hw, small⟩
    · obtain rfl := (unique w hw).mp fits
      rw [large, Bool.not_false, if_pos rfl, ← kept]
    · have le := ((partOf_of_reaches mono hv ascending hw).2 u part consistent).order_le
      rw [Number.less_of_le_of_less (Int.ofNat_le.mpr le) small, Bool.not_true,
        if_neg Bool.false_ne_true, ← kept]
  · constructor
    · rintro ⟨w', drops⟩ rfl
      exact consistent.not_drops (part.nodup_vertexList hv) drops
    · intro hne
      have below := (partOf_of_reaches mono hv ascending hw).1
      obtain ⟨scores, hscores⟩ := answers w below
      exact exists_drops (below.nodup_vertexList hv) hscores fun h => hne ((unique w hw).mp h)

namespace Clustering

theorem posEntries_pairs : @View.PosEntries ℚ exactRat pairs :=
  letI := exactRat
  View.posEntries_of_weights (by decide +kernel)

/-- Of the first three vertices the guard leaves the first two. -/
theorem ensure_greatest_pairs : ∃ u dropped,
    halving.guard.ensure (pairs.restrict [0, 1, 2]) = .ok ⟨some u, dropped⟩ ∧
      u.vertexList = [10, 20] ∧ halving.guard.core (pairs.restrict [0, 1, 2]) = {10, 20} ∧
      ∀ w, ReflTransGen halving.guard.Drops (pairs.restrict [0, 1, 2]) w →
        (halving.guard.Consistent w ↔ w = u) := by
  have part := pairs.partOf_restrict [0, 1, 2]
  have mono : halving.guard.metric.MonotoneOn halving.guard.graph (pairs.restrict [0, 1, 2]) :=
    letI := exactRat
    Guard.ensure_greatest.1 pairs _ (by rw [vertexList_pairs]; decide) posEntries_pairs.nonneg
      (.inl (by decide)) part
  obtain ⟨u, dropped, -, core, guarded, -, ends⟩ :=
    Guard.ensure_greatest.2 (g := halving.guard) (by cbv) part.ascending
      (part.nodup_vertexList nodup_pairs) mono
  obtain ⟨w, rest, run, list⟩ : ∃ w rest, halving.guard.ensure (pairs.restrict [0, 1, 2]) =
      .ok ⟨some w, rest⟩ ∧ w.vertexList = [10, 20] := ⟨_, _, by cbv, by cbv⟩
  rw [run] at guarded
  split_ifs at guarded with large
  · cases guarded
    refine ⟨u, dropped, run, list, ?_, fun w hw => (ends w hw).1⟩
    ext id
    rw [← core id, list]
    simp
  · cases guarded

end Clustering

end GraphClustering
