import GraphClustering.Proofs.Cluster.Conservation
import GraphClustering.Proofs.Cluster.Failures
import GraphClustering.Proofs.Graph.EdgeFree

/-!
# Clusters without weight

In a graph without edges every vertex scores zero.  A threshold above zero then
dissolves every cluster that a sweep meets, so that the root alone is left
(`lone_of_run`); under any other threshold a cluster that is large enough stays.
-/

namespace GraphClustering

open Forest Relation

variable {α : Type} [Scalar α]

/-- In a graph without edges all relative weights are zero. -/
theorem Metric.relativeWeight_of_edgeFree {graph u : View α} {scores : Array α}
    (free : graph.EdgeFree) (zero : Scalar.less (0 : α) 0 = false) (hu : u.PartOf graph)
    (ascending : graph.vertexList.Pairwise (· < ·)) (h : relativeWeight graph u = .ok scores) :
    scores = u.rows.map fun _ => 0 := by
  rw [relativeWeight] at h
  split at h
  · rename_i empty
    cases h
    rw [Array.eq_empty_of_size_eq_zero empty, Array.map_empty]
  · rw [View.relativeWeights, hu.any_isNone_localIds ascending, if_neg Bool.false_ne_true] at h
    obtain ⟨own, hown, h⟩ := exists_of_bind_eq_ok h
    obtain ⟨total, htotal, h⟩ := exists_of_bind_eq_ok h
    cases h
    have nothing : View.share (0 : α) 0 = 0 := by
      rw [View.share, zero, if_neg Bool.false_ne_true]
    rw [(free.of_partOf hu).weights_eq hown, free.weights_eq htotal,
      hu.filterMap_localIds ascending]
    apply Array.ext_getElem?
    intro i
    simp only [Array.getElem?_zipWith, Array.getElem?_map, List.getElem?_toArray,
      List.getElem?_map, Array.getElem?_toList]
    cases u.rows[i]? with
    | none => rfl
    | some r => exact congrArg some nothing

/-- A guard that scores by weight, in a graph that has none, and leaves no view without
vertices. -/
structure Guard.Weightless (g : Guard α) : Prop extends g.ByWeight where
  free : g.graph.EdgeFree
  zero : Scalar.less (0 : α) 0 = false
  populated : Number.less (.int 0) g.minSize = true

variable {g : Guard α} {u : View α} {f f' : Forest} {r c p : ClusterId} {e : Fault} {b : Bool}

namespace Guard.Weightless

/-- The threshold alone decides whether a vertex fails. -/
theorem scoresLow_eq (w : g.Weightless) (hu : u.PartOf g.graph) {scores : Array α}
    (h : g.metric g.graph u = .ok scores) {i : Nat} (hi : i < u.order) :
    g.scoresLow scores i = Scalar.less 0 g.minLikelihood := by
  rw [w.metric] at h
  rw [Metric.relativeWeight_of_edgeFree w.free w.zero hu w.compressed.vertexList_ascend h,
    scoresLow, Array.getElem?_map, Array.getElem?_eq_getElem hi]
  rfl

/-- Above zero the threshold is too high for every view. -/
theorem kept_eq_none (w : g.Weightless) (high : Scalar.less 0 g.minLikelihood = true)
    (hu : u.PartOf g.graph) {s : Guarded α} (h : g.ensure u = .ok s) : s.kept = none := by
  have fits := ensure_fits (hu.nodup_vertexList w.compressed.nodup_vertexList) h
  refine Option.eq_none_iff_forall_not_mem.mpr fun kept hkept => ?_
  obtain ⟨scores, hscores, fine⟩ := fits.consistent kept hkept
  have part : kept.PartOf g.graph := (partOf_of_shrink hu.ascending h hkept).trans hu
  have large := fits.notSmall kept hkept
  rcases Nat.eq_zero_or_pos kept.order with empty | pos
  · rw [empty, Int.ofNat_zero, w.populated] at large
    cases large
  · rw [← w.scoresLow_eq part hscores pos, fine 0 pos] at high
    cases high

/-- Otherwise a view that is large enough stays as it is. -/
theorem ensure_of_low (w : g.Weightless) (low : Scalar.less 0 g.minLikelihood = false)
    (hu : u.PartOf g.graph) (large : Number.less (.int u.order) g.minSize = false) :
    g.ensure u = .ok ⟨some u, []⟩ ∨ ∃ e, g.ensure u = .error e ∧ g.graph.Understaffed e := by
  cases hscores : g.metric g.graph u with
  | error e => exact .inr ⟨e, ensure_eq_error large hscores, w.failure_of_metric hu hscores⟩
  | ok scores =>
      refine .inl (Consistent.ensure_eq ⟨scores, hscores, fun i hi => ?_⟩ large)
      rw [w.scoresLow_eq hu hscores hi, low]

end Guard.Weightless

/-! ## The rules -/

namespace TreeRule

open Postprocessing

/-- Under a threshold above zero every cluster below the root is dissolved. -/
theorem tree_of_evict (w : g.Weightless) (high : Scalar.less 0 g.minLikelihood = true)
    (hf : Within g r f) (hc : f.root c = r) (h : evict g f c = .ok (f', b)) :
    c = r ∨ f'.tree r = (f.tree r).erase c := by
  rcases evict_cases h with ⟨root, -, -⟩ | ⟨p, u, s, hp, hu, hs, outcome⟩
  · rw [root_of_root root] at hc
    exact .inl hc
  · obtain ⟨u', hu', part⟩ := exists_aggregate_partOf w.compressed hf.1 hf.2 hc
    cases hu.symm.trans hu'
    have gone := w.kept_eq_none high part hs
    rcases outcome with ⟨kept, -, -, -⟩ | ⟨-, rfl, -⟩
    · rw [gone] at kept
      cases kept
    · right
      rw [evicted, gone, Option.isSome_none, if_neg Bool.false_ne_true,
        (SameLinks.addToRemainder _ _ _).tree_eq,
        (Rewrite.rooted_removed hf.1 _).tree_absorb (Rewrite.parent_removed hp _),
        (SameLinks.removeFromAll _ _ _).tree_eq]

end TreeRule

namespace Postprocessing

variable {minOverlap : α} {rule : TreeRule} {limit : Number} {n : Int}

open TreeRule

/-! ## A root alone -/

/-- A tree that is no more than its root. -/
def Lone (r : ClusterId) (f : Forest) : Prop :=
  f.Rooted r ∧ ∀ c, f.root c = r → c = r

theorem invariant_lone (r : ClusterId) : Invariant r (Lone r) where
  rooted hf := hf.1
  rewrite hf h := ⟨h.rooted hf.1, fun c hc => hf.2 c (root_of_rewrites hf.1 (.single h) hc)⟩

theorem Lone.idle (hf : Lone r f) (h : rule ∈ rules g minOverlap) :
    Idle (fun _ _ => False) r f rule := by
  intro c hc
  exact .inl (eq_ok_of_parentless (hf.2 c hc ▸ hf.1.parentless) h)

theorem Lone.children_eq_nil (hf : Lone r f) : f.children r = [] := by
  refine List.eq_nil_iff_forall_not_mem.mpr fun c hc => ?_
  have hp := (hf.1.mem_children_iff c r).mp hc
  have same := hf.2 c (by rw [root_of_parent hf.1.toWellFormed hp, root_of_root hf.1.parentless])
  exact hf.1.parent_ne_self hp same.symm

theorem Lone.aggregate_eq (hf : Lone r f) : f.aggregate r = f.remainder r := by
  rw [aggregate, walk_eq hf.1.toWellFormed hf.1.lt_size, hf.children_eq_nil, List.flatMap_nil,
    List.flatMap_singleton]

/-! ## Sweeps -/

/-- Under a threshold above zero a sweep dissolves all clusters that it meets. -/
theorem eq_root_of_sweepOver (w : g.Weightless) (high : Scalar.less 0 g.minLikelihood = true)
    {cs : List ClusterId} {a : Bool} (hf : Within g r f)
    (h : sweepOver (evict g) r cs f a = (f', .ok b)) : ∀ c ∈ cs, f'.root c = r → c = r := by
  have safe : Safe (Within g r) (fun _ _ => True) r (evict g) := safe_of_sound (evict_sound g r)
  -- What a rewrite takes out of the tree does not come back.
  have lost : ∀ {f a} {cs : List ClusterId}, Within g r f →
      sweepOver (evict g) r cs f a = (f', .ok b) → ∀ c, f.root c ≠ r → f'.root c ≠ r := by
    intro f a cs hf h c out hc
    have track := sweepOver_tracks (invariant_within g r) safe hf cs a
    rw [h] at track
    exact out (root_of_rewrites hf.1 track.rewrites hc)
  induction cs generalizing f a with
  | nil => rintro c ⟨⟩
  | cons c cs ih =>
      have whole := h
      rw [sweepOver] at h
      split at h
      · rename_i hc
        split at h
        · rename_i f₁ b₁ h₁
          have hf₁ : Within g r f₁ := by
            cases b₁ with
            | true => exact (invariant_within g r).rewrite hf (safe.changed hf.1 hc h₁)
            | false => rw [safe.unchanged h₁]; exact hf
          intro d hd hdr
          rcases List.mem_cons.mp hd with rfl | hd
          · refine (tree_of_evict w high hf hc h₁).resolve_right fun tree => ?_
            refine lost hf₁ h d (fun hd => ?_) hdr
            have mem := hf₁.1.mem_tree_iff.mpr hd
            rw [tree] at mem
            exact Finset.notMem_erase d _ mem
          · exact ih hf₁ h d hd hdr
        · cases h
      · rename_i hc
        intro d hd hdr
        rcases List.mem_cons.mp hd with rfl | hd
        · exact absurd hdr (lost hf whole d hc)
        · exact ih hf h d hd hdr

theorem lone_of_sweep (w : g.Weightless) (high : Scalar.less 0 g.minLikelihood = true)
    (hf : Within g r f) (h : sweep (evict g) r f = (f', .ok b)) : Lone r f' := by
  have track := sweep_tracks (invariant_within g r) (safe_of_sound (evict_sound g r)) hf
  rw [h] at track
  refine ⟨rooted_of_rewrites hf.1 track.rewrites, fun c hc => ?_⟩
  have met : c ∈ f.walk r := hf.1.mem_walk_iff.mpr (root_of_rewrites hf.1 track.rewrites hc)
  exact eq_root_of_sweepOver w high hf h c (List.mem_mergeSort.mpr met) hc

/-- Under a threshold above zero postprocessing leaves the root alone, whatever the
tree was, unless there are no workers to find the weights. -/
theorem lone_of_run (w : g.Weightless) (high : Scalar.less 0 g.minLikelihood = true)
    (minOverlap : α) (hf : Within g r f) (hn : limit.toInt? = some n) (pos : 1 ≤ n) :
    (∃ f' b, run (passes g minOverlap) limit r f = (f', .ok b) ∧ Lone r f') ∨
      ∃ f' e, run (passes g minOverlap) limit r f = (f', .error e) ∧ g.graph.Understaffed e := by
  have safe := fun rule (h : rule ∈ rules g minOverlap) =>
    safe_of_sound (I := Within g r) (sound_of_mem_rules r h)
  have track := step_tracks (invariant_within g r) safe n.toNat
  rcases h : run (passes g minOverlap) limit r f with ⟨f', e | b⟩
  · exact .inr ⟨f', e, rfl, w.failure_of_run minOverlap hf hn (congrArg Prod.snd h)⟩
  · refine .inl ⟨f', b, rfl, ?_⟩
    rw [run_of_toInt? hn] at h
    refine untilSettled_brings (invariant_within g r) track ?_ (by omega) hf h
    intro f₁ f₂ b₁ hf₁ h₁
    have mem : evict g ∈ rules g minOverlap := by simp [rules]
    exact round_brings (invariant_within g r) (invariant_lone r) safe mem
      (fun _ _ _ => lone_of_sweep w high) (by omega) hf₁ h₁

end Postprocessing

end GraphClustering
