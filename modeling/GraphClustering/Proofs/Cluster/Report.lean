import GraphClustering.Proofs.Cluster.Settling

/-!
# What postprocessing reports

Postprocessing reports a change exactly if the tree has changed in some way: in a
link, in the order of children or in the order of a remainder.  A tree with which
it settled stays as it is when it is postprocessed again.
-/

namespace GraphClustering

open Forest Relation

variable {α : Type} {k : Guard α} {minOverlap : α} {r c d p : ClusterId} {f g : Forest}

namespace Forest

/-- The tree with root `r` is the same in two forests, with the order of children
and remainders. -/
def SameTree (r : ClusterId) (f g : Forest) : Prop :=
  ∀ c ∈ f.walk r, g.parent c = f.parent c ∧ g.children c = f.children c ∧
    g.remainder c = f.remainder c

namespace SameTree

theorem refl (r : ClusterId) (f : Forest) : SameTree r f f :=
  fun _ _ => ⟨rfl, rfl, rfl⟩

/-- The clusters of the tree are reached by the same steps from parent to child. -/
theorem tree_eq (h : SameTree r f g) (hf : f.Rooted r) (hg : g.Rooted r) :
    g.tree r = f.tree r := by
  have children : ∀ c, ReflTransGen (fun a b => b ∈ f.children a) r c →
      g.children c = f.children c := fun c hc =>
    (h c ((mem_walk_iff_reachable hf.toWellFormed hf.lt_size).mpr hc)).2.1
  ext c
  rw [mem_tree, mem_tree, mem_walk_iff_reachable hf.toWellFormed hf.lt_size,
    mem_walk_iff_reachable hg.toWellFormed hg.lt_size]
  constructor
  · intro reach
    induction reach with
    | refl => exact .refl
    | tail _ child ih => exact ih.tail (children _ ih ▸ child)
  · intro reach
    induction reach with
    | refl => exact .refl
    | tail before child ih => exact ih.tail ((children _ before).symm ▸ child)

theorem ancestors_eq (h : SameTree r f g) (hf : f.Rooted r) (hg : g.Rooted r)
    (hc : c ∈ f.tree r) : g.ancestors c = f.ancestors c := by
  induction c using hf.induction_down with
  | step c ih =>
      have parent := (h c (mem_tree.mp hc)).1
      cases hp : f.parent c with
      | none => rw [ancestors_of_root hp, ancestors_of_root (parent.trans hp)]
      | some p =>
          rw [ancestors_of_parent hf.toWellFormed hp,
            ancestors_of_parent hg.toWellFormed (parent.trans hp),
            ih p hp (hf.parent_mem_tree hp hc)]

theorem potential_eq (h : SameTree r f g) (hf : f.Rooted r) (hg : g.Rooted r) :
    g.potential r = f.potential r := by
  rw [hg.potential_eq, hf.potential_eq, h.tree_eq hf hg]
  refine Finset.sum_congr rfl fun c hc => ?_
  rw [share, share, depth, depth, h.ancestors_eq hf hg hc, (h c (mem_tree.mp hc)).2.2]

/-- Rewrites never lead back to the same tree. -/
theorem not_of_rewrites (hf : f.Rooted r) (h : TransGen (Rewrite r) f g) : ¬ SameTree r f g := by
  intro same
  have lower := potential_lt_of_rewrites hf h
  rw [same.potential_eq hf (rooted_of_rewrites hf h.to_reflTransGen)] at lower
  exact lt_irrefl _ lower

end SameTree

end Forest

namespace Postprocessing

variable [Scalar α] {limit : Number} {n : Int}

/-- A round that leaves a tree as it is ends postprocessing at once. -/
theorem run_of_settled (hf : f.Rooted r) (hn : limit.toInt? = some n)
    (h : Settles (step k minOverlap n.toNat r) n.toNat f g) :
    run (passes k minOverlap) limit r g = (g, .ok false) := by
  have track := step_tracks (invariant_rooted r) (fun rule (hrule : rule ∈ rules k minOverlap) =>
    safe_of_sound (sound_of_mem_rules r hrule)) n.toNat
  obtain ⟨-, idle, pos⟩ := h.last (invariant_rooted r) track hf
  obtain ⟨m, hm⟩ := Nat.exists_eq_succ_of_ne_zero (Nat.ne_of_gt pos)
  rw [run_of_toInt? hn, hm, untilSettled, ← hm, idle]

/-- Postprocessing reports no change exactly if the tree is as before, and then so
is the whole forest; after a run that settled, a second one reports no change and
leaves the forest as it is.  Only the metric, or the want of workers for weights, can keep it
from reporting, at a cluster of the tree it stopped at. -/
theorem run_report_exact (minOverlap : α) (hf : f.Rooted r)
    (ascending : k.graph.store.labels.toList.Pairwise (· < ·))
    (known : ∀ id ∈ f.aggregate r, id ∈ k.graph.store.labels) (hn : limit.toInt? = some n) :
    match run (passes k minOverlap) limit r f with
    | (g, .ok changed) =>
      (changed = false ↔ SameTree r f g) ∧ (changed = false ↔ g = f) ∧
        (Settles (step k minOverlap n.toNat r) n.toNat f g →
          run (passes k minOverlap) limit r g = (g, .ok false))
    | (g, .error e) => Blamed k r g e := by
  have track := run_tracks minOverlap hf ascending known hn
  rcases hrun : run (passes k minOverlap) limit r f with ⟨g, changed | changed⟩
  · rw [hrun] at track
    exact track.failure _ rfl
  · rw [hrun] at track
    refine ⟨?_, ?_, run_of_settled hf hn⟩
    · rcases track.report changed rfl with ⟨rfl, same⟩ | ⟨rfl, rewrites⟩
      · obtain rfl : g = f := same
        exact iff_of_true rfl (.refl r g)
      · exact iff_of_false nofun (SameTree.not_of_rewrites hf rewrites)
    · rcases track.report changed rfl with ⟨rfl, same⟩ | ⟨rfl, rewrites⟩
      · exact iff_of_true rfl same
      · refine iff_of_false nofun fun same => SameTree.not_of_rewrites hf rewrites ?_
        change SameTree r f g
        rw [same]
        exact .refl r f

/-- The two pairs below an only child of the root. -/
def nestedPairs : Forest :=
  let f := ((Forest.empty.spawn none).1.spawn (some 0)).1.spawn (some 1)
  ((f.1.addToRemainder 2 [10, 20]).spawn (some 1)).1.addToRemainder 3 [30, 40]

theorem rooted_nestedPairs : nestedPairs.Rooted 0 := by
  have first := rooted_single.spawn (p := 0) (by decide)
  have second := (first.spawn (p := 1) (by decide)).addToRemainder 2 [10, 20]
  exact (second.spawn (p := 1) (by decide)).addToRemainder 3 [30, 40]

theorem run_report_exact_nestedPairs : ∃ g,
    run (passes Clustering.halving.guard Clustering.halving.minOverlap) (.int 9) 0 nestedPairs =
      (g, .ok true) ∧ ¬ SameTree 0 nestedPairs g ∧
    run (passes Clustering.halving.guard Clustering.halving.minOverlap) (.int 9) 0 g =
      (g, .ok false) := by
  have labels : Clustering.pairs.store.labels.toList = [10, 20, 30, 40] := rfl
  have vertices : nestedPairs.aggregate 0 = [10, 20, 30, 40] := by cbv
  have report := run_report_exact (k := Clustering.halving.guard) Clustering.halving.minOverlap
    rooted_nestedPairs (by
      change Clustering.pairs.store.labels.toList.Pairwise _
      rw [labels]
      decide) (by
      intro id hid
      change id ∈ Clustering.pairs.store.labels
      rwa [← Array.mem_toList_iff, labels, ← vertices]) (rfl : (Number.int 9).toInt? = some 9)
  obtain ⟨g, settles, hrun⟩ : ∃ g, Settles (step Clustering.halving.guard
      Clustering.halving.minOverlap 9 0) 9 nestedPairs g ∧
      run (passes Clustering.halving.guard Clustering.halving.minOverlap) (.int 9) 0 nestedPairs =
        (g, .ok true) := ⟨_, .more (by cbv) (.stop (by cbv)), by cbv⟩
  rw [hrun] at report
  exact ⟨g, hrun, fun same => Bool.noConfusion (report.1.mpr same), report.2.2 settles⟩

end Postprocessing

end GraphClustering
