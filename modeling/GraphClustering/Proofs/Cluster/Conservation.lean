import GraphClustering.Proofs.Cluster.Report

/-!
# Postprocessing conserves the vertices

Whatever the tree, postprocessing keeps its root and its vertices and brings in no
cluster.  A vertex may be listed several times and a cluster may be empty: no
vertex occurs more often than before, and none is lost.
-/

namespace GraphClustering

open Forest Relation

variable {α : Type} {k : Guard α} {r : ClusterId} {f g : Forest}

namespace Postprocessing

variable [Scalar α]

/-- After postprocessing the root is still the root of a well-formed tree, whose
clusters were in the tree before.  The same vertices occur in it, none more often
than before, and those that occurred once still do.  This holds whether it settles,
stops at its limit or is stopped by the metric, by the number of workers or by a
limit that is no whole number. -/
theorem run_conserves (minOverlap : α) (hf : f.Rooted r)
    (ascending : k.graph.store.labels.toList.Pairwise (· < ·))
    (known : ∀ id ∈ f.aggregate r, id ∈ k.graph.store.labels) (limit : Number) :
    ∃ g outcome, run (passes k minOverlap) limit r f = (g, outcome) ∧ g.Rooted r ∧
      (g.walk r).Nodup ∧ g.walk r ⊆ f.walk r ∧
      (∀ id, id ∈ g.aggregate r ↔ id ∈ f.aggregate r) ∧
      (∀ id, (g.aggregate r).count id ≤ (f.aggregate r).count id) ∧
      (∀ id, (f.aggregate r).count id = 1 → (g.aggregate r).count id = 1) ∧
      ∀ e, outcome = .error e → limit.toInt? = none ∨ Blamed k r g e := by
  have rewrites := rewrites_run hf k minOverlap limit
  rcases hrun : run (passes k minOverlap) limit r f with ⟨g, outcome⟩
  rw [hrun] at rewrites
  dsimp only at rewrites
  have hg := rooted_of_rewrites hf rewrites
  have conserves := conserves_of_rewrites hf rewrites
  refine ⟨g, outcome, rfl, hg, nodup_walk hg.toWellFormed hg.lt_size, ?_,
    fun id => (conserves id).2, fun id => (conserves id).1, ?_, ?_⟩
  · intro c hc
    exact mem_tree.mp (tree_subset_of_rewrites hf rewrites (mem_tree.mpr hc))
  · intro id once
    obtain ⟨le, mem⟩ := conserves id
    rw [← List.count_pos_iff, ← List.count_pos_iff] at mem
    omega
  · intro e he
    cases hn : limit.toInt? with
    | none => exact .inl rfl
    | some n =>
        have track := run_tracks minOverlap hf ascending known hn
        rw [hrun] at track
        exact .inr (track.failure e he)

/-- An empty cluster above one of the pairs, a pair that lists a vertex twice, and
another copy of that vertex at the root. -/
def crowdedPairs : Forest :=
  let f := ((Forest.empty.spawn none).1.addToRemainder 0 [10]).spawn (some 0)
  let g := (f.1.spawn (some 1)).1.addToRemainder 2 [10, 20, 10]
  (g.spawn (some 0)).1.addToRemainder 3 [30, 40]

theorem rooted_crowdedPairs : crowdedPairs.Rooted 0 := by
  have first := (rooted_single.addToRemainder 0 [10]).spawn (p := 0) (by decide)
  have second := (first.spawn (p := 1) (by decide)).addToRemainder 2 [10, 20, 10]
  exact (second.spawn (p := 0) (by decide)).addToRemainder 3 [30, 40]

theorem run_conserves_crowdedPairs : crowdedPairs.aggregate 0 = [10, 10, 20, 10, 30, 40] ∧
    ∃ g, run (passes Clustering.halving.guard Clustering.halving.minOverlap) (.int 9) 0
        crowdedPairs = (g, .ok true) ∧ g.Rooted 0 ∧ (g.walk 0).length = 3 ∧
      10 ∈ g.aggregate 0 ∧ (g.aggregate 0).count 10 ≤ 3 ∧ (g.aggregate 0).count 40 = 1 := by
  have labels : Clustering.pairs.store.labels.toList = [10, 20, 30, 40] := rfl
  have vertices : crowdedPairs.aggregate 0 = [10, 10, 20, 10, 30, 40] := by cbv
  obtain ⟨g, outcome, hrun, rooted, -, -, mem, le, once, -⟩ :=
    run_conserves (k := Clustering.halving.guard) Clustering.halving.minOverlap
      rooted_crowdedPairs (by
        change Clustering.pairs.store.labels.toList.Pairwise _
        rw [labels]
        decide) (by
        intro id hid
        change id ∈ Clustering.pairs.store.labels
        rw [vertices] at hid
        rw [← Array.mem_toList_iff, labels]
        revert id
        decide) (.int 9)
  obtain ⟨g', hrun', three⟩ : ∃ g', run (passes Clustering.halving.guard
      Clustering.halving.minOverlap) (.int 9) 0 crowdedPairs = (g', .ok true) ∧
        (g'.walk 0).length = 3 := ⟨_, by cbv, by cbv⟩
  obtain ⟨rfl, rfl⟩ := Prod.mk.inj (hrun.symm.trans hrun')
  refine ⟨vertices, g, hrun, rooted, three, (mem 10).mpr ?_, ?_, once 40 ?_⟩
  · rw [vertices]; decide
  · exact (le 10).trans (by rw [vertices]; decide)
  · rw [vertices]; decide

end Postprocessing

end GraphClustering
