import GraphClustering.Proofs.Cluster.Coverage
import GraphClustering.Proofs.Cluster.RelativeWeight

/-!
# What can stop a clustering

A clustering by weight, with whole numbers for its minimum size and its limit on
passes, is stopped only by its bisector, at a part of the graph, or for want of
workers to find weights (`cases_of_run`).
-/

namespace GraphClustering

open Forest

variable {α : Type} [Scalar α]

/-- A guard that goes by weight stops postprocessing for want of workers only. -/
theorem Guard.ByWeight.failure_of_run {g : Guard α} {f : Forest} {r : ClusterId} {limit : Number}
    {n : Int} {e : Fault} (w : g.ByWeight) (minOverlap : α) (hf : Postprocessing.Within g r f)
    (hn : limit.toInt? = some n)
    (he : (Postprocessing.run (Postprocessing.passes g minOverlap) limit r f).2 = .error e) :
    g.graph.Understaffed e :=
  (Postprocessing.failure_of_run minOverlap w.compressed hf hn he).elim id
    fun ⟨_, part, fails⟩ => w.failure_of_metric part fails

namespace Clustering

variable {k : Clustering α} {m n : Int} {stage : Stage}

/-- The queue is worked off unless the bisector fails on a part of the graph or there are
no workers to find its weights. -/
theorem cases_of_queuePhase (w : k.guard.ByWeight) (hm : k.minSize = .int m) (stage : Stage) :
    (∃ p, k.queuePhase k.guard.graph stage = .ok p) ∨
      ∃ e, k.queuePhase k.guard.graph stage = .error e ∧
        ((∃ u, u.PartOf k.guard.graph ∧ k.bisector u = .error e) ∨
          k.guard.graph.Understaffed e) := by
  have begun : ∀ t ∈ (start k.guard.graph stage).queue, t.view.PartOf k.guard.graph := by
    intro t ht
    rw [List.mem_singleton.mp ht]
    exact .refl w.compressed.ascending
  refine (drain_cases (P := fun p => ∀ t ∈ p.queue, t.view.PartOf k.guard.graph) ?_
    (taskBound k.guard.graph.order) begun).imp (fun ⟨p, hp, _⟩ => ⟨p, hp⟩) id
  intro p t rest hp hq
  have part := hp t (hq ▸ List.mem_cons_self)
  cases hps : k.placements t with
  | error e =>
      refine .inr ⟨e, rfl, ?_⟩
      rcases failure_of_placements hm
        (part.nodup_vertexList w.compressed.nodup_vertexList) hps with fails | ⟨u, hu, fails⟩
      · exact .inl ⟨t.view, part, fails⟩
      · exact .inr (w.failure_of_metric (hu.trans part) fails)
  | ok ps =>
      exact .inl ⟨ps, rfl, partOf_of_mem_queue hps part fun t' ht' =>
        hp t' (hq ▸ List.mem_cons_of_mem t ht')⟩

/-- A clustering returns a tree unless the bisector fails on a part of the graph or there
are no workers to find its weights. -/
theorem cases_of_run (w : k.guard.ByWeight) (hm : k.minSize = .int m) (pos : 1 ≤ m)
    (hn : k.passLimit.toInt? = some n) (hsigns : k.SignsEach) :
    (∃ q, k.run k.guard.graph = .ok q) ∨ ∃ e, k.run k.guard.graph = .error e ∧
      ((∃ u, u.PartOf k.guard.graph ∧ k.bisector u = .error e) ∨
        k.guard.graph.Understaffed e) := by
  rcases k.cases_of_queuePhase w hm .whole with ⟨p, hp⟩ | ⟨e, he, cause⟩
  · obtain ⟨rooted, perm⟩ := rooted_of_queuePhase (atLeastOne_of_int hm pos) hsigns
      w.compressed.nodup_vertexList hp
    have within : Postprocessing.Within k.guard 0 p.forest :=
      ⟨rooted, fun id hid => perm.subset hid⟩
    rw [run_of_queuePhase hp]
    cases outcome : (Postprocessing.run (Postprocessing.passes k.guard k.minOverlap) k.passLimit 0
        p.forest).2 with
    | ok b => exact .inl ⟨_, rfl⟩
    | error e =>
        exact .inr ⟨e, rfl, .inr (w.failure_of_run k.minOverlap within hn outcome)⟩
  · refine .inr ⟨e, ?_, cause⟩
    rw [run, he]
    rfl

end Clustering

end GraphClustering
