import GraphClustering.Proofs.Graph.Derived
import GraphClustering.Proofs.Graph.Multigraph
import GraphClustering.Proofs.Settings
import GraphClustering.Proofs.Spectral.Failures

/-!
# Whether a clustering returns a tree

With whole numbers where whole numbers are wanted, three faults remain that can keep a
clustering of a built graph by weight from returning a tree (`run_ok_or_fault`).  One of them
is a seed below zero: no rule of the settings refuses it (`passes_of_seed`), but no connected
graph of several vertices can be clustered with it (`run_of_negative_seed`).
-/

namespace GraphClustering

namespace Clustering

/-- A connected view is given back by the search for components, and then split. -/
theorem queuePhase_of_connected {α : Type} [Scalar α] {k : Clustering α} {v u : View α}
    (hv : v.vertexList.Nodup) (connected : v.components = [u]) (pos : 1 ≤ v.order) :
    k.queuePhase v .whole = (do
      let ps ← k.splitPlacements ⟨v, .component, 0⟩
      k.drain (4 * v.order - 1) (ps.foldl (Placement.put ⟨v, .component, 0⟩)
        ⟨(start v .whole).forest, [], 1, 1⟩)) := by
  have all := (View.components_perm hv).length_eq
  rw [connected, List.flatMap_singleton, View.length_vertexList, View.length_vertexList] at all
  have again : k.placements ⟨v, .whole, 0⟩ = .ok [.again] := by
    rw [placements]
    dsimp only
    rw [connected, List.map_singleton, componentPlacement, if_pos all]
  have first : (start v .whole).queue = [⟨v, .whole, 0⟩] := rfl
  have second : (Placement.again.put ⟨v, .whole, 0⟩ (counted { start v .whole with queue := [] }
      .whole)).queue = [⟨v, .component, 0⟩] := rfl
  have steps : taskBound v.order = 4 * v.order - 1 + 1 + 1 := by rw [taskBound]; omega
  rw [queuePhase, steps, drain_succ first, again]
  exact drain_succ second _

variable {s : Settings} {v u : View Float} {b : Builder Float} {m n p z : Int}

/-- A clustering of a built graph by weight returns a tree unless a start vector has norm zero,
the seed is below zero or there are no workers to find weights. -/
theorem run_ok_or_fault (built : b.build = .ok v) (hm : s.minClusterSize = .int m) (pos : 1 ≤ m)
    (hn : s.maxIterations = .int n) (hp : s.maxPostprocessingPasses = .int p)
    (hz : s.randomSeed = some (.int z)) :
    let k := s.clustering .relativeWeight v
    (∃ q, k.run v = .ok q) ∨ k.run v = .error .zeroStart ∨
      (k.run v = .error .negativeSeed ∧ z < 0) ∨
      ∃ e, k.run v = .error e ∧ v.Understaffed e := by
  have byWeight : (s.clustering .relativeWeight v).guard.ByWeight :=
    ⟨rfl, View.compressed_of_build built⟩
  refine (cases_of_run byWeight hm pos (n := p) (congrArg Number.toInt? hp)
    (signsEach_clustering s .relativeWeight v)).imp id ?_
  rintro ⟨e, he, ⟨u, hu, fails⟩ | understaffed⟩
  · rcases Bisection.failure_of_spectral hz (congrArg Number.toInt? hn) fails with
      rfl | ⟨rfl, negative⟩ | understaffed
    · exact .inl he
    · exact .inr (.inl ⟨he, negative⟩)
    · exact .inr (.inr ⟨e, he, understaffed.of_partOf hu⟩)
  · exact .inr (.inr ⟨e, he, understaffed⟩)

/-- Two vertices with an edge. -/
def pair : Multigraph Float :=
  ⟨[(10, 20, 1)], [], none⟩

def joined : View Float :=
  .whole (.ofEntries #[10, 20] [⟨0, 1, 1⟩, ⟨1, 0, 1⟩]) none

theorem build_pair : (pair.builder none).build = .ok joined := by
  have labels : pair.labels = #[10, 20] := by cbv
  have merged : Entry.mergeRuns ((Entry.symmetric pair.entries).mergeSort Entry.before) =
      [⟨0, 1, 1⟩, ⟨1, 0, 1⟩] := by
    rw [Multigraph.entries, labels]
    change Entry.mergeRuns ([⟨0, 1, 1⟩, ⟨1, 0, 1⟩].mergeSort Entry.before) = [⟨0, 1, 1⟩, ⟨1, 0, 1⟩]
    generalize (1 : Float) = x
    cbv
  rw [joined, ← labels]
  exact Multigraph.graph_of_merged ⟨by decide, by decide⟩
    ⟨by decide, by decide +kernel, by rintro b ⟨⟩⟩ merged (by decide +kernel) none

theorem vertexList_joined : joined.vertexList = [10, 20] := by
  cbv

theorem components_joined : joined.components = [joined] := by
  cbv

/-- Under the default settings the two are split, and as neither makes a cluster, both stay with
the root. -/
theorem queuePhase_joined :
    ((Settings.defaults.settings false).clustering .relativeWeight joined).queuePhase joined
      .whole = .ok ⟨⟨#[⟨none, [], [20, 10]⟩]⟩, [], 1, 1⟩ := by
  have signs : Bisection.spectral (Settings.defaults.settings false) joined =
      .ok (.signs [true, false]) := by
    exact eq_ok_of_toOption (by decide +kernel)
  have low : (joined.restrict [1]).vertexList = [20] := by cbv
  have high : (joined.restrict [0]).vertexList = [10] := by cbv
  have small : ∀ u : View Float, u.vertexList.length = 1 →
      ((Settings.defaults.settings false).clustering .relativeWeight joined).partPlacements
        ⟨joined, .component, 0⟩ u = .ok [.owned u.vertexList] := by
    intro u hu
    rw [View.length_vertexList] at hu
    rw [partPlacements, if_pos]
    rw [isSmall, hu]
    rfl
  have split : ((Settings.defaults.settings false).clustering .relativeWeight
      joined).splitPlacements ⟨joined, .component, 0⟩ = .ok [.owned [20], .owned [10]] := by
    rw [splitPlacements]
    change Bisection.spectral _ _ >>= _ = _
    rw [signs]
    change partsPlacements _ _ [joined.restrict [1], joined.restrict [0]] = _
    rw [partsPlacements, small _ (by rw [low]; rfl), partsPlacements, small _ (by rw [high]; rfl),
      low, high]
    rfl
  rw [queuePhase_of_connected (by rw [vertexList_joined]; decide) components_joined (by decide),
    split]
  rfl

theorem run_ok_or_fault_joined : ∃ s v q, Settings.ofValues [] false = .ok s ∧
    (pair.builder none).build = .ok v ∧ (s.clustering .relativeWeight v).run v = .ok q ∧
      q.forest.children 0 = [] ∧ q.forest.remainder 0 = [20, 10] := by
  have settled : ∀ (g : Guard Float) (x : Float), Postprocessing.run (Postprocessing.passes g x)
      (.int 100) 0 ⟨#[⟨none, [], [20, 10]⟩]⟩ = (⟨#[⟨none, [], [20, 10]⟩]⟩, .ok false) := by
    intro g x
    cbv
  have tree := run_of_queuePhase queuePhase_joined
  dsimp only at tree
  rw [show ((Settings.defaults.settings false).clustering .relativeWeight joined).passLimit =
    .int 100 from rfl, settled] at tree
  rcases run_ok_or_fault (s := Settings.defaults.settings false) build_pair rfl (by decide) rfl rfl
    rfl with ⟨q, hq⟩ | zero | ⟨-, negative⟩ | ⟨e, -, few⟩
  · refine ⟨_, joined, q, Settings.passes_defaults.ofDraft_eq false, build_pair, hq, ?_⟩
    cases hq.symm.trans tree
    exact ⟨rfl, rfl⟩
  · cases zero.symm.trans tree
  · exact absurd negative (by decide)
  · exact absurd (.inl (by decide)) few.2

/-- With a seed below zero there is no tree for a connected graph of several vertices,
whatever the metric and the other settings are. -/
theorem run_of_negative_seed (hz : s.randomSeed = some (.int z)) (negative : z < 0)
    (metric : Metric Float) (hv : v.vertexList.Nodup) (connected : v.components = [u])
    (several : 2 ≤ v.order) (staffed : v.Staffed) :
    (s.clustering metric v).run v = .error .negativeSeed := by
  have split : (s.clustering metric v).splitPlacements ⟨v, .component, 0⟩ =
      .error .negativeSeed := by
    rw [splitPlacements]
    change Bisection.spectral s v >>= _ = _
    rw [Bisection.spectral_of_negative_seed hz negative several staffed]
    rfl
  rw [run, queuePhase_of_connected hv connected (by omega), split]
  rfl

/-- Every seed passes. -/
theorem passes_of_seed {d : Settings.Draft} (h : d.Passes) (z : Int) :
    (d.set .randomSeed (.number (.int z))).Passes :=
  h.set rfl

theorem run_joined : ∃ s v, Settings.ofValues [("random_seed", .number (.int (-1)))] false = .ok s ∧
    (pair.builder none).build = .ok v ∧
      (s.clustering .relativeWeight v).run v = .error .negativeSeed :=
  ⟨_, joined, (passes_of_seed Settings.passes_defaults (-1)).ofDraft_eq false, build_pair,
    run_of_negative_seed rfl (by decide) .relativeWeight (by rw [vertexList_joined]; decide)
      components_joined (by decide) (.inl (by decide))⟩

end Clustering

end GraphClustering
