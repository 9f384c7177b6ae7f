import GraphClustering.Proofs.Cluster.Eviction
import GraphClustering.Proofs.Decimal.Lawful
import GraphClustering.Proofs.Graph.Multigraph
import GraphClustering.Proofs.Settings

/-!
# The settled tree

A tree that a round of postprocessing leaves as it is has all the properties that the three
rules are there for (`settled_tree`).  An overlap is a quotient of sums of weights, and sums of
finite weights can be infinite.  Then the overlap may be no number, which is not below any
threshold, and a cluster with such an overlap stays where it is (`settled_heavy`).
-/

namespace GraphClustering

open Forest

namespace Scalar

/-- Whether both are numbers and the first is not below the second. -/
def AtLeast {α : Type} [Scalar α] (x t : α) : Prop :=
  isNan x = false ∧ isNan t = false ∧ less x t = false

theorem atLeast_rat_iff {x t : ℚ} : AtLeast x t ↔ t ≤ x :=
  ⟨fun h => less_rat_eq_false.mp h.2.2, fun h => ⟨rfl, rfl, less_rat_eq_false.mpr h⟩⟩

/-- Binary64 numbers are compared so by the standard. -/
theorem atLeast_float_iff {x t : Float} : AtLeast x t ↔ t ≤ x := by
  have le : t ≤ x ↔ ∃ p q, Decimal.rank t.toModel.unpack = some p ∧
      Decimal.rank x.toModel.unpack = some q ∧ p ≤ q :=
    (decide_eq_true_iff (p := t.toModel ≤ x.toModel)).trans (Decimal.le_iff _ _)
  have nan : ∀ y : Float, isNan y = true ↔ Decimal.rank y.toModel.unpack = none := fun y =>
    Decimal.isNaN_iff _
  rw [le, AtLeast, ← Bool.not_eq_true, ← Bool.not_eq_true, ← Bool.not_eq_true, nan, nan,
    Decimal.less_iff, Decimal.lt_iff]
  constructor
  · rintro ⟨hx, ht, above⟩
    obtain ⟨p, hp⟩ := Option.ne_none_iff_exists'.mp ht
    obtain ⟨q, hq⟩ := Option.ne_none_iff_exists'.mp hx
    exact ⟨p, q, hp, hq, not_lt.mp fun below => above ⟨q, p, hq, hp, below⟩⟩
  · rintro ⟨p, q, hp, hq, le⟩
    refine ⟨by simp [hq], by simp [hp], ?_⟩
    rintro ⟨q', p', hq', hp', below⟩
    obtain rfl := Option.some_inj.mp (hp.symm.trans hp')
    obtain rfl := Option.some_inj.mp (hq.symm.trans hq')
    exact absurd le (not_le.mpr below)

end Scalar

namespace Postprocessing

variable {α : Type} [Scalar α] {k : Guard α} {minOverlap : α} {r : ClusterId} {f g : Forest}
variable {limit : Number} {n : Int}

/-- In a tree that postprocessing has settled no cluster has a single child, all
clusters but the root are large enough and fit the graph, and each overlaps enough
with its parent unless that is the root or the overlap is no number. -/
theorem settled_tree (hf : f.Rooted r) (hn : limit.toInt? = some n)
    (number : Scalar.isNan minOverlap = false)
    (h : Settles (step k minOverlap n.toNat r) n.toNat f g) :
    (∃ b, run (passes k minOverlap) limit r f = (g, .ok b)) ∧
    (∀ c ∈ g.walk r, (g.children c).length ≠ 1) ∧
    (∀ c ∈ g.walk r, c ≠ r → ∃ u scores, k.graph.induced (g.aggregate c) = .ok u ∧
      u.vertexList.Nodup ∧ (∀ id, id ∈ u.vertexList ↔ id ∈ g.aggregate c) ∧
      Number.less (.int u.vertexList.length) k.minSize = false ∧
      k.metric k.graph u = .ok scores ∧
      ∀ i s, i < u.order → scores[i]? = some s → Scalar.less s k.minLikelihood = false) ∧
    (∀ c ∈ g.walk r, ∀ p, g.parent c = some p → p ≠ r → ∃ u x,
      k.graph.induced (g.aggregate c) = .ok u ∧ TreeRule.overlap k.graph u g p = .ok x ∧
      (Scalar.isNan x = true ∨ Scalar.AtLeast x minOverlap)) := by
  have sound := fun rule (hrule : rule ∈ rules k minOverlap) =>
    sound_of_mem_rules r hrule
  have track := step_tracks (invariant_rooted r)
    (fun rule hrule => safe_of_sound (sound rule hrule)) n.toNat
  obtain ⟨hg, idle, pos⟩ := h.last (invariant_rooted r) track hf
  have quiet : ∀ rule ∈ rules k minOverlap, ∀ c, g.root c = r → rule g c = .ok (g, false) :=
    fun rule hrule c hc =>
      (round_unchanged sound pos idle).2 rule hrule c (hg.mem_walk_iff.mpr hc) hc
  refine ⟨?_, ?_, ?_, ?_⟩
  · obtain ⟨b, hb⟩ := h.untilSettled_eq false
    exact ⟨b, (run_of_toInt? hn).trans hb⟩
  · intro c hc single
    obtain ⟨d, hd⟩ := List.length_eq_one_iff.mp single
    have parent : g.parent d = some c :=
      (hg.mem_children_iff d c).mp (hd ▸ List.mem_singleton_self d)
    have root : g.root d = r := by
      rw [root_of_parent hg.toWellFormed parent]
      exact hg.mem_walk_iff.mp hc
    exact TreeRule.length_children_ne_one
      (quiet _ List.mem_cons_self d root) parent single
  · intro c hc hcr
    have root := hg.mem_walk_iff.mp hc
    obtain ⟨p, hp⟩ : ∃ p, g.parent c = some p := by
      refine Option.ne_none_iff_exists'.mp fun hnone => hcr ?_
      rw [← root, root_of_root hnone]
    obtain ⟨u, scores, hu, large, hscores, high⟩ := TreeRule.consistent_of_evict
      (quiet (.evict k) (by simp [rules]) c root) hp
    refine ⟨u, scores, hu, View.nodup_vertexList_of_induced hu,
      fun id => View.mem_vertexList_of_induced hu, ?_, hscores, ?_⟩
    · rw [View.length_vertexList]; exact large
    · intro i s hi hs
      have fits := high i hi
      rwa [Guard.scoresLow, hs, Option.any_some] at fits
  · intro c hc p hp hpr
    have root := hg.mem_walk_iff.mp hc
    have inner : g.isRoot p = false := by
      refine Bool.eq_false_iff.mpr fun top => hpr ?_
      rw [← root, root_of_parent hg.toWellFormed hp,
        root_of_root (Option.isNone_iff_eq_none.mp top)]
    obtain ⟨u, x, hu, hx, enough⟩ := TreeRule.overlap_of_climb hg.toWellFormed
      (quiet (.climb k.graph minOverlap) (by simp [rules]) c root) hp inner
    refine ⟨u, x, hu, hx, ?_⟩
    cases hnan : Scalar.isNan x with
    | true => exact .inl rfl
    | false => exact .inr ⟨hnan, number, enough⟩

/-- In the first round the chain above the two joined pairs collapses.  Of the weight of either
pair, six of seven units are then inside. -/
theorem settled_tree_layered : ∃ g, Settles (step halves (1 / 2) 9 0) 9 layered g ∧
    g.walk 0 = [0, 1, 3, 4, 5] ∧ g.parent 3 = some 1 ∧
    (∀ c ∈ g.walk 0, (g.children c).length ≠ 1) ∧
    (∀ c ∈ g.walk 0, c ≠ 0 → ∃ u scores, threePairs.induced (g.aggregate c) = .ok u ∧
      Metric.relativeWeight threePairs u = .ok scores ∧
        ∀ i s, i < u.order → scores[i]? = some s → 1 / 2 ≤ s) ∧
    ∃ u x, threePairs.induced (g.aggregate 3) = .ok u ∧
      TreeRule.overlap threePairs u g 1 = .ok x ∧ 1 / 2 ≤ x := by
  obtain ⟨g, settles, walk, parent⟩ : ∃ g, Settles (step halves (1 / 2) 9 0) 9 layered g ∧
      g.walk 0 = [0, 1, 3, 4, 5] ∧ g.parent 3 = some 1 :=
    ⟨_, .more (by cbv) (.stop (by cbv)), by cbv, by cbv⟩
  obtain ⟨-, children, fit, overlaps⟩ :=
    settled_tree rooted_layered (rfl : (Number.int 9).toInt? = some 9) rfl settles
  obtain ⟨u, x, hu, hx, enough⟩ := overlaps 3 (by rw [walk]; decide) 1 parent (by decide)
  refine ⟨g, settles, walk, parent, children, ?_, u, x, hu, hx, ?_⟩
  · intro c hc below
    obtain ⟨u, scores, hu, -, -, -, hscores, high⟩ := fit c hc below
    exact ⟨u, scores, hu, hscores, fun i s hi hs => less_rat_eq_false.mp (high i s hi hs)⟩
  · exact Scalar.atLeast_rat_iff.mp (enough.resolve_left Bool.false_ne_true)

/-! ## An overlap that is no number -/

/-- Three pairs of vertices. -/
def pairEdges (x y z : α) : Multigraph α :=
  ⟨[(10, 20, x), (30, 40, y), (50, 60, z)], [], none⟩

def pairStore (x y z : α) : Store α :=
  .ofEntries #[10, 20, 30, 40, 50, 60] [⟨0, 1, x⟩, ⟨1, 0, x⟩, ⟨2, 3, y⟩, ⟨3, 2, y⟩, ⟨4, 5, z⟩,
    ⟨5, 4, z⟩]

omit [Scalar α] in
theorem vertexList_pairStore (x y z : α) :
    (View.whole (pairStore x y z) none).vertexList = [10, 20, 30, 40, 50, 60] := by
  cbv

theorem graph_pairEdges {x y z : α} (admissible : (pairEdges x y z).Admissible)
    (weighty : ∀ w ∈ [x, y, z], Scalar.isZero w = false) :
    (pairEdges x y z).graph none = .ok (.whole (pairStore x y z) none) := by
  have ids : (pairEdges x y z).ids = [10, 30, 50, 20, 40, 60] := rfl
  have labels : (pairEdges x y z).labels = #[10, 20, 30, 40, 50, 60] := by cbv
  have merged : Entry.mergeRuns ((Entry.symmetric (pairEdges x y z).entries).mergeSort
      Entry.before) = [⟨0, 1, x⟩, ⟨1, 0, x⟩, ⟨2, 3, y⟩, ⟨3, 2, y⟩, ⟨4, 5, z⟩, ⟨5, 4, z⟩] := by
    cbv
  rw [pairStore, ← labels]
  exact Multigraph.graph_of_merged ⟨by rw [ids]; decide, fun _ h => by cases h⟩ admissible merged
    (by simpa using weighty) none

/-- Two pairs below a child of the root, and the third below the root. -/
def forked : Forest :=
  let fork := ((Forest.empty.spawn none).1.spawn (some 0)).1
  let first := (fork.spawn (some 1)).1.addToRemainder 2 [10, 20]
  let second := (first.spawn (some 1)).1.addToRemainder 3 [30, 40]
  (second.spawn (some 0)).1.addToRemainder 4 [50, 60]

theorem rooted_forked : forked.Rooted 0 := by
  have first := rooted_single.spawn (p := 0) (by decide)
  have second := (first.spawn (p := 1) (by decide)).addToRemainder 2 [10, 20]
  have third := (second.spawn (p := 1) (by decide)).addToRemainder 3 [30, 40]
  exact (third.spawn (p := 0) (by decide)).addToRemainder 4 [50, 60]

theorem walk_forked : forked.walk 0 = [0, 1, 2, 3, 4] := by
  cbv

/-- The rows of the clusters below the root. -/
def forkedRows : ClusterId → List Nat
  | 1 => [0, 1, 2, 3]
  | 2 => [0, 1]
  | 3 => [2, 3]
  | _ => [4, 5]

omit [Scalar α] in
theorem aggregateView_forked (x y z : α) {c : ClusterId} (hc : c ∈ [1, 2, 3, 4]) :
    TreeRule.aggregateView (.whole (pairStore x y z) none) forked c =
      .ok ⟨pairStore x y z, (forkedRows c).toArray, none⟩ := by
  simp only [List.mem_cons, List.not_mem_nil, or_false] at hc
  rcases hc with rfl | rfl | rfl | rfl <;> cbv

/-- The weight of the first pair is finite, and twice that is not. -/
def heavy : View Float :=
  .whole (pairStore 1.7e308 1 1) none

theorem graph_heavy : (pairEdges 1.7e308 1 1).graph none = .ok heavy :=
  graph_pairEdges ⟨by decide, by decide +kernel, fun _ h => by cases h⟩ (by decide +kernel)

/-- Clusters of two or more, and the default settings otherwise. -/
def atLeastTwo : Settings :=
  (Settings.defaults.set .minClusterSize (.number (.int 2))).settings false

def heavyGuard : Guard Float :=
  (atLeastTwo.clustering .relativeWeight heavy).guard

theorem firm_forked {c : ClusterId} (hc : c ∈ [1, 2, 3, 4]) :
    TreeRule.Firm heavyGuard forked c := by
  refine ⟨_, aggregateView_forked _ _ _ hc, ?_, ?_⟩
  · revert c
    decide +kernel
  · revert c
    decide +kernel

/-- The weight of all of the first pair is infinite in its cluster and in the parent. -/
theorem overlap_forked {c : ClusterId} (hc : c ∈ [2, 3]) : ∃ x,
    TreeRule.overlap heavy ⟨pairStore 1.7e308 1 1, (forkedRows c).toArray, none⟩ forked 1 = .ok x ∧
      Scalar.isNan x = decide (c = 2) ∧ Scalar.less x 0.4 = false := by
  have found : ((TreeRule.overlap heavy ⟨pairStore 1.7e308 1 1, (forkedRows c).toArray, none⟩
      forked 1).toOption.map fun x => (Scalar.isNan x, Scalar.less x 0.4)) =
        some (decide (c = 2), false) := by
    rw [TreeRule.overlap, heavy, aggregateView_forked _ _ _ (by decide)]
    revert c
    decide +kernel
  obtain ⟨x, hx, compared⟩ := Option.map_eq_some_iff.mp found
  obtain ⟨nan, low⟩ := Prod.mk.inj compared
  exact ⟨x, eq_ok_of_toOption hx, nan, low⟩

/-- None of the rules has anything to do. -/
theorem idle_forked {rule : TreeRule} (h : rule ∈ rules heavyGuard 0.4) :
    Idle (fun _ _ => False) 0 forked rule := by
  intro c hc
  rw [← rooted_forked.mem_walk_iff, walk_forked] at hc
  left
  rcases List.mem_cons.mp hc with rfl | hc
  · exact eq_ok_of_parentless rfl h
  simp only [rules, List.mem_cons, List.not_mem_nil, or_false] at h
  rcases h with rfl | rfl | rfl
  · simp only [List.mem_cons, List.not_mem_nil, or_false] at hc
    rcases hc with rfl | rfl | rfl | rfl <;> rfl
  · exact (firm_forked hc).evict_eq
  · refine TreeRule.climb_of_overlap rooted_forked.toWellFormed fun p hp inner => ?_
    obtain ⟨low, rfl⟩ : c ∈ [2, 3] ∧ p = 1 := by
      simp only [List.mem_cons, List.not_mem_nil, or_false] at hc
      rcases hc with rfl | rfl | rfl | rfl <;> cases hp
      · cases inner
      · exact ⟨by decide, rfl⟩
      · exact ⟨by decide, rfl⟩
      · cases inner
    obtain ⟨x, hx, -, enough⟩ := overlap_forked low
    exact ⟨_, x, aggregateView_forked _ _ _ hc, hx, enough⟩

/-- Postprocessing leaves the tree as it is, with a cluster whose overlap is not at least the
threshold. -/
theorem settled_heavy : ∃ s v,
    Settings.ofValues [("min_cluster_size", .number (.int 2))] false = .ok s ∧
    (pairEdges 1.7e308 1 1).graph none = .ok v ∧ forked.Rooted 0 ∧
    (∀ id ∈ forked.aggregate 0, id ∈ v.vertexList) ∧
    let k := s.clustering .relativeWeight v
    run (passes k.guard k.minOverlap) k.passLimit 0 forked = (forked, .ok false) ∧
    Settles (step k.guard k.minOverlap 100 0) 100 forked forked ∧
    2 ∈ forked.walk 0 ∧ forked.parent 2 = some 1 ∧
    ∃ u x, v.induced (forked.aggregate 2) = .ok u ∧ TreeRule.overlap v u forked 1 = .ok x ∧
      ¬ k.minOverlap ≤ x := by
  have idle := fun rule (h : rule ∈ rules heavyGuard 0.4) => idle_forked h
  have still := (round_still idle 100 false).resolve_right fun ⟨_, _, impossible⟩ => impossible
  have stopped := (run_still (0.4 : Float) idle
    (rfl : (Number.int 100).toInt? = some 100)).resolve_right fun ⟨_, _, impossible⟩ => impossible
  have inside : ∀ id ∈ forked.aggregate 0, id ∈ heavy.vertexList := by
    have vertices : forked.aggregate 0 = [10, 20, 30, 40, 50, 60] := by cbv
    rw [vertices, heavy, vertexList_pairStore]
    exact fun _ => id
  have passes : (Settings.defaults.set .minClusterSize (.number (.int 2))).Passes :=
    Settings.passes_defaults.set (by decide)
  obtain ⟨x, hx, nan, -⟩ := overlap_forked (c := 2) (by decide)
  refine ⟨atLeastTwo, heavy, passes.ofDraft_eq false, graph_heavy, rooted_forked, inside,
    stopped, .stop still, by rw [walk_forked]; decide, rfl, _, x,
    aggregateView_forked _ _ _ (by decide), hx, ?_⟩
  rw [← Scalar.atLeast_float_iff]
  rintro ⟨number, -⟩
  rw [nan] at number
  cases number

end Postprocessing

end GraphClustering
