import GraphClustering.Proofs.Cluster.Weightless
import GraphClustering.Proofs.Graph.Built
import GraphClustering.Proofs.Settings
import GraphClustering.Proofs.Spectral.Signs

/-!
# Clustering a graph without edges

Every vertex of such a graph is a component of its own.  Unless a single vertex makes
a cluster, all of them stay with the root; otherwise each gets a cluster of its own
(`Star`), and these are dissolved again if the threshold is above zero.
-/

namespace GraphClustering

open Forest

/-- A root that owns no vertex, with clusters of one vertex each below it. -/
structure Forest.Star (r : ClusterId) (f : Forest) : Prop where
  rooted : f.Rooted r
  empty : f.remainder r = []
  below : ∀ c p, f.parent c = some p → p = r ∧ (f.remainder c).length = 1

namespace Forest.Star

variable {f : Forest} {r c p : ClusterId}

/-- A cluster below the root has no children. -/
theorem children_eq_nil (hf : f.Star r) (hp : f.parent c = some p) : f.children c = [] := by
  refine List.eq_nil_iff_forall_not_mem.mpr fun d hd => ?_
  obtain ⟨rfl, -⟩ := hf.below d c ((hf.rooted.mem_children_iff d c).mp hd)
  rw [hf.rooted.parentless] at hp
  cases hp

theorem walk_eq (hf : f.Star r) (hp : f.parent c = some p) : f.walk c = [c] := by
  rw [Forest.walk_eq hf.rooted.toWellFormed (lt_size_of_parent hp), hf.children_eq_nil hp]
  rfl

theorem aggregate_eq (hf : f.Star r) (hp : f.parent c = some p) :
    f.aggregate c = f.remainder c := by
  rw [aggregate, hf.walk_eq hp, List.flatMap_singleton]

/-- The tree has as many vertices as there are clusters below the root. -/
theorem length_aggregate (hf : f.Star r) : (f.aggregate r).length = (f.children r).length := by
  have leaf : ∀ c ∈ f.children r, f.parent c = some r := fun c hc =>
    (hf.rooted.mem_children_iff c r).mp hc
  rw [aggregate, Forest.walk_eq hf.rooted.toWellFormed hf.rooted.lt_size, List.flatMap_cons,
    hf.empty, List.nil_append, List.flatMap_congr fun c hc => hf.walk_eq (leaf c hc),
    List.flatMap_singleton', List.length_flatMap,
    List.map_congr_left fun c hc => (hf.below c r (leaf c hc)).2, List.map_const',
    List.sum_replicate, smul_eq_mul, Nat.mul_one]

/-- A new cluster for a single vertex. -/
theorem spawn (hf : f.Star r) {ids : List Int} (single : ids.length = 1) :
    ((f.spawn (some r)).1.addToRemainder f.size ids).Star r := by
  have links := SameLinks.addToRemainder (f.spawn (some r)).1 f.size ids
  have new : f.size < (f.spawn (some r)).1.size := by rw [size_spawn]; exact Nat.lt_succ_self _
  have remainder : ∀ d, ((f.spawn (some r)).1.addToRemainder f.size ids).remainder d =
      if d = f.size then ids else f.remainder d := by
    intro d
    rw [remainder_addToRemainder _ _ _ _ new, remainder_spawn]
    split
    · rename_i same
      rw [same, Forest.remainder, cluster_of_size_le le_rfl]
      rfl
    · rfl
  have other : r ≠ f.size := ne_of_lt hf.rooted.lt_size
  refine ⟨links.rooted (hf.rooted.spawn hf.rooted.lt_size), ?_, ?_⟩
  · rw [remainder, if_neg other, hf.empty]
  · intro d q hq
    rw [links.parent, parent_spawn] at hq
    rw [remainder]
    split at hq
    · rename_i same
      cases hq
      rw [if_pos same]
      exact ⟨rfl, single⟩
    · rename_i old
      rw [if_neg old]
      exact hf.below d q hq

end Forest.Star

variable {α : Type} [Scalar α]

namespace Postprocessing

variable {g : Guard α} {minOverlap : α} {r : ClusterId} {f : Forest} {rule : TreeRule}

open TreeRule

/-- Under a threshold not above zero, clusters of one vertex each stay as they are if
they may have so few vertices and if there are several. -/
theorem idle_of_star (w : g.Weightless) (low : Scalar.less 0 g.minLikelihood = false)
    (fine : Number.less (.int 1) g.minSize = false) (hf : f.Star r) (within : Within g r f)
    (several : (f.children r).length ≠ 1) (h : rule ∈ rules g minOverlap) :
    Idle (fun _ => g.graph.Understaffed) r f rule := by
  intro c hc
  cases hp : f.parent c with
  | none => exact .inl (eq_ok_of_parentless hp h)
  | some p =>
      obtain ⟨rfl, single⟩ := hf.below c p hp
      simp only [rules, List.mem_cons, List.not_mem_nil, or_false] at h
      rcases h with rfl | rfl | rfl
      · rw [collapse, hp]
        dsimp only
        rw [if_neg several]
        exact .inl rfl
      · obtain ⟨u, hu, part⟩ := exists_aggregate_partOf w.compressed within.1 within.2 hc
        have one : u.order = 1 := by
          obtain ⟨id, hid⟩ := List.length_eq_one_iff.mp single
          rw [aggregateView, hf.aggregate_eq hp, hid] at hu
          exact View.order_of_induced hu (List.nodup_singleton id)
        have large : Number.less (.int u.order) g.minSize = false := by
          rw [one, Nat.cast_one, fine]
        rw [evict_of_parent hp, hu]
        rcases w.ensure_of_low low part large with h | ⟨e, h, he⟩
        · simp only [bind, Except.bind, h]
          exact .inl rfl
        · simp only [bind, Except.bind, h]
          exact .inr ⟨e, rfl, he⟩
      · have top : f.isRoot p = true := by rw [isRoot, hf.rooted.parentless]; rfl
        rw [climb, hp]
        dsimp only
        rw [if_pos top]
        exact .inl rfl

end Postprocessing

namespace Clustering

variable {k : Clustering α} {v u : View α} {t : Task α} {p : Progress α} {m : Int}

/-! ## A root that keeps all vertices -/

/-- A split, not further qualified, for all views without two vertices. -/
def SplitsSmall (k : Clustering α) : Prop :=
  ∀ u, u.order ≤ 1 → ∃ positive, k.bisector u = .ok (.signs positive)

/-- What is done to a part without two vertices. -/
theorem partPlacements_of_few (hm : k.minSize = .int m) (pos : 1 ≤ m) (hu : u.order ≤ 1)
    (ht : t.view.order = 1) : k.partPlacements t u = .ok [.owned u.vertexList] := by
  rw [partPlacements, if_pos]
  rcases Nat.le_one_iff_eq_zero_or_eq_one.mp hu with none | one
  · rw [isSmall, hm, none, Number.less_int, decide_eq_true (by omega : ((0 : Nat) : Int) < m),
      Bool.true_or]
  · rw [one, ht, beq_self_eq_true, Bool.or_true]

/-- Progress that has made no cluster but the first, at a view without edges. -/
structure Undivided (v : View α) (p : Progress α) : Prop where
  size : p.forest.size = 1
  view : ∀ t ∈ p.queue, t.view = v
  single : ∀ t ∈ p.queue, t.stage = .component → v.order = 1

/-- Vertices that stay, or a single vertex that goes back to the queue. -/
def Stays (v : View α) (c : Placement α) : Prop :=
  (∃ ids, c = .owned ids) ∨ c = .again ∧ v.order = 1

omit [Scalar α] in
theorem Undivided.foldl_put {ps : List (Placement α)} (h : Undivided v p) (ht : t.view = v)
    (hps : ∀ c ∈ ps, Stays v c) : Undivided v (ps.foldl (Placement.put t) p) := by
  induction ps generalizing p with
  | nil => exact h
  | cons c ps ih =>
      refine ih ?_ fun d hd => hps d (List.mem_cons_of_mem _ hd)
      rcases hps c List.mem_cons_self with ⟨ids, rfl⟩ | ⟨rfl, one⟩
      · exact ⟨(size_addToRemainder ..).trans h.size, h.view, h.single⟩
      · refine ⟨h.size, fun s hs => ?_, fun _ _ _ => one⟩
        rcases List.mem_append.mp hs with hs | hs
        · exact h.view s hs
        · rw [List.mem_singleton.mp hs]
          exact ht

/-- Unless single vertices make clusters, or if there is no other, all vertices stay. -/
theorem placements_of_undivided (free : v.EdgeFree) (hm : k.minSize = .int m) (pos : 1 ≤ m)
    (few : m ≠ 1 ∨ v.order ≤ 1) (splits : k.SplitsSmall) (ht : t.view = v)
    (single : t.stage = .component → v.order = 1) :
    ∃ ps, k.placements t = .ok ps ∧ ∀ c ∈ ps, Stays v c := by
  have components : ∀ c ∈ t.view.components.map (k.componentPlacement t), Stays v c := by
    intro c hc
    obtain ⟨u, hu, rfl⟩ := List.mem_map.mp hc
    rw [ht] at hu
    have one := free.order_of_mem_components hu
    have le := (View.partOf_of_mem_components hu).order_le
    rw [componentPlacement, ht, one]
    split_ifs with same small minimal
    · exact .inr ⟨rfl, same.symm⟩
    · exact .inl ⟨_, rfl⟩
    all_goals
      rw [isSmall, hm, one, Number.less_int, decide_eq_true_eq] at small
      omega
  rw [placements]
  cases hs : t.stage with
  | whole => exact ⟨_, rfl, components⟩
  | spectral => exact ⟨_, rfl, components⟩
  | component =>
      have one : t.view.order = 1 := ht ▸ single hs
      obtain ⟨positive, hb⟩ := splits t.view one.le
      have part : ∀ w ∈ Bisection.parts t.view positive,
          k.partPlacements t w = .ok [.owned w.vertexList] := fun w hw =>
        partPlacements_of_few hm pos (one ▸ (View.partOf_of_mem_parts hw).order_le) one
      simp only [splitPlacements, hb, bind, Except.bind, Bisection.parts, partsPlacements,
        part _ List.mem_cons_self, part _ (List.mem_cons_of_mem _ List.mem_cons_self)]
      refine ⟨_, rfl, fun c hc => .inl ?_⟩
      simp only [List.cons_append, List.nil_append, List.mem_cons, List.not_mem_nil,
        or_false] at hc
      rcases hc with rfl | rfl
      · exact ⟨_, rfl⟩
      · exact ⟨_, rfl⟩

theorem queuePhase_of_undivided (free : v.EdgeFree) (hm : k.minSize = .int m) (pos : 1 ≤ m)
    (few : m ≠ 1 ∨ v.order ≤ 1) (splits : k.SplitsSmall) :
    ∃ p, k.queuePhase v .whole = .ok p ∧ p.forest.size = 1 := by
  have begun : Undivided v (start v .whole) := by
    refine ⟨rfl, fun t ht => ?_, fun t ht hs => ?_⟩
    · rw [List.mem_singleton.mp ht]
    · rw [List.mem_singleton.mp ht] at hs
      cases hs
  refine (exists_drain (k := k) (P := Undivided v) ?_ (taskBound v.order) begun).imp
    fun p hp => ⟨hp.1, hp.2.size⟩
  intro p t rest h hq
  have ht : t ∈ p.queue := hq ▸ List.mem_cons_self
  obtain ⟨ps, hps, stay⟩ := placements_of_undivided free hm pos few splits (h.view t ht)
    (h.single t ht)
  refine ⟨ps, hps, Undivided.foldl_put ⟨?_, ?_, ?_⟩ (h.view t ht) stay⟩
  · rw [forest_counted]
    exact h.size
  · intro s hs
    rw [queue_counted] at hs
    exact h.view s (hq ▸ List.mem_cons_of_mem _ hs)
  · intro s hs
    rw [queue_counted] at hs
    exact h.single s (hq ▸ List.mem_cons_of_mem _ hs)

/-! ## A cluster for every vertex -/

/-- Progress that has made clusters of one vertex each and has no further task for them. -/
structure Scattered (v : View α) (p : Progress α) : Prop where
  star : p.forest.Star 0
  tasks : ∀ t ∈ p.queue, t = ⟨v, .whole, 0⟩

omit [Scalar α] in
theorem Scattered.foldl_put {us : List (View α)} (h : Scattered v p)
    (single : ∀ u ∈ us, u.order = 1) :
    Scattered v ((us.map Placement.terminal).foldl (Placement.put ⟨v, .whole, 0⟩) p) := by
  induction us generalizing p with
  | nil => exact h
  | cons u us ih =>
      refine ih ⟨h.star.spawn ?_, h.tasks⟩ fun u' hu' => single u' (List.mem_cons_of_mem _ hu')
      rw [View.length_vertexList, single u List.mem_cons_self]

theorem queuePhase_of_scattered (free : v.EdgeFree) (hm : k.minSize = .int 1)
    (several : 2 ≤ v.order) : ∃ p, k.queuePhase v .whole = .ok p ∧ p.forest.Star 0 := by
  have begun : Scattered v (start v .whole) := by
    refine ⟨⟨rooted_single, rfl, fun c p hp => ?_⟩, fun t ht => ?_⟩
    · have none : (Forest.empty.spawn none).1.parent c = none := by
        rw [Forest.spawn, parent, cluster_push]
        split <;> rfl
      cases none.symm.trans hp
    · exact List.mem_singleton.mp ht
  refine (exists_drain (k := k) (P := Scattered v) ?_ (taskBound v.order) begun).imp
    fun p hp => ⟨hp.1, hp.2.star⟩
  intro p t rest h hq
  obtain rfl := h.tasks t (hq ▸ List.mem_cons_self)
  have single := fun u (hu : u ∈ v.components) => free.order_of_mem_components hu
  refine ⟨v.components.map .terminal, ?_, ?_⟩
  · rw [placements]
    refine congrArg Except.ok (List.map_congr_left fun u hu => ?_)
    have one := single u hu
    rw [componentPlacement, isSmall, isMinimal, hm, one, Nat.cast_one, Number.less_int,
      Number.same_int, if_neg (by dsimp only; omega), if_neg (by decide), if_pos (by decide)]
  · refine Scattered.foldl_put ⟨h.star, fun s hs => ?_⟩ single
    exact h.tasks s (hq ▸ List.mem_cons_of_mem _ hs)

/-! ## A whole run -/

/-- A root without children that owns every vertex of a view once. -/
def Gathered (v : View α) (p : Progress α) : Prop :=
  p.forest.children 0 = [] ∧ (p.forest.remainder 0).Perm v.vertexList

/-- A root that owns no vertex, with a cluster below it for every vertex of a view. -/
def Separate (v : View α) (p : Progress α) : Prop :=
  p.forest.Star 0 ∧ (p.forest.children 0).length = v.order ∧
    (p.forest.aggregate 0).Perm v.vertexList

omit [Scalar α] in
theorem lone_of_size (hf : p.forest.Rooted 0) (h : p.forest.size = 1) :
    Postprocessing.Lone 0 p.forest := by
  refine ⟨hf, fun c hc => ?_⟩
  have lt := hf.lt_size_of_mem_tree (hf.mem_tree_iff.mpr hc)
  rwa [h, Nat.lt_one_iff] at lt

omit [Scalar α] in
theorem gathered_of_lone (alone : Postprocessing.Lone 0 p.forest)
    (perm : (p.forest.aggregate 0).Perm v.vertexList) : Gathered v p := by
  rw [alone.aggregate_eq] at perm
  exact ⟨alone.children_eq_nil, perm⟩

omit [Scalar α] in
theorem separate_of_star (star : p.forest.Star 0)
    (perm : (p.forest.aggregate 0).Perm v.vertexList) : Separate v p :=
  ⟨star, by rw [← star.length_aggregate, perm.length_eq, View.length_vertexList], perm⟩

variable {n : Int}

theorem run_of_undivided (w : k.guard.Weightless) (hm : k.minSize = .int m) (pos : 1 ≤ m)
    (few : m ≠ 1 ∨ k.guard.graph.order ≤ 1) (hn : k.passLimit.toInt? = some n)
    (hsigns : k.SignsEach) (splits : k.SplitsSmall) :
    ∃ q, k.run k.guard.graph = .ok q ∧ Gathered k.guard.graph q := by
  obtain ⟨p, hp, size⟩ := queuePhase_of_undivided w.free hm pos few splits
  obtain ⟨rooted, perm⟩ := rooted_of_queuePhase (atLeastOne_of_int hm pos) hsigns
    w.compressed.nodup_vertexList hp
  have alone := lone_of_size rooted size
  rcases Postprocessing.run_still k.minOverlap (fun _ => alone.idle (g := k.guard)) hn with
    still | ⟨_, _, impossible⟩
  · exact ⟨p, by rw [run_of_queuePhase hp, still]; rfl, gathered_of_lone alone perm⟩
  · exact impossible.elim

theorem run_of_scattered (w : k.guard.Weightless) (hm : k.minSize = .int 1)
    (several : 2 ≤ k.guard.graph.order) (hn : k.passLimit.toInt? = some n) (hpass : 1 ≤ n)
    (hsigns : k.SignsEach) :
    (∃ e, k.run k.guard.graph = .error e ∧ k.guard.graph.Understaffed e) ∨
    ∃ q, k.run k.guard.graph = .ok q ∧
      if Scalar.less 0 k.guard.minLikelihood = true then Gathered k.guard.graph q
      else Separate k.guard.graph q := by
  obtain ⟨p, hp, star⟩ := queuePhase_of_scattered w.free hm several
  have perm := (rooted_of_queuePhase (atLeastOne_of_int hm le_rfl) hsigns
    w.compressed.nodup_vertexList hp).2
  have within : Postprocessing.Within k.guard 0 p.forest :=
    ⟨star.rooted, fun id hid => perm.subset hid⟩
  split_ifs with high
  · rcases Postprocessing.lone_of_run w high k.minOverlap within hn hpass with
      ⟨f, b, h, alone⟩ | ⟨f, e, h, he⟩
    · have rewrites := Postprocessing.rewrites_run star.rooted k.guard k.minOverlap k.passLimit
      rw [h] at rewrites
      have same := (conserves_of_rewrites star.rooted rewrites).aggregate_perm
        (perm.nodup_iff.mpr w.compressed.nodup_vertexList)
      exact .inr ⟨{ p with forest := f }, by rw [run_of_queuePhase hp, h]; rfl,
        gathered_of_lone alone (same.trans perm)⟩
    · exact .inl ⟨e, by rw [run_of_queuePhase hp, h]; rfl, he⟩
  · have separate := separate_of_star star perm
    have fine : Number.less (.int 1) k.guard.minSize = false := by
      rw [show k.guard.minSize = .int 1 from hm, Number.less_int]
      rfl
    rcases Postprocessing.run_still k.minOverlap (fun _ => Postprocessing.idle_of_star w
      (Bool.eq_false_iff.mpr high) fine star within (by rw [separate.2.1]; omega)) hn with
      still | ⟨e, h, he⟩
    · exact .inr ⟨p, by rw [run_of_queuePhase hp, still]; rfl, separate⟩
    · exact .inl ⟨e, by rw [run_of_queuePhase hp, h]; rfl, he⟩

/-- What becomes of a graph without edges: all vertices stay with the root, or, where
single vertices make clusters and a score of zero is high enough for them, each of
several vertices has a cluster of its own below the root. -/
theorem run_of_weightless (w : k.guard.Weightless) (hm : k.minSize = .int m) (pos : 1 ≤ m)
    (hn : k.passLimit.toInt? = some n) (hpass : 1 ≤ n) (hsigns : k.SignsEach)
    (splits : k.SplitsSmall) :
    (∃ e, k.run k.guard.graph = .error e ∧ k.guard.graph.Understaffed e) ∨
    ∃ q, k.run k.guard.graph = .ok q ∧
      if m = 1 ∧ 2 ≤ k.guard.graph.order ∧ Scalar.less 0 k.guard.minLikelihood = false then
        Separate k.guard.graph q
      else Gathered k.guard.graph q := by
  by_cases few : m ≠ 1 ∨ k.guard.graph.order ≤ 1
  · obtain ⟨q, hq, gathered⟩ := run_of_undivided w hm pos few hn hsigns splits
    refine .inr ⟨q, hq, ?_⟩
    rwa [if_neg (by omega)]
  · obtain ⟨rfl, several⟩ : m = 1 ∧ 2 ≤ k.guard.graph.order := by omega
    refine (run_of_scattered w hm several hn hpass hsigns).imp id ?_
    rintro ⟨q, hq, outcome⟩
    refine ⟨q, hq, ?_⟩
    cases high : Scalar.less 0 k.guard.minLikelihood with
    | false =>
        rw [if_neg (by rw [high]; decide)] at outcome
        rwa [if_pos ⟨rfl, several, rfl⟩]
    | true =>
        rw [if_pos high] at outcome
        rwa [if_neg (by simp)]

/-! ## Settings -/

omit [Scalar α] in
theorem edgeFree_whole_nil (labels : Array Int) (workers : Option Int) :
    (View.whole (Store.ofEntries labels ([] : List (Entry α))) workers).EdgeFree := by
  intro r hr
  rw [View.whole, Array.toList_range, List.mem_range, Store.order_ofEntries] at hr
  change Store.degree (Store.ofEntries labels ([] : List (Entry α))) r = 0
  rw [Store.degree, Store.span_ofEntries .nil hr]
  rfl

theorem splitsSmall_clustering (s : Settings) (metric : Metric Float) (graph : View Float) :
    (s.clustering metric graph).SplitsSmall := by
  intro u hu
  refine ⟨(List.replicate u.order (0 : Float)).map SignTrail.positive, ?_⟩
  change Bisection.spectral s u = _
  rw [Bisection.spectral, Bisection.attempt, if_pos hu]
  rfl

theorem weightless_clustering {s : Settings} {v : View Float} (hm : s.minClusterSize = .int m)
    (pos : 1 ≤ m) (hv : v.Compressed) (free : v.EdgeFree) :
    (s.clustering .relativeWeight v).guard.Weightless where
  metric := rfl
  compressed := hv
  free := free
  zero := by decide
  populated := by
    change Number.less (.int 0) s.minClusterSize = true
    rw [hm, Number.less_int, decide_eq_true_eq]
    omega

/-- A graph without edges, under settings with whole numbers for the minimum size and the
limit on passes: the root has no children and owns every vertex once, except that under a
minimum size of one and a threshold not above zero each of several vertices is a cluster
of its own below the root.  Only for want of workers there may be no tree. -/
theorem run_edgeFree {s : Settings} {v : View Float} {n : Int} (hm : s.minClusterSize = .int m)
    (pos : 1 ≤ m) (hn : s.maxPostprocessingPasses = .int n) (hpass : 1 ≤ n) (hv : v.Compressed)
    (free : v.EdgeFree) :
    let k := s.clustering .relativeWeight v
    (∃ e, k.run v = .error e ∧ v.Understaffed e) ∨
    ∃ q, k.run v = .ok q ∧
      if m = 1 ∧ 2 ≤ v.order ∧ Scalar.less 0 k.guard.minLikelihood = false then Separate v q
      else Gathered v q :=
  run_of_weightless (weightless_clustering hm pos hv free) hm pos (n := n)
    (congrArg Number.toInt? hn) hpass (signsEach_clustering s .relativeWeight v)
    (splitsSmall_clustering s .relativeWeight v)

/-- Two vertices without an edge. -/
def apart : View Float :=
  .whole (.ofEntries #[10, 20] []) none

theorem lawful_apart : apart.Lawful :=
  Builder.whole_lawful (Store.lawful_ofEntries .nil (by simp) (by decide) (by simp)) none

theorem edgeFree_apart : apart.EdgeFree :=
  edgeFree_whole_nil #[10, 20] none

/-- A minimum size of one and the given threshold. -/
def singly (threshold : Float) : Settings.Draft :=
  (Settings.defaults.set .minClusterSize (.number (.int 1))).set .minClusterLikelihood
    (.number (.real threshold))

theorem ofValues_singly {threshold : Float}
    (h : Setting.Rule.unit.refuses (.real threshold) = false) :
    Settings.ofValues [("min_cluster_size", .number (.int 1)),
      ("min_cluster_likelihood", .number (.real threshold))] false =
        .ok ((singly threshold).settings false) := by
  have passes : (singly threshold).Passes :=
    (Settings.passes_defaults.set (f := .minClusterSize) (by decide +kernel)).set h
  exact passes.ofDraft_eq false

/-- Under a threshold of one both vertices stay with the root. -/
theorem run_edgeFree_apart : ∃ q,
    (((singly 1).settings false).clustering .relativeWeight apart).run apart = .ok q ∧
      q.forest.children 0 = [] ∧ (q.forest.remainder 0).Perm [10, 20] := by
  have outcome := run_edgeFree (s := (singly 1).settings false) (m := 1) (n := 100) rfl le_rfl rfl
    (by decide) lawful_apart.mirrored.toCompressed edgeFree_apart
  rcases outcome with ⟨e, -, few⟩ | ⟨q, hq, outcome⟩
  · exact absurd (.inl (by decide)) few.2
  · have vertices : apart.vertexList = [10, 20] := by cbv
    rw [if_neg (by rintro ⟨-, -, low⟩; revert low; decide +kernel), Gathered, vertices] at outcome
    exact ⟨q, hq, outcome⟩

/-- Under a threshold of zero both have clusters of their own. -/
theorem run_apart_scattered : ∃ s q,
    Settings.ofValues [("min_cluster_size", .number (.int 1)),
      ("min_cluster_likelihood", .number (.real 0))] false = .ok s ∧
    apart.Lawful ∧ apart.EdgeFree ∧ (s.clustering .relativeWeight apart).run apart = .ok q ∧
      (q.forest.children 0).length = 2 ∧ q.forest.remainder 0 = [] := by
  have weightless := weightless_clustering (s := (singly 0).settings false) rfl le_rfl
    lawful_apart.mirrored.toCompressed edgeFree_apart
  rcases run_of_weightless (n := 100) weightless rfl le_rfl rfl (by decide)
    (signsEach_clustering _ _ _) (splitsSmall_clustering _ _ _) with
    ⟨e, -, few⟩ | ⟨q, hq, outcome⟩
  · exact absurd (.inl (by decide)) few.2
  · rw [if_pos ⟨rfl, by decide, by decide⟩] at outcome
    exact ⟨_, q, ofValues_singly (by decide +kernel), lawful_apart, edgeFree_apart, hq, outcome.2.1,
      outcome.1.empty⟩

end Clustering

end GraphClustering
