import GraphClustering.Proofs.Cluster.Ranking
import GraphClustering.Proofs.Cluster.RelativeWeight
import GraphClustering.Proofs.Graph.RoundedWeights

/-!
# Digests

The digest of a cluster ranks its vertices, each by its own weight inside the cluster and by the
share that this is of its weight in the graph (`Ranked.describe`), and has the first ones in this
order (`Digest.Ranks`).  Digests with other limits are the same ranking cut off elsewhere
(`Digest.ofCluster_ranks`).
-/

namespace GraphClustering

open View

variable {α : Type} {graph u : View α} {f : Forest} {c : ClusterId}
variable {ids : List Int} {limit : Int}

/-! ## Limits -/

namespace Digest

theorem truncate_eq_take (limit : Int) (xs : List (Ranked α)) :
    truncate limit xs = xs.take (if 0 < limit then limit.toNat else xs.length) := by
  rw [truncate]
  split
  · rfl
  · rw [List.take_length]

/-- A smaller limit leaves a prefix. -/
theorem truncate_prefix {k : Int} (some : 0 < k) (more : k ≤ limit ∨ limit ≤ 0)
    (xs : List (Ranked α)) : truncate k xs <+: truncate limit xs := by
  rw [truncate, if_pos some, truncate]
  split
  · exact List.take_prefix_take_left (Int.toNat_le_toNat (by omega))
  · exact List.take_prefix _ _

theorem rows_map (u : View α) (weight score : Nat → α) :
    rows u (u.rows.map weight) (u.rows.map score) =
      u.rows.toList.map fun r => ⟨u.store.labels.getD r 0, weight r, score r⟩ := by
  rw [rows, vertexList_eq_map, Array.toList_zip, Array.toList_map, Array.toList_map, List.zip_map',
    List.zipWith_map, List.zipWith_self]

/-- What is not among the first members of a sorted list comes after them. -/
theorem rel_of_notMem_take {β : Type} {R : β → β → Prop} {l : List β} {n : Nat} {a b : β}
    (sorted : l.Pairwise R) (ha : a ∈ l.take n) (hb : b ∈ l) (out : b ∉ l.take n) : R a b := by
  rw [← List.take_append_drop n l] at sorted hb
  have last := (List.mem_append.mp hb).resolve_left out
  exact (List.pairwise_append.mp sorted).2.2 a ha b last

end Digest

/-! ## Rankings -/

variable [Scalar α]

/-- What a digest has to say of a row of the store, if the cluster has the given vertices: its
vertex, its weight among them, and the share that this is of its weight in the graph. -/
def Ranked.describe (graph : View α) (ids : List Int) (row : Nat) : Ranked α where
  vertex := graph.store.labels.getD row 0
  weight := graph.store.weightAmong ids row
  score := share (graph.store.weightAmong ids row) (graph.store.weightAmong graph.vertexList row)

namespace Digest

open Ranked

/-- All rows of a part, in their order. -/
def ranking (graph : View α) (ids : List Int) (u : View α) : List (Ranked α) :=
  (u.rows.toList.map (describe graph ids)).mergeSort atLeast

theorem mem_ranking {r : Ranked α} :
    r ∈ ranking graph ids u ↔ ∃ row ∈ u.rows.toList, describe graph ids row = r := by
  rw [ranking, (List.mergeSort_perm _ _).mem_iff, List.mem_map]

theorem length_ranking (graph : View α) (ids : List Int) (u : View α) :
    (ranking graph ids u).length = u.order := by
  rw [ranking, List.length_mergeSort, List.length_map, Array.length_toList, order]

theorem map_vertex_describe (hu : u.PartOf graph) :
    (u.rows.toList.map (describe graph ids)).map vertex = u.vertexList := by
  rw [vertexList_eq_map, List.map_map, hu.store]
  rfl

/-- What a digest of some vertices of a graph has to be: it counts them, and it has, up to its
limit, the first of them, each next to its own weight and score. -/
structure Ranks (graph : View α) (ids : List Int) (limit : Int) (d : Digest α) : Prop where
  size : d.size = ids.toFinset.card
  length : d.vertices.length = if 0 < limit then min limit.toNat d.size else d.size
  nodup : (d.vertices.map vertex).Nodup
  sorted : d.vertices.Pairwise Before
  own : ∀ r ∈ d.vertices, r.vertex ∈ ids ∧ ∃ row ∈ graph.rows.toList, r = describe graph ids row
  omitted : ∀ row ∈ graph.rows.toList, graph.store.labels.getD row 0 ∈ ids →
    describe graph ids row ∉ d.vertices →
      ∀ r ∈ d.vertices, Before r (describe graph ids row) ∧ ¬ Before (describe graph ids row) r

/-- The beginning of the ranking is what a digest has to be. -/
theorem ranks_ranking [LawfulScalar α] (hg : graph.Compressed) (inside : ids ⊆ graph.vertexList)
    (hu : graph.induced ids = .ok u) (limit : Int) :
    Ranks graph ids limit ⟨u.order, truncate limit (ranking graph ids u)⟩ := by
  have part := hg.partOf_of_induced hu inside
  have distinct : ((u.rows.toList.map (describe graph ids)).map vertex).Nodup := by
    rw [map_vertex_describe part]
    exact nodup_vertexList_of_induced hu
  have sorted : (ranking graph ids u).Pairwise Before := pairwise_before_mergeSort distinct
  rw [truncate_eq_take]
  generalize cut : (if 0 < limit then limit.toNat else (ranking graph ids u).length) = n
  have first : ((ranking graph ids u).take n).Sublist (ranking graph ids u) :=
    List.take_sublist n _
  constructor
  case size =>
    have same : u.vertexList.toFinset = ids.toFinset := Finset.ext fun id => by
      rw [List.mem_toFinset, List.mem_toFinset, mem_vertexList_of_induced hu]
    rw [← same, List.toFinset_card_of_nodup (nodup_vertexList_of_induced hu), length_vertexList]
  case length =>
    dsimp only
    rw [List.length_take, ← cut, length_ranking]
    split
    · rfl
    · exact min_self _
  case nodup =>
    exact (first.map vertex).nodup
      (((List.mergeSort_perm _ _).map vertex).nodup_iff.mpr distinct)
  case sorted => exact sorted.sublist first
  case own =>
    intro r hr
    obtain ⟨row, hrow, rfl⟩ := mem_ranking.mp (first.subset hr)
    obtain ⟨known, own⟩ := (hg.mem_rows_of_induced hu inside).mp hrow
    exact ⟨own, row, known, rfl⟩
  case omitted =>
    intro row known own out r hr
    have hrow := (hg.mem_rows_of_induced hu inside).mpr ⟨known, own⟩
    have before := rel_of_notMem_take sorted hr (mem_ranking.mpr ⟨row, hrow, rfl⟩) out
    exact ⟨before, weakOrder_before.asymm _ _ before⟩

/-! ## Digests of clusters -/

section OfCluster

variable (hg : graph.Compressed) (within : f.aggregate c ⊆ graph.vertexList)
include hg within

/-- Where the weights of the graph are not found, there are no workers to find them. -/
theorem ofCluster_of_failure {e : Fault} (failed : graph.weights = .error e) (limit : Int) :
    ofCluster graph f c limit = .error e := by
  obtain ⟨u, hu, part⟩ := hg.exists_partOf_induced within
  obtain ⟨rfl, -⟩ := failure_of_weights failed
  rw [ofCluster, TreeRule.aggregateView, hu]
  cases own : u.weights with
  | error e =>
      obtain ⟨rfl, -⟩ := failure_of_weights own
      simp only [bind, Except.bind, own]
  | ok us =>
      simp only [bind, Except.bind, own, relativeWeights,
        part.any_isNone_localIds hg.vertexList_ascend, Bool.false_eq_true, if_false, failed]

variable [LawfulScalar α]

/-- Otherwise a digest is the beginning of the ranking. -/
theorem ofCluster_eq {ws : Array α} (hu : graph.induced (f.aggregate c) = .ok u)
    (found : graph.weights = .ok ws) (limit : Int) : ofCluster graph f c limit =
      .ok ⟨u.order, truncate limit (ranking graph (f.aggregate c) u)⟩ := by
  have neutral := LawfulScalar.zero_neutral (α := α)
  have part := hg.partOf_of_induced hu within
  obtain ⟨us, own⟩ := exists_weights_of_partOf part found
  rw [weights_of_neutral neutral (part.compressed hg) own, part.store,
    Store.weightAmong_congr fun id => mem_vertexList_of_induced hu] at own
  rw [weights_of_neutral neutral hg found] at found
  have shares := part.relativeWeights_of_weights hg.vertexList_ascend own found
  have described := rows_map u (graph.store.weightAmong (f.aggregate c)) fun r =>
    share (graph.store.weightAmong (f.aggregate c) r) (graph.store.weightAmong graph.vertexList r)
  rw [part.store] at described
  rw [ofCluster, TreeRule.aggregateView, hu]
  simp only [bind, Except.bind, own, shares, described]
  rfl

/-- Digests rank the vertices of a cluster.  With any limit they are what a digest of these
vertices has to be, and a smaller limit leaves a prefix.  They fail only for want of workers. -/
theorem ofCluster_ranks :
    (∃ e, graph.Understaffed e ∧ ∀ limit, ofCluster graph f c limit = .error e) ∨
    ∃ digest : Int → Digest α,
      (∀ limit, ofCluster graph f c limit = .ok (digest limit) ∧
        Ranks graph (f.aggregate c) limit (digest limit)) ∧
      ∀ k limit, 0 < k → k ≤ limit ∨ limit ≤ 0 →
        (digest k).vertices <+: (digest limit).vertices := by
  obtain ⟨u, hu, -⟩ := hg.exists_partOf_induced within
  cases found : graph.weights with
  | error e => exact .inl ⟨e, failure_of_weights found, ofCluster_of_failure hg within found⟩
  | ok ws =>
      exact .inr ⟨fun limit => ⟨u.order, truncate limit (ranking graph (f.aggregate c) u)⟩,
        fun limit => ⟨ofCluster_eq hg within hu found limit, ranks_ranking hg within hu limit⟩,
        fun k limit some more => truncate_prefix some more _⟩

end OfCluster

/-- A chain of four vertices, and two vertices without edges. -/
def chain : View ℚ :=
  .whole (.ofEntries #[3, 5, 8, 9, 10, 12] [⟨0, 1, 2⟩, ⟨1, 0, 2⟩, ⟨1, 2, 2⟩, ⟨2, 1, 2⟩, ⟨2, 3, 2⟩,
    ⟨3, 2, 2⟩]) none

theorem compressed_chain : chain.Compressed where
  store := by apply Store.compressed_of_rows <;> decide +kernel
  ascending := by decide +kernel
  inRange := by decide +kernel

/-- A root with a child that has a child, and a vertex that both of these have. -/
def branch : Forest :=
  ⟨#[⟨none, [1], [9]⟩, ⟨some 0, [2], [8, 12, 3]⟩, ⟨some 1, [], [5, 3, 10]⟩]⟩

/-- Two vertices of the cluster have the same weight, one of them with a larger share. -/
theorem ofCluster_ranks_chain : branch.aggregate 1 = [8, 12, 3, 5, 3, 10] ∧
    ∃ digest : Int → Digest ℚ, (∀ limit, ofCluster chain branch 1 limit = .ok (digest limit)) ∧
      (digest 3).vertices <+: (digest 0).vertices ∧ (digest 0).vertices.length = 5 ∧
      (digest 3).vertices = [⟨5, 4, 1⟩, ⟨3, 2, 1⟩, ⟨8, 2, 1 / 2⟩] := by
  have ids : branch.aggregate 1 = [8, 12, 3, 5, 3, 10] := by decide
  rcases ofCluster_ranks compressed_chain (c := 1) (f := branch) (by decide +kernel) with
    ⟨e, few, -⟩ | ⟨digest, ranks, prefixes⟩
  · exact absurd (.inl (by decide)) few.2
  · refine ⟨ids, digest, fun limit => (ranks limit).1, prefixes 3 0 (by decide) (.inr le_rfl),
      ?_, ?_⟩
    · rw [(ranks 0).2.length, (ranks 0).2.size, ids]
      decide
    · have first : ofCluster chain branch 1 3 =
          .ok ⟨5, [⟨5, 4, 1⟩, ⟨3, 2, 1⟩, ⟨8, 2, 1 / 2⟩]⟩ := by cbv
      rw [(ranks 3).1, Except.ok.injEq] at first
      rw [first]

end Digest

end GraphClustering
