import GraphClustering.Proofs.Cluster.Lineage
import GraphClustering.Proofs.Cluster.RelativeWeight
import GraphClustering.Proofs.Cluster.Sweep

/-!
# Postprocessing settles

Postprocessing as a whole is a number of rewrites.  Each of them lowers the
potential of the tree, so with a limit above the potential there is a round that
changes nothing, unless the metric or the weights of one of its clusters fail
first (`settles_of_potential_lt`).
-/

namespace GraphClustering

open Forest Relation

namespace Postprocessing

variable {α : Type} {k : Guard α} {minOverlap : α} {r c p : ClusterId} {f g : Forest}
variable {limit : Number} {n : Int} {E : Forest → Fault → Prop} {I : Forest → Prop}
variable {rule : TreeRule} {e : Fault}

/-! ## Invariants -/

theorem invariant_rooted (r : ClusterId) : Invariant r fun f => f.Rooted r where
  rooted hf := hf
  rewrite hf h := h.rooted hf

theorem safe_of_sound (h : rule.Sound r) : Safe I (fun _ _ => True) r rule :=
  ⟨h, fun _ _ _ => trivial⟩

/-- No rewrite brings vertices into the tree. -/
theorem invariant_forall (P : Int → Prop) (r : ClusterId) : Invariant r fun f =>
    f.Rooted r ∧ ∀ id ∈ f.aggregate r, P id where
  rooted hf := hf.1
  rewrite hf h := ⟨h.rooted hf.1, fun id hid => hf.2 id ((h.conserves hf.1 id).2.mp hid)⟩

theorem invariant_known (k : Guard α) (r : ClusterId) : Invariant r fun f =>
    f.Rooted r ∧ ∀ id ∈ f.aggregate r, id ∈ k.graph.store.labels :=
  invariant_forall _ r

/-- A tree with vertices of the graph only. -/
def Within (k : Guard α) (r : ClusterId) (f : Forest) : Prop :=
  f.Rooted r ∧ ∀ id ∈ f.aggregate r, id ∈ k.graph.vertexList

theorem invariant_within (k : Guard α) (r : ClusterId) : Invariant r (Within k r) :=
  invariant_forall _ r

/-- The faults that may stop postprocessing at a tree: for the view of one of its clusters, the
metric fails on a part of it, or there are no workers for its weights. -/
def Blamed (k : Guard α) (r : ClusterId) (f : Forest) (e : Fault) : Prop :=
  ∃ c ∈ f.walk r, ∃ u, TreeRule.aggregateView k.graph f c = .ok u ∧
    (u.Understaffed e ∨ ∃ w, w.PartOf u ∧ k.metric k.graph w = .error e)

/-- If the tree has vertices of the graph only, all of this happens within the graph. -/
theorem Blamed.cases (compressed : k.graph.Compressed) (hf : Within k r f)
    (blamed : Blamed k r f e) : k.graph.Understaffed e ∨
      ∃ w, w.PartOf k.graph ∧ k.metric k.graph w = .error e := by
  obtain ⟨c, hc, u, hu, fails⟩ := blamed
  have part := TreeRule.aggregate_partOf compressed hf.1 hf.2 (hf.1.mem_walk_iff.mp hc) hu
  exact fails.imp (·.of_partOf part) fun ⟨w, inner, fails⟩ => ⟨w, inner.trans part, fails⟩

theorem exists_aggregateView (ascending : k.graph.store.labels.toList.Pairwise (· < ·))
    (known : ∀ id ∈ f.aggregate r, id ∈ k.graph.store.labels) (hf : f.Rooted r)
    (hc : f.root c = r) : ∃ u, TreeRule.aggregateView k.graph f c = .ok u :=
  View.exists_induced ascending fun id hid =>
    known id (hf.aggregate_subset (hf.mem_tree_iff.mpr hc) hid)

variable [Scalar α]

/-! ## The rules -/

/-- The three rules of postprocessing. -/
def rules (k : Guard α) (minOverlap : α) : List TreeRule :=
  [.collapse, .evict k, .climb k.graph minOverlap]

/-- There is nothing to do at a root. -/
theorem eq_ok_of_parentless (hp : f.parent c = none) (h : rule ∈ rules k minOverlap) :
    rule f c = .ok (f, false) := by
  simp only [rules, List.mem_cons, List.not_mem_nil, or_false] at h
  rcases h with rfl | rfl | rfl
  · rw [TreeRule.collapse, hp]
  · rw [TreeRule.evict, hp]
  · rw [TreeRule.climb, hp]

theorem sound_of_mem_rules (r : ClusterId) (h : rule ∈ rules k minOverlap) : rule.Sound r := by
  simp only [rules, List.mem_cons, List.not_mem_nil, or_false] at h
  rcases h with rfl | rfl | rfl
  · exact TreeRule.collapse_sound r
  · exact TreeRule.evict_sound k r
  · exact TreeRule.climb_sound k.graph minOverlap r

/-- A round over all three rules with a limit on sweeps. -/
abbrev step (k : Guard α) (minOverlap : α) (limit : Nat) (r : ClusterId) (f : Forest) :
    Forest × Except Fault Bool :=
  round limit r (passes k minOverlap) f false

theorem run_of_toInt? (h : limit.toInt? = some n) : run (passes k minOverlap) limit r f =
    untilSettled (step k minOverlap n.toNat r) n.toNat f false := by
  rw [run, h]

theorem step_tracks (hI : Invariant r I) (hrules : ∀ rule ∈ rules k minOverlap, Safe I E r rule)
    (limit : Nat) (f : Forest) (hf : I f) : Tracks E r f false (step k minOverlap limit r f) :=
  round_tracks hI hrules limit hf false

/-- Idle rules leave the tree as it is. -/
theorem run_still (minOverlap : α) (idle : ∀ rule ∈ rules k minOverlap, Idle E r f rule)
    (hn : limit.toInt? = some n) : Still E f false (run (passes k minOverlap) limit r f) := by
  rw [run_of_toInt? hn]
  exact (round_still idle n.toNat false).untilSettled n.toNat false

/-- Postprocessing rewrites the tree, whether it settles, stops at its limit or fails. -/
theorem rewrites_run (hf : f.Rooted r) (k : Guard α) (minOverlap : α) (limit : Number) :
    ReflTransGen (Rewrite r) f (run (passes k minOverlap) limit r f).1 := by
  cases h : limit.toInt? with
  | none => rw [run, h]
  | some n =>
      rw [run_of_toInt? h]
      have track := step_tracks (invariant_rooted r) (fun rule (h : rule ∈ rules k minOverlap) =>
        safe_of_sound (sound_of_mem_rules r h)) n.toNat
      exact (untilSettled_tracks (invariant_rooted r) track n.toNat hf false).rewrites

/-! ## Failures -/

theorem safe_of_mem_rules (ascending : k.graph.store.labels.toList.Pairwise (· < ·))
    (h : rule ∈ rules k minOverlap) : Safe (fun f =>
      f.Rooted r ∧ ∀ id ∈ f.aggregate r, id ∈ k.graph.store.labels) (Blamed k r) r rule where
  toSound := sound_of_mem_rules r h
  failure := by
    intro f c e hf hc he
    -- Every cluster of the tree has a view.
    have viewed : ∀ {a}, f.root a = r → TreeRule.aggregateView k.graph f a ≠ .error e := by
      intro a ha hfail
      obtain ⟨u, hu⟩ := exists_aggregateView ascending hf.2 hf.1 ha
      rw [hu] at hfail
      cases hfail
    simp only [rules, List.mem_cons, List.not_mem_nil, or_false] at h
    rcases h with rfl | rfl | rfl
    · obtain ⟨x, hx⟩ := TreeRule.exists_collapse f c
      rw [hx] at he
      cases he
    · obtain ⟨u, w, hu, part, fails⟩ :=
        (TreeRule.failure_of_evict ascending he).resolve_left (viewed hc)
      exact ⟨c, hf.1.mem_walk_iff.mpr hc, u, hu, .inr ⟨w, part, fails⟩⟩
    · obtain ⟨a, ha, unweighed⟩ := TreeRule.failure_of_climb he
      have root := hf.1.root_of_mem_lineage hc ha
      obtain ⟨u, hu, few⟩ := unweighed.resolve_left (viewed root)
      exact ⟨a, hf.1.mem_walk_iff.mpr root, u, hu, .inl few⟩

/-- The report of postprocessing is right, and it is stopped only at a tree with a cluster to
blame. -/
theorem run_tracks (minOverlap : α) (hf : f.Rooted r)
    (ascending : k.graph.store.labels.toList.Pairwise (· < ·))
    (known : ∀ id ∈ f.aggregate r, id ∈ k.graph.store.labels) (hn : limit.toInt? = some n) :
    Tracks (Blamed k r) r f false (run (passes k minOverlap) limit r f) := by
  rw [run_of_toInt? hn]
  exact untilSettled_tracks (invariant_known k r) (step_tracks (invariant_known k r)
    (fun rule (h : rule ∈ rules k minOverlap) => safe_of_mem_rules ascending h) n.toNat)
    n.toNat ⟨hf, known⟩ false

/-- Within the graph, postprocessing is stopped only for want of workers for the weights of the
graph, or where the metric fails on a part of the graph. -/
theorem failure_of_run (minOverlap : α) (compressed : k.graph.Compressed) (hf : Within k r f)
    (hn : limit.toInt? = some n) (he : (run (passes k minOverlap) limit r f).2 = .error e) :
    k.graph.Understaffed e ∨ ∃ w, w.PartOf k.graph ∧ k.metric k.graph w = .error e := by
  have track := run_tracks minOverlap hf.1 compressed.store.labels_ascend
    (fun id hid => compressed.mem_labels (hf.2 id hid)) hn
  exact (track.failure e he).cases compressed ((invariant_within k r).rewrites hf track.rewrites)

/-! ## The potential bounds the rounds -/

/-- A rule that reports a change lowers the potential of the tree and one that reports none
keeps it.  Hence postprocessing with a limit above the potential settles, unless it is stopped
at a tree with a cluster to blame.  It is not stopped if the tree has vertices of the graph
only, there are workers for these, and the metric is the relative weight or any other one that
answers for all parts of the graph. -/
theorem settles_of_potential_lt (minOverlap : α) (hf : f.Rooted r)
    (ascending : k.graph.store.labels.toList.Pairwise (· < ·))
    (known : ∀ id ∈ f.aggregate r, id ∈ k.graph.store.labels) :
    (∀ rule ∈ rules k minOverlap, ∀ c f', f.root c = r →
      (rule f c = .ok (f', true) → f'.potential r < f.potential r) ∧
      (rule f c = .ok (f', false) → f'.potential r = f.potential r)) ∧
    ∀ limit n, Number.toInt? limit = some n → (f.potential r : Int) < n →
      (match run (passes k minOverlap) limit r f with
        | (g, .ok _) => Settles (step k minOverlap n.toNat r) n.toNat f g
        | (g, .error e) => Blamed k r g e) ∧
      (k.graph.Compressed → (∀ id ∈ f.aggregate r, id ∈ k.graph.vertexList) → k.graph.Staffed →
        (k.metric = .relativeWeight ∨
          ∀ u, u.PartOf k.graph → ∃ scores, k.metric k.graph u = .ok scores) →
        ∃ g b, run (passes k minOverlap) limit r f = (g, .ok b) ∧
          Settles (step k minOverlap n.toNat r) n.toNat f g) := by
  refine ⟨fun rule hrule c f' hc => ⟨?_, ?_⟩, ?_⟩
  · intro h
    exact ((sound_of_mem_rules r hrule).changed hf hc h).potential_lt hf
  · intro h
    rw [(sound_of_mem_rules r hrule).unchanged h]
  · intro limit n hn hlt
    have outcome : match run (passes k minOverlap) limit r f with
        | (g, .ok _) => Settles (step k minOverlap n.toNat r) n.toNat f g
        | (g, .error e) => Blamed k r g e := by
      rw [run_of_toInt? hn]
      have track := step_tracks (invariant_known k r)
        (fun rule (h : rule ∈ rules k minOverlap) => safe_of_mem_rules ascending h) n.toNat
      rcases settles_or_fails (invariant_known k r) track ⟨hf, known⟩ (n := n.toNat) (by omega)
        false with ⟨g, settles⟩ | ⟨g, e, fails, blamed⟩
      · obtain ⟨b, hb⟩ := settles.untilSettled_eq false
        rw [hb]
        exact settles
      · rw [fails]
        exact blamed
    refine ⟨outcome, fun compressed inside staffed answers => ?_⟩
    rcases hrun : run (passes k minOverlap) limit r f with ⟨g, e | b⟩
    · exfalso
      rcases failure_of_run minOverlap compressed ⟨hf, inside⟩ hn (congrArg Prod.snd hrun) with
        few | ⟨w, part, fails⟩
      · exact few.2 staffed
      · rcases answers with byWeight | answers
        · exact (Guard.ByWeight.failure_of_metric ⟨byWeight, compressed⟩ part fails).2 staffed
        · obtain ⟨scores, hscores⟩ := answers w part
          rw [hscores] at fails
          cases fails
    · rw [hrun] at outcome
      exact ⟨g, b, rfl, outcome⟩

/-- Three pairs of vertices, a light edge between the first two. -/
def threePairs : View ℚ :=
  .whole (.ofEntries #[10, 20, 30, 40, 50, 60] [⟨0, 1, 3⟩, ⟨1, 0, 3⟩, ⟨1, 2, 1⟩, ⟨2, 1, 1⟩,
    ⟨2, 3, 3⟩, ⟨3, 2, 3⟩, ⟨4, 5, 3⟩, ⟨5, 4, 3⟩]) none

/-- Clusters of two or more that keep half of the weight of their vertices. -/
def halves : Guard ℚ :=
  ⟨Metric.relativeWeight, threePairs, .int 2, 1 / 2⟩

theorem compressed_threePairs : threePairs.Compressed where
  store := by apply Store.compressed_of_rows <;> decide +kernel
  ascending := by decide +kernel
  inRange := by decide +kernel

theorem vertexList_threePairs : threePairs.vertexList = [10, 20, 30, 40, 50, 60] := by
  cbv

/-- The first two pairs below an only child of a child of the root, the third below the root. -/
def layered : Forest :=
  let chain := (((Forest.empty.spawn none).1.spawn (some 0)).1.spawn (some 1)).1
  let first := (chain.spawn (some 2)).1.addToRemainder 3 [10, 20]
  let second := (first.spawn (some 2)).1.addToRemainder 4 [30, 40]
  (second.spawn (some 0)).1.addToRemainder 5 [50, 60]

theorem rooted_layered : layered.Rooted 0 := by
  have first := rooted_single.spawn (p := 0) (by decide)
  have second := first.spawn (p := 1) (by decide)
  have third := (second.spawn (p := 2) (by decide)).addToRemainder 3 [10, 20]
  have fourth := (third.spawn (p := 2) (by decide)).addToRemainder 4 [30, 40]
  exact (fourth.spawn (p := 0) (by decide)).addToRemainder 5 [50, 60]

theorem aggregate_layered : layered.aggregate 0 = [10, 20, 30, 40, 50, 60] := by
  cbv

theorem settles_of_potential_lt_layered : layered.potential 0 = 30 ∧
    ∃ g b, run (passes halves (1 / 2)) (.int 31) 0 layered = (g, .ok b) ∧
      Settles (step halves (1 / 2) 31 0) 31 layered g := by
  have small : layered.potential 0 = 30 := by cbv
  have inside : ∀ id ∈ layered.aggregate 0, id ∈ threePairs.vertexList := by
    rw [aggregate_layered, vertexList_threePairs]
    exact fun _ => id
  exact ⟨small, (((settles_of_potential_lt (k := halves) (1 / 2) rooted_layered
    compressed_threePairs.store.labels_ascend
    fun id hid => compressed_threePairs.mem_labels (inside id hid)).2 (.int 31) 31 rfl
      (by rw [small]; decide)).2 compressed_threePairs inside (.inl (by decide)) (.inl rfl))⟩

end Postprocessing

end GraphClustering
