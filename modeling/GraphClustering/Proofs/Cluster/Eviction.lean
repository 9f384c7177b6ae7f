import GraphClustering.Proofs.Cluster.Failures
import GraphClustering.Proofs.Cluster.SecureRun
import GraphClustering.Proofs.Cluster.Turns

/-!
# One guard sweep is enough

Guarding a cluster takes vertices from the clusters below it and changes the children of
the cluster and its parent, and nothing else (`copies_evicted`).  Under a metric by which
no vertex scores higher in a smaller part, a consistent cluster that is large enough is kept
whole in every view that holds it, so guarding takes nothing from those below that have been
guarded (`Firm.untouched`).  The clusters above have not had their turn when the sweep comes
to a cluster, so what a turn brings about lasts to the end of the sweep.
-/

namespace GraphClustering

open Forest Relation

variable {α : Type} {f f' : Forest} {c d p r : ClusterId}

namespace TreeRule

open Postprocessing

/-! ## What eviction changes -/

section Evicted

variable {s : Guarded α} (hf : f.WellFormed) (hp : f.parent c = some p)

include hf hp

theorem children_evicted (hdc : d ≠ c) (hdp : d ≠ p) :
    (evicted f c p s).children d = f.children d := by
  have same := SameLinks.removeFromAll f (f.walk c) s.dropped
  rw [evicted, children_addToRemainder]
  split
  · exact same.children d
  · rw [children_absorb (same.wellFormed hf) ((same.parent c).trans hp), if_neg hdp, if_neg hdc,
      same.children]

/-- Below a cluster the dropped vertices are gone. -/
theorem remainder_evicted (hdc : d ≠ c ∨ s.kept.isSome) (hdp : d ≠ p) :
    (evicted f c p s).remainder d =
      if d ∈ f.walk c then (f.remainder d).filter fun v => !s.dropped.contains v
      else f.remainder d := by
  have hc := lt_size_of_parent hp
  have same := SameLinks.removeFromAll f (f.walk c) s.dropped
  have hpsize : p < (f.removeFromAll (f.walk c) s.dropped).size :=
    same.size ▸ hf.parent_lt_size hp
  rw [evicted, ← remainder_removeFromAll (fun e he => lt_size_of_mem_walk hf hc he) s.dropped d]
  split
  · rw [remainder_addToRemainder _ _ _ _ hpsize, if_neg hdp]
  · rename_i given
    have ne := hdc.resolve_right given
    rw [remainder_addToRemainder _ _ _ _ (by rwa [size_absorb]), if_neg hdp,
      remainder_absorb (same.wellFormed hf) ((same.parent c).trans hp), if_neg ne,
      if_neg fun h => hdp h.1]

/-- All clusters but one that is given up stay in their trees. -/
theorem root_evicted (hd : d ≠ c ∨ s.kept.isSome) : (evicted f c p s).root d = f.root d := by
  have same := SameLinks.removeFromAll f (f.walk c) s.dropped
  rw [evicted, (SameLinks.addToRemainder _ p s.dropped).root_eq]
  split
  · exact same.root_eq d
  · rename_i given
    rw [root_absorb (same.wellFormed hf) ((same.parent c).trans hp) false (hd.resolve_right given),
      same.root_eq]

/-- A cluster that is given up is a tree of its own. -/
theorem root_evicted_self (given : ¬ s.kept.isSome) : (evicted f c p s).root c = c := by
  have same := SameLinks.removeFromAll f (f.walk c) s.dropped
  rw [evicted, (SameLinks.addToRemainder _ p s.dropped).root_eq, if_neg given,
    root_absorb_self (same.wellFormed hf) ((same.parent c).trans hp)]

/-- A cluster that is not given up is left with the vertices that are not dropped. -/
theorem mem_aggregate_evicted (kept : s.kept.isSome) {id : Int} :
    id ∈ (evicted f c p s).aggregate c ↔ id ∈ f.aggregate c ∧ id ∉ s.dropped := by
  have hc := lt_size_of_parent hp
  have walk : (evicted f c p s).walk c = f.walk c := by
    rw [evicted, (SameLinks.addToRemainder _ p s.dropped).walk_eq, if_pos kept,
      (SameLinks.removeFromAll f (f.walk c) s.dropped).walk_eq]
  have above : ∀ d ∈ f.walk c, d ≠ p := by
    rintro d hd rfl
    have deeper := depth_le_of_mem_walk hf hc hd
    rw [depth_of_parent hf hp] at deeper
    omega
  have left : ∀ d ∈ f.walk c, id ∈ (evicted f c p s).remainder d ↔
      id ∈ f.remainder d ∧ id ∉ s.dropped := by
    intro d hd
    rw [remainder_evicted hf hp (.inr kept) (above d hd), if_pos hd, List.mem_filter]
    simp
  rw [aggregate, walk, List.mem_flatMap, aggregate, List.mem_flatMap]
  constructor
  · rintro ⟨d, hd, hid⟩
    exact ⟨⟨d, hd, ((left d hd).mp hid).1⟩, ((left d hd).mp hid).2⟩
  · rintro ⟨⟨d, hd, hid⟩, stays⟩
    exact ⟨d, hd, (left d hd).mpr ⟨hid, stays⟩⟩

/-- A tree that is neither around the cluster nor loses a vertex is not changed. -/
theorem copies_evicted (hd : d < f.size) (out : d ∉ c :: f.ancestors c)
    (untouched : c ∈ d :: f.ancestors d → ∀ id ∈ f.aggregate d, id ∉ s.dropped) :
    Copies f d (evicted f c p s) d id := by
  have apart : ∀ e ∈ f.walk d, e ≠ c ∧ e ≠ p := by
    intro e he
    have above := (mem_walk_iff hf hd).mp he
    constructor
    · rintro rfl
      exact out above
    · rintro rfl
      rw [ancestors_of_parent hf hp] at out
      exact out (List.mem_cons_of_mem c above)
  refine ⟨rfl, fun _ _ _ _ h => h, fun e he => ?_, fun e he => ?_⟩
  · rw [List.map_id]
    exact children_evicted hf hp (apart e he).1 (apart e he).2
  · refine (remainder_evicted hf hp (.inl (apart e he).1) (apart e he).2).trans ?_
    split
    · rename_i below
      have above := mem_lineage_of_notMem hf ((mem_walk_iff hf (lt_size_of_parent hp)).mp below)
        ((mem_walk_iff hf hd).mp he) out
      refine List.filter_eq_self.mpr fun id hid => ?_
      have stays := untouched above id (List.mem_flatMap.mpr ⟨e, he, hid⟩)
      simpa using stays
    · rfl

end Evicted

/-! ## Guarded clusters -/

variable [Scalar α] {g : Guard α} {s : Guarded α} {v : View α}

/-- A cluster whose vertices, with those below it, are consistent and enough. -/
def Firm (g : Guard α) (f : Forest) (c : ClusterId) : Prop :=
  ∃ u, aggregateView g.graph f c = .ok u ∧ g.Consistent u ∧
    Number.less (.int u.order) g.minSize = false

theorem Firm.of_aggregate_eq (firm : Firm g f c) (same : f'.aggregate c = f.aggregate c) :
    Firm g f' c := by
  obtain ⟨u, hu, rest⟩ := firm
  exact ⟨u, by rw [aggregateView, same]; exact hu, rest⟩

/-- There is nothing to evict from a firm cluster. -/
theorem Firm.evict_eq (firm : Firm g f c) : evict g f c = .ok (f, false) := by
  obtain ⟨u, hu, consistent, large⟩ := firm
  cases hp : f.parent c with
  | none => rw [evict, hp]
  | some p =>
      rw [evict_of_parent hp, hu]
      simp only [bind, Except.bind, consistent.ensure_eq large]
      rfl

section Turn

variable (compressed : g.graph.Compressed) (mono : g.metric.MonotoneOn g.graph g.graph)
variable (hf : Within g r f) (hc : f.root c = r)

include compressed hf hc

/-- A guarded cluster that is still in the tree is firm. -/
theorem firm_of_evict {b : Bool} (h : evict g f c = .ok (f', b)) (inner : c ≠ r)
    (stays : f'.root c = r) : Firm g f' c := by
  rcases evict_cases h with ⟨top, -, -⟩ | ⟨p, v, s, hp, hv, hs, outcome⟩
  · rw [root_of_root top] at hc
    exact absurd hc inner
  · have nodup := View.nodup_vertexList_of_induced hv
    have whole := aggregate_partOf compressed hf.1 hf.2 hc hv
    have fits := Guard.ensure_fits nodup hs
    rcases outcome with ⟨kept, none, rfl, -⟩ | ⟨-, rfl, -⟩
    · obtain ⟨u, hu⟩ := Option.isSome_iff_exists.mp kept
      obtain rfl := fits.unchanged u hu none
      exact ⟨u, hv, fits.consistent u hu, fits.notSmall u hu⟩
    · have kept : s.kept.isSome := by
        by_contra given
        rw [root_evicted_self hf.1.toWellFormed hp given] at stays
        exact inner stays
      obtain ⟨u, hu⟩ := Option.isSome_iff_exists.mp kept
      have part : u.PartOf g.graph := (Guard.partOf_of_shrink whole.ascending hs hu).trans whole
      refine ⟨u, compressed.induced_eq part fun id => ?_, fits.consistent u hu, fits.notSmall u hu⟩
      rw [mem_aggregate_evicted hf.1.toWellFormed hp kept, fits.mem_kept_iff nodup hu,
        View.mem_vertexList_of_induced hv]

include mono

/-- Guarding a cluster does not give it up if there is a firm one in it, and takes nothing
from that. -/
theorem Firm.untouched (firm : Firm g f d) (above : c ∈ d :: f.ancestors d)
    (hv : aggregateView g.graph f c = .ok v) (hs : g.ensure v = .ok s) :
    s.kept.isSome ∧ ∀ id ∈ f.aggregate d, id ∉ s.dropped := by
  obtain ⟨w, hw, consistent, large⟩ := firm
  have whole := aggregate_partOf compressed hf.1 hf.2 hc hv
  have nodup := View.nodup_vertexList_of_induced hv
  have part : w.PartOf v := by
    rcases List.mem_cons.mp above with rfl | above
    · rw [hv] at hw
      cases hw
      exact .refl whole.ascending
    · have root := (root_of_mem_ancestors hf.1.toWellFormed above).trans hc
      exact aggregate_partOf_above compressed hf.1 hf.2 root above hw hv
  obtain ⟨u, kept, inside⟩ := Guard.exists_kept_of_consistent (mono.of_partOf whole) nodup
    whole.ascending hs part consistent large
  refine ⟨by rw [kept]; rfl, fun id hid => ?_⟩
  have mem := inside.vertexList_subset ((View.mem_vertexList_of_induced hw).mpr hid)
  exact (((Guard.ensure_fits nodup hs).mem_kept_iff nodup kept).mp mem).2

theorem exists_evict : ∃ f' b, evict g f c = .ok (f', b) := by
  cases hp : f.parent c with
  | none => exact ⟨f, false, by rw [evict, hp]⟩
  | some p =>
      obtain ⟨v, hv, part⟩ := exists_aggregate_partOf compressed hf.1 hf.2 hc
      obtain ⟨s, hs⟩ : ∃ s, g.ensure v = .ok s := by
        obtain ⟨s, hs, -⟩ := Guard.shrink_reaches (g := g) []
          (View.nodup_vertexList_of_induced hv) part.ascending
          (fun u hu => (mono.answers u (hu.trans part)).imp fun _ h => h.1) (Nat.lt_succ_self _)
        exact ⟨s, hs⟩
      rw [evict_of_parent hp, hv]
      simp only [bind, Except.bind, hs]
      split
      · exact ⟨f, false, rfl⟩
      · exact ⟨evicted f c p s, true, rfl⟩

/-- All firm clusters that are not above a guarded one stay in the tree with their vertices. -/
theorem Firm.kept_of_evict {b : Bool} (firm : Firm g f d) (h : evict g f c = .ok (f', b))
    (out : d ∉ c :: f.ancestors c) (hd : f.root d = r) :
    f'.root d = r ∧ f'.aggregate d = f.aggregate d := by
  have wf := hf.1.toWellFormed
  rcases evict_cases h with ⟨-, rfl, -⟩ | ⟨p, v, s, hp, hv, hs, ⟨-, -, rfl, -⟩ | ⟨moved, rfl, rfl⟩⟩
  · exact ⟨hd, rfl⟩
  · exact ⟨hd, rfl⟩
  · have ne : d ≠ c := fun same => out (same ▸ List.mem_cons_self)
    have hsize := hf.1.lt_size_of_mem_tree (hf.1.mem_tree_iff.mpr hd)
    have hf' := ((evict_sound g r).changed hf.1 hc h).rooted hf.1
    have root := (root_evicted (s := s) wf hp (.inl ne)).trans hd
    have copies := copies_evicted wf hp hsize out fun above =>
      (firm.untouched compressed mono hf hc above hv hs).2
    exact ⟨root, copies.aggregate wf hf'.toWellFormed hsize
      (hf'.lt_size_of_mem_tree (hf'.mem_tree_iff.mpr root))⟩

end Turn

end TreeRule

namespace Postprocessing

open TreeRule

variable [Scalar α] {g : Guard α} {h : Forest} {done turns after : List ClusterId}

/-! ## A whole sweep -/

/-- A turn leaves the clusters guarded before it as they are and makes its cluster firm. -/
theorem evict_turn (compressed : g.graph.Compressed) (mono : g.metric.MonotoneOn g.graph g.graph)
    (hf : Within g r f) (order : sweepOrder f r = done ++ c :: after)
    (rewrites : ReflTransGen (Rewrite r) f h) (hc : h.root c = r)
    (guarded : ∀ d ∈ done, h.root d = r → d ≠ r → Firm g h d) :
    ∃ f' b, evict g h c = .ok (f', b) ∧ ReflTransGen (Rewrite r) h f' ∧
      (∀ d ∈ done, h.root d = r → d ≠ r → f'.root d = r ∧ f'.aggregate d = h.aggregate d) ∧
      ∀ d, d ∈ done ∨ d = c → f'.root d = r → d ≠ r → Firm g f' d := by
  have hh := (invariant_within g r).rewrites hf rewrites
  obtain ⟨f', b, applied⟩ := exists_evict compressed mono hh hc
  have rewrites' := (evict_sound g r).rewrites hh.1 hc applied
  have same : ∀ d ∈ done, h.root d = r → d ≠ r →
      f'.root d = r ∧ f'.aggregate d = h.aggregate d := by
    intro d hd root ne
    refine (guarded d hd root ne).kept_of_evict compressed mono hh hc applied ?_ root
    rw [List.mem_cons, not_or]
    exact ⟨ne_of_mem_of_not_mem hd (notMem_before hf.1 order),
      fun above => notMem_before_of_mem_ancestors hf.1 order rewrites above hd⟩
  refine ⟨f', b, applied, rewrites', same, fun d hd root ne => ?_⟩
  rcases hd with hd | rfl
  · have root' := root_of_rewrites hh.1 rewrites' root
    exact (guarded d hd root' ne).of_aggregate_eq (same d hd root' ne).2
  · exact firm_of_evict compressed hh hc applied ne root

/-- Turns in a row leave the clusters guarded before them as they are, and those guarded by
them firm. -/
theorem sweepOver_evict (compressed : g.graph.Compressed)
    (mono : g.metric.MonotoneOn g.graph g.graph) (hf : Within g r f)
    (order : sweepOrder f r = done ++ turns ++ after) (rewrites : ReflTransGen (Rewrite r) f h)
    (guarded : ∀ d ∈ done, h.root d = r → d ≠ r → Firm g h d) (a : Bool) :
    ∃ f' b, sweepOver (evict g) r turns h a = (f', .ok b) ∧ ReflTransGen (Rewrite r) h f' ∧
      (∀ d ∈ done ++ turns, f'.root d = r → d ≠ r → Firm g f' d) ∧
      ∀ d ∈ done, h.root d = r → d ≠ r → f'.root d = r ∧ f'.aggregate d = h.aggregate d := by
  have hh := (invariant_within g r).rewrites hf rewrites
  obtain ⟨f', b, swept, rewrites', ⟨-, same⟩, firm⟩ :=
    sweepOver_of_turns (I := fun k => Within g r k ∧ ∀ d ∈ done, h.root d = r → d ≠ r →
        k.root d = r ∧ k.aggregate d = h.aggregate d)
      (Q := fun k d => d ≠ r → Firm g k d) done turns hh.1 (evict_sound g r)
      ⟨hh, fun d _ hd _ => ⟨hd, rfl⟩⟩ guarded
      (fun more c rest k split chain ⟨hk, same⟩ visited hc => by
        have order' : sweepOrder f r = (done ++ more) ++ c :: (rest ++ after) := by
          rw [order, split]
          simp only [List.append_assoc, List.cons_append]
        obtain ⟨k', b, applied, step, kept, firm⟩ :=
          evict_turn compressed mono hf order' (rewrites.trans chain) hc visited
        refine ⟨k', b, applied, ⟨(invariant_within g r).rewrites hk step, ?_⟩, firm⟩
        intro d hd root ne
        obtain ⟨root', same'⟩ := same d hd root ne
        obtain ⟨stays, last⟩ := kept d (List.mem_append_left _ hd) root' ne
        exact ⟨stays, last.trans same'⟩) a
  exact ⟨f', b, swept, rewrites', firm, same⟩

/-- A sweep makes all clusters below the root firm. -/
theorem firm_of_sweep (compressed : g.graph.Compressed) (mono : g.metric.MonotoneOn g.graph g.graph)
    (hf : Within g r f) : ∃ f' b, sweep (evict g) r f = (f', .ok b) ∧ f'.Rooted r ∧
      ∀ c, f'.root c = r → c ≠ r → Firm g f' c := by
  have order : sweepOrder f r = [] ++ sweepOrder f r ++ [] := (List.append_nil _).symm
  obtain ⟨f', b, swept, rewrites, firm, -⟩ :=
    sweepOver_evict compressed mono hf order .refl nofun false
  exact ⟨f', b, swept, rooted_of_rewrites hf.1 rewrites, fun c hc =>
    firm c ((mem_sweepOrder hf.1).mpr (root_of_rewrites hf.1 rewrites hc)) hc⟩

/-- The clusters guarded by the first turns of a sweep keep their vertices in the others. -/
theorem kept_of_sweep (compressed : g.graph.Compressed) (mono : g.metric.MonotoneOn g.graph g.graph)
    (hf : Within g r f) (order : sweepOrder f r = done ++ after) :
    ∃ h a, sweepOver (evict g) r done f false = (h, .ok a) ∧
      sweepOver (evict g) r after h a = sweep (evict g) r f ∧
      ∀ c ∈ done, h.root c = r → c ≠ r → (sweep (evict g) r f).1.root c = r ∧
        (sweep (evict g) r f).1.aggregate c = h.aggregate c := by
  have early : sweepOrder f r = [] ++ done ++ after := order
  have late : sweepOrder f r = done ++ after ++ [] := by rw [order, List.append_nil]
  obtain ⟨h, a, first, rewrites, guarded, -⟩ :=
    sweepOver_evict compressed mono hf early .refl nofun false
  obtain ⟨f', b, second, -, -, same⟩ := sweepOver_evict compressed mono hf late rewrites guarded a
  have joined : sweep (evict g) r f = sweepOver (evict g) r after h a := by
    rw [sweep, order, sweepOver_append, first]
  rw [joined, second]
  exact ⟨h, a, first, second, same⟩

/-- Shares of exact weights, none of them negative, are a metric by which no vertex scores
higher in a smaller part.  Under any such metric one sweep leaves every cluster below the
root consistent and large enough, so that a second sweep changes nothing.  The clusters that
have had their turn when some of the sweep is done, and are still in the tree then, stay in
it and keep all their vertices to its end. -/
theorem sweep_evict_settled :
    (∀ {β : Type} [ExactScalar β] (graph : View β), graph.Compressed → graph.NonnegEntries →
      graph.Staffed → Metric.relativeWeight.MonotoneOn graph graph) ∧
    ∀ {α : Type} [Scalar α] {g : Guard α} {f : Forest} {r : ClusterId},
      Number.atMost (.int 1) g.minSize = true → g.graph.Compressed →
      g.metric.MonotoneOn g.graph g.graph → Within g r f →
      ∃ f' b, sweep (evict g) r f = (f', .ok b) ∧
        (∀ c ∈ f'.walk r, c ≠ r → ∃ u, aggregateView g.graph f' c = .ok u ∧
          g.Consistent u ∧ g.minSize.atMost (.int u.order) = true) ∧
        sweep (evict g) r f' = (f', .ok false) ∧
        ∀ done rest, sweepOrder f r = done ++ rest →
          ∃ h a, sweepOver (evict g) r done f false = (h, .ok a) ∧
            sweepOver (evict g) r rest h a = (f', .ok b) ∧
            ∀ c ∈ done, h.root c = r → c ≠ r →
              f'.root c = r ∧ f'.aggregate c = h.aggregate c := by
  refine ⟨fun graph compressed nonneg staffed => ?_, ?_⟩
  · exact Metric.relativeWeight_monotoneOn compressed.vertexList_ascend nonneg staffed
      (.refl compressed.ascending)
  · intro α _ g f r hm compressed mono hf
    obtain ⟨f', b, swept, hf', settled⟩ := firm_of_sweep compressed mono hf
    refine ⟨f', b, swept, ?_, ?_, ?_⟩
    · intro c hc ne
      obtain ⟨u, hu, consistent, large⟩ := settled c (hf'.mem_walk_iff.mp hc) ne
      refine ⟨u, hu, consistent, ?_⟩
      rw [Number.atMost_eq_not_less (Number.isNan_eq_false_of_atMost hm), large, Bool.not_false]
    · refine sweep_of_idle fun c hc => ?_
      by_cases top : c = r
      · rw [evict, top, hf'.parentless]
      · exact (settled c hc top).evict_eq
    · intro done rest order
      obtain ⟨h, a, first, second, same⟩ := kept_of_sweep compressed mono hf order
      rw [swept] at second same
      exact ⟨h, a, first, second, same⟩

end Postprocessing

namespace Clustering

open TreeRule Postprocessing

/-- A cluster with a stray vertex below another one, and a cluster of strays only. -/
def strayed : Forest :=
  let f := ((Forest.empty.spawn none).1.spawn (some 0)).1.addToRemainder 1 [30]
  let f := (f.spawn (some 1)).1.addToRemainder 2 [10, 20, 40]
  (f.spawn (some 0)).1.addToRemainder 3 [40, 10]

theorem rooted_strayed : strayed.Rooted 0 := by
  have first := (rooted_single.spawn (p := 0) (by decide)).addToRemainder 1 [30]
  have second := (first.spawn (p := 1) (by decide)).addToRemainder 2 [10, 20, 40]
  exact (second.spawn (p := 0) (by decide)).addToRemainder 3 [40, 10]

/-- The first stray goes to the parent and the cluster of strays is given up. -/
theorem sweep_evict_settled_strayed : ∃ f', sweep (evict halving.guard) 0 strayed = (f', .ok true) ∧
    f'.walk 0 = [0, 1, 2] ∧ f'.aggregate 2 = [10, 20] ∧ f'.aggregate 1 = [30, 40, 10, 20] ∧
    (∀ c ∈ f'.walk 0, c ≠ 0 → ∃ u, aggregateView pairs f' c = .ok u ∧
      halving.guard.Consistent u ∧ Number.atMost (.int 2) (.int u.order) = true) ∧
    sweep (evict halving.guard) 0 f' = (f', .ok false) := by
  have vertices : strayed.aggregate 0 = [30, 10, 20, 40, 40, 10] := by cbv
  have compressed := lawful_pairs.mirrored.toCompressed
  have mono : halving.guard.metric.MonotoneOn halving.guard.graph halving.guard.graph :=
    let _ := exactRat
    sweep_evict_settled.1 pairs compressed posEntries_pairs.nonneg (.inl (by decide))
  obtain ⟨f', b, swept, firm, again, -⟩ :=
    sweep_evict_settled.2 (g := halving.guard) (f := strayed) (r := 0) (by cbv) compressed mono
      ⟨rooted_strayed, by
        rw [vertices]
        change ∀ id ∈ _, id ∈ pairs.vertexList
        rw [vertexList_pairs]
        decide⟩
  obtain ⟨f'', swept', walk, low, high⟩ : ∃ f'',
      sweep (evict halving.guard) 0 strayed = (f'', .ok true) ∧ f''.walk 0 = [0, 1, 2] ∧
        f''.aggregate 2 = [10, 20] ∧ f''.aggregate 1 = [30, 40, 10, 20] :=
    ⟨_, by cbv, by cbv, by cbv, by cbv⟩
  rw [swept'] at swept
  cases swept
  exact ⟨_, swept', walk, low, high, firm, again⟩

end Clustering

end GraphClustering
