import GraphClustering.Proofs.Cluster.Eviction

/-!
# What guarding a cluster does to the forest

The guard's dropped vertices disappear from a cluster and all below it, and its parent owns
them from then on.  If the guard gives the cluster up, its children go over to the parent as
well (`Handed`).  The parent and everything above hold the vertices that they held, since
nothing leaves them (`subset_aggregate_evicted`).
-/

namespace GraphClustering

open Forest

variable {f f' : Forest} {c d e p : ClusterId}

/-! ## Walks around an absorbed child -/

namespace Forest

/-- An absorbed cluster is no longer met, and everything else still is. -/
theorem mem_walk_absorb (hf : f.WellFormed) (hp : f.parent c = some p) (w : Bool)
    (hd : d < f.size) (ne : d ≠ c) : e ∈ (f.absorb p c w).walk d ↔ e ∈ f.walk d ∧ e ≠ c := by
  have hf' := wellFormed_absorb hf hp w
  have hd' : d < (f.absorb p c w).size := by rwa [size_absorb]
  constructor
  · intro he
    rw [mem_walk_iff hf' hd'] at he
    refine ⟨(mem_walk_iff hf hd).mpr ?_, ?_⟩
    · exact (((lifts_absorb hf hp w).ancestors_sublist hf hf' e).cons_cons e).subset he
    · rintro rfl
      rw [ancestors_of_root (by rw [parent_absorb hf hp, if_pos rfl]), List.mem_singleton] at he
      exact ne he
  · rintro ⟨he, other⟩
    revert other
    refine walk_induction hf hd (P := fun e => (e ≠ c → e ∈ (f.absorb p c w).walk d) ∧
      (e = c → p ∈ (f.absorb p c w).walk d)) ?_ ?_ he |>.1
    · exact ⟨fun _ => mem_walk_self hf' hd', fun same => absurd same ne⟩
    · intro q _ e child ih
      have up := (hf.mem_children_iff e q).mp child
      constructor
      · intro other
        have up' := parent_absorb hf hp w e
        rw [if_neg other, up] at up'
        by_cases hq : q = c
        · -- The children of the absorbed cluster are below its parent now.
          rw [hq, if_pos rfl] at up'
          exact child_mem_walk hf' hd' (ih.2 hq) ((hf'.mem_children_iff e p).mpr up')
        · rw [if_neg fun h => hq (Option.some_inj.mp h)] at up'
          exact child_mem_walk hf' hd' (ih.1 hq) ((hf'.mem_children_iff e q).mpr up')
      · rintro rfl
        rw [up, Option.some_inj] at hp
        subst hp
        exact ih.1 (hf.parent_ne_self up)

theorem parent_notMem_walk (hf : f.WellFormed) (hp : f.parent c = some p) : p ∉ f.walk c := by
  intro below
  have deeper := depth_le_of_mem_walk hf (lt_size_of_parent hp) below
  rw [depth_of_parent hf hp] at deeper
  exact absurd deeper (Nat.not_succ_le_self _)

/-- What is below a cluster and below another one that is not below it is below a child of
the other one. -/
theorem parent_mem_walk_of_common (hf : f.WellFormed) (hp : f.parent c = some p) (hd : d < f.size)
    (out : d ∉ f.walk c) (hed : e ∈ f.walk d) (hec : e ∈ f.walk c) : p ∈ f.walk d := by
  have hc := lt_size_of_parent hp
  have ne := (ne_of_mem_of_not_mem (mem_walk_self hf hc) out).symm
  rw [mem_walk_iff hf hc] at hec out
  have lineage := mem_lineage_of_notMem hf ((mem_walk_iff hf hd).mp hed) hec out
  rw [List.mem_cons, or_iff_right ne, ancestors_of_parent hf hp] at lineage
  exact (mem_walk_iff hf hd).mpr lineage

end Forest

namespace TreeRule

variable {α : Type} {s : Guarded α} {id : Int}

/-! ## The forest after an eviction -/

section Evicted

variable (hf : f.WellFormed) (hp : f.parent c = some p)

include hf hp

omit hf hp in
/-- A cluster that is kept keeps its place. -/
theorem sameLinks_evicted (kept : s.kept.isSome) : SameLinks f (evicted f c p s) := by
  rw [evicted, if_pos kept]
  exact (SameLinks.removeFromAll _ _ _).trans (.addToRemainder _ _ _)

/-- But for remainders, a cluster that is given up is absorbed by its parent. -/
theorem sameLinks_evicted_absorb (given : ¬ s.kept.isSome) :
    SameLinks (f.absorb p c false) (evicted f c p s) := by
  have same := SameLinks.removeFromAll f (f.walk c) s.dropped
  have hf' := same.wellFormed hf
  have hp' := (same.parent c).trans hp
  rw [evicted, if_neg given]
  refine SameLinks.trans ⟨?_, fun d => ?_, fun d => ?_⟩ (.addToRemainder _ _ _)
  · rw [size_absorb, size_absorb, same.size]
  · rw [parent_absorb hf' hp', parent_absorb hf hp, same.parent]
  · rw [children_absorb hf' hp', children_absorb hf hp, same.children, same.children]

/-- The walk from a cluster meets what it met before, but for a cluster that is given up. -/
theorem mem_walk_evicted (hd : d < f.size) (ne : d ≠ c) :
    e ∈ (evicted f c p s).walk d ↔ e ∈ f.walk d ∧ (e = c → s.kept.isSome) := by
  by_cases kept : s.kept.isSome
  · rw [(sameLinks_evicted kept).walk_eq]
    exact (and_iff_left fun _ => kept).symm
  · rw [(sameLinks_evicted_absorb hf hp kept).walk_eq, mem_walk_absorb hf hp false hd ne]
    simp only [kept, Bool.false_eq_true, imp_false]

/-- The parent owns the dropped vertices, and below it they are gone. -/
theorem remainder_evicted_eq (all : ¬ s.kept.isSome → ∀ id ∈ f.aggregate c, id ∈ s.dropped)
    (d : ClusterId) : (evicted f c p s).remainder d =
      if d = p then f.remainder d ++ s.dropped
      else if d ∈ f.walk c then (f.remainder d).filter fun v => !s.dropped.contains v
      else f.remainder d := by
  have hc := lt_size_of_parent hp
  have same := SameLinks.removeFromAll f (f.walk c) s.dropped
  have hp' := (same.parent c).trans hp
  have removed := remainder_removeFromAll (fun e he => lt_size_of_mem_walk hf hc he) s.dropped d
  have hpsize : p < (f.removeFromAll (f.walk c) s.dropped).size :=
    same.size ▸ hf.parent_lt_size hp
  by_cases hdp : d = p
  · subst hdp
    rw [if_neg (parent_notMem_walk hf hp)] at removed
    rw [evicted, remainder_addToRemainder _ _ _ _ (by split <;> simpa [size_absorb] using hpsize)]
    rw [if_pos rfl, if_pos rfl]
    split
    · rw [removed]
    · rw [remainder_absorb (same.wellFormed hf) hp', if_neg (hf.parent_ne_self hp),
        if_neg (by simp), removed]
  · rw [if_neg hdp]
    by_cases stays : d ≠ c ∨ s.kept.isSome
    · exact remainder_evicted hf hp stays hdp
    · obtain ⟨hdc, given⟩ := not_or.mp stays
      have hdc : d = c := not_not.mp hdc
      have self := mem_walk_self hf hc
      rw [hdc, if_pos self, evicted, if_neg given,
        remainder_addToRemainder _ _ _ _ (by rwa [size_absorb]), if_neg (hdc ▸ hdp),
        remainder_absorb (same.wellFormed hf) hp', if_pos rfl]
      refine (List.filter_eq_nil_iff.mpr fun id hid => ?_).symm
      have lost := all given id (List.mem_flatMap.mpr ⟨c, self, hid⟩)
      simpa using lost

section Aggregates

variable (all : ¬ s.kept.isSome → ∀ id ∈ f.aggregate c, id ∈ s.dropped)
variable (hd : d < f.size) (out : d ∉ f.walk c)

include all hd out

/-- No cluster gets a vertex that it did not hold. -/
theorem aggregate_evicted_subset (sub : s.dropped ⊆ f.aggregate c)
    (held : id ∈ (evicted f c p s).aggregate d) : id ∈ f.aggregate d := by
  have ne := (ne_of_mem_of_not_mem (mem_walk_self hf (lt_size_of_parent hp)) out).symm
  obtain ⟨e, met, hid⟩ := List.mem_flatMap.mp held
  have he := ((mem_walk_evicted hf hp hd ne).mp met).1
  rw [remainder_evicted_eq hf hp all] at hid
  split at hid
  · rename_i hep
    subst hep
    rcases List.mem_append.mp hid with hid | hid
    · exact List.mem_flatMap.mpr ⟨e, he, hid⟩
    · obtain ⟨b, hb, hid⟩ := List.mem_flatMap.mp (sub hid)
      have child := child_mem_walk hf hd he ((hf.mem_children_iff c e).mpr hp)
      exact List.mem_flatMap.mpr ⟨b, (walk_isInfix hf hd child).subset hb, hid⟩
  · split at hid
    · exact List.mem_flatMap.mpr ⟨e, he, (List.mem_filter.mp hid).1⟩
    · exact List.mem_flatMap.mpr ⟨e, he, hid⟩

/-- No cluster but those below the guarded one loses a vertex. -/
theorem subset_aggregate_evicted (hid : id ∈ f.aggregate d) :
    id ∈ (evicted f c p s).aggregate d := by
  have self := mem_walk_self hf (lt_size_of_parent hp)
  have ne := (ne_of_mem_of_not_mem self out).symm
  have met := fun {e} => mem_walk_evicted (s := s) (e := e) hf hp hd ne
  obtain ⟨e, he, hid⟩ := List.mem_flatMap.mp hid
  refine List.mem_flatMap.mpr ?_
  by_cases moved : e ∈ f.walk c ∧ id ∈ s.dropped
  · have above := parent_mem_walk_of_common hf hp hd out he moved.1
    refine ⟨p, met.mpr ⟨above, fun same => absurd same (hf.parent_ne_self hp)⟩, ?_⟩
    rw [remainder_evicted_eq hf hp all, if_pos rfl]
    exact List.mem_append_right _ moved.2
  · refine ⟨e, met.mpr ⟨he, ?_⟩, ?_⟩
    · rintro rfl
      by_contra given
      exact moved ⟨self, all given id (List.mem_flatMap.mpr ⟨e, self, hid⟩)⟩
    · rw [remainder_evicted_eq hf hp all]
      split
      · exact List.mem_append_left _ hid
      · split
        · rename_i below
          refine List.mem_filter.mpr ⟨hid, ?_⟩
          simpa using fun lost => moved ⟨below, lost⟩
        · exact hid

end Aggregates

end Evicted

/-! ## Guarding one cluster -/

/-- The vertices `ids` of a cluster and of those below it are handed to its parent; if the
cluster is `given` up, so are its children, and it is left alone and empty.  What is not
below the cluster holds the vertices that it held. -/
structure Handed (f f' : Forest) (c p : ClusterId) (ids : List Int) (given : Bool) : Prop where
  remainder : ∀ d, f'.remainder d =
    if d = p then f.remainder d ++ ids
    else if d ∈ f.walk c then (f.remainder d).filter fun v => !ids.contains v
    else f.remainder d
  parent : ∀ d, f'.parent d =
    if given then if d = c then none else if f.parent d = some c then some p else f.parent d
    else f.parent d
  children : ∀ d, f'.children d =
    if given then
      if d = p then (f.children d).erase c ++ f.children c else if d = c then [] else f.children d
    else f.children d
  emptied : given = true → f'.remainder c = []
  aggregate : ∀ d < f.size, d ∉ f.walk c → ∀ id, id ∈ f'.aggregate d ↔ id ∈ f.aggregate d

variable [Scalar α] {g : Guard α}

theorem handed_evicted {v : View α} (hf : f.WellFormed) (hp : f.parent c = some p)
    (hv : aggregateView g.graph f c = .ok v) (hs : g.ensure v = .ok s) :
    Handed f (evicted f c p s) c p s.dropped s.kept.isNone := by
  obtain ⟨-, sub, all⟩ := mem_dropped_iff hv hs
  have all : ¬ s.kept.isSome → ∀ id ∈ f.aggregate c, id ∈ s.dropped := fun given id =>
    (all (Option.not_isSome_iff_eq_none.mp given) id).mpr
  have remainder := remainder_evicted_eq hf hp all
  have aggregate : ∀ d < f.size, d ∉ f.walk c → ∀ id,
      id ∈ (evicted f c p s).aggregate d ↔ id ∈ f.aggregate d := fun d hd out id =>
    ⟨aggregate_evicted_subset hf hp all hd out sub, subset_aggregate_evicted hf hp all hd out⟩
  by_cases kept : s.kept.isSome
  · have same := sameLinks_evicted (f := f) (c := c) (p := p) kept
    rw [Option.isNone_eq_false_iff.mpr kept]
    exact ⟨remainder, same.parent, same.children, nofun, aggregate⟩
  · have same := sameLinks_evicted_absorb hf hp kept
    have self := mem_walk_self hf (lt_size_of_parent hp)
    rw [Option.isNone_iff_eq_none.mpr (Option.not_isSome_iff_eq_none.mp kept)]
    refine ⟨remainder, fun d => (same.parent d).trans (parent_absorb hf hp false d),
      fun d => (same.children d).trans (children_absorb hf hp false d), fun _ => ?_, aggregate⟩
    rw [remainder, if_neg (hf.parent_ne_self hp).symm, if_pos self, List.filter_eq_nil_iff]
    intro id hid
    have lost := all kept id (List.mem_flatMap.mpr ⟨c, self, hid⟩)
    simpa using lost

namespace Handed

variable {ids : List Int} {given : Bool}

/-- Nothing is handed over without vertices, unless the cluster is given up. -/
theorem nothing (f : Forest) (c p : ClusterId) : Handed f f c p [] false where
  remainder d := by
    split
    · rw [List.append_nil]
    · split
      · exact (List.filter_eq_self.mpr fun _ _ => rfl).symm
      · rfl
  parent _ := rfl
  children _ := rfl
  emptied := nofun
  aggregate _ _ _ _ := Iff.rfl

/-- Whatever is handed over changes the forest. -/
theorem eq_nothing (handed : Handed f f c p ids given) (hp : f.parent c = some p) :
    ids = [] ∧ given = false := by
  constructor
  · have own := handed.remainder p
    rw [if_pos rfl] at own
    exact List.self_eq_append_right.mp own
  · have link := handed.parent c
    cases given with
    | false => rfl
    | true =>
        rw [if_pos rfl, if_pos rfl, hp] at link
        cases link

end Handed

/-- If the guard keeps all vertices of a cluster, guarding it changes nothing, and nothing is
reported.  Otherwise the vertices that the guard drops are handed to the parent, each once
and in the order in which they were dropped, and if the guard gives the cluster up, so are
its children, after the others of the parent.  A metric that fails on a part of the
cluster's view stops the guarding. -/
theorem evict_effect (compressed : g.graph.Compressed) (hf : f.WellFormed)
    (hp : f.parent c = some p) (inside : ∀ id ∈ f.aggregate c, id ∈ g.graph.vertexList) :
    ∃ v, aggregateView g.graph f c = .ok v ∧ (∀ id, id ∈ v.vertexList ↔ id ∈ f.aggregate c) ∧
      match g.ensure v with
      | .ok s => s.dropped.Nodup ∧ s.dropped ⊆ f.aggregate c ∧
          ∃ f' changed, evict g f c = .ok (f', changed) ∧
            (changed = false ↔ s.dropped = [] ∧ s.kept.isSome) ∧ (f' = f ↔ changed = false) ∧
            Handed f f' c p s.dropped s.kept.isNone
      | .error e => evict g f c = .error e ∧ ∃ u, u.PartOf v ∧ g.metric g.graph u = .error e := by
  obtain ⟨v, hv, part⟩ : ∃ v, aggregateView g.graph f c = .ok v ∧ v.PartOf g.graph :=
    compressed.exists_partOf_induced inside
  refine ⟨v, hv, fun id => View.mem_vertexList_of_induced hv, ?_⟩
  have outcome := evict_of_parent (g := g) hp
  rw [hv] at outcome
  cases hs : g.ensure v with
  | error e =>
      simp only [bind, Except.bind, hs] at outcome
      exact ⟨outcome, Guard.exists_partOf_of_ensure_eq_error part.ascending hs⟩
  | ok s =>
      obtain ⟨nodup, sub, -⟩ := mem_dropped_iff hv hs
      have handed := handed_evicted hf hp hv hs
      refine ⟨nodup, sub, ?_⟩
      simp only [bind, Except.bind, hs, Bool.and_eq_true, List.isEmpty_iff] at outcome
      by_cases idle : s.kept.isSome = true ∧ s.dropped = []
      · rw [if_pos idle] at outcome
        refine ⟨f, false, outcome, iff_of_true rfl idle.symm, iff_of_true rfl rfl, ?_⟩
        rw [idle.2, Option.isNone_eq_false_iff.mpr idle.1]
        exact .nothing f c p
      · rw [if_neg idle] at outcome
        refine ⟨_, true, outcome, iff_of_false nofun fun h => idle h.symm, ?_, handed⟩
        refine iff_of_false (fun same => ?_) nofun
        rw [same] at handed
        obtain ⟨none, kept⟩ := handed.eq_nothing hp
        exact idle ⟨Option.isNone_eq_false_iff.mp kept, none⟩

end TreeRule

namespace Clustering

open TreeRule

/-- A cluster of strays above a copy of one of them, and a pair beside it. -/
def torn : Forest :=
  let f := ((Forest.empty.spawn none).1.spawn (some 0)).1.addToRemainder 1 [40, 10]
  let f := (f.spawn (some 1)).1.addToRemainder 2 [10]
  (f.spawn (some 0)).1.addToRemainder 3 [20, 30]

theorem rooted_torn : torn.Rooted 0 := by
  have first := (rooted_single.spawn (p := 0) (by decide)).addToRemainder 1 [40, 10]
  have second := (first.spawn (p := 1) (by decide)).addToRemainder 2 [10]
  exact (second.spawn (p := 0) (by decide)).addToRemainder 3 [20, 30]

/-- The strays come up once each, and the cluster that is left below them comes last. -/
theorem evict_effect_torn : ∃ f', evict halving.guard torn 1 = .ok (f', true) ∧ f' ≠ torn ∧
    f'.remainder 0 = [10, 40] ∧ f'.remainder 2 = [] ∧ f'.children 0 = [3, 2] ∧
    f'.parent 1 = none ∧ Handed torn f' 1 0 [10, 40] true := by
  have vertices : torn.aggregate 1 = [40, 10, 10] := by cbv
  obtain ⟨v, hv, -, outcome⟩ := evict_effect (g := halving.guard) (f := torn) (c := 1)
    lawful_pairs.mirrored.toCompressed rooted_torn.toWellFormed rfl (by
      rw [vertices]
      change ∀ id ∈ _, id ∈ pairs.vertexList
      rw [vertexList_pairs]
      decide)
  obtain ⟨u, hu, given⟩ : ∃ u, aggregateView halving.guard.graph torn 1 = .ok u ∧
      halving.guard.ensure u = .ok ⟨none, [10, 40]⟩ := ⟨_, by cbv, by cbv⟩
  rw [hu] at hv
  cases hv
  rw [given] at outcome
  obtain ⟨-, -, f', changed, applied, report, moved, handed⟩ := outcome
  have changed : changed = true := Bool.eq_true_of_not_eq_false fun h => by
    cases (report.mp h).2
  subst changed
  refine ⟨f', applied, ?_, ?_, ?_, ?_, ?_, handed⟩
  · intro same
    cases moved.mp same
  · exact (handed.remainder 0).trans (by cbv)
  · exact (handed.remainder 2).trans (by cbv)
  · exact (handed.children 0).trans (by cbv)
  · exact (handed.parent 1).trans (by cbv)

end Clustering

end GraphClustering
