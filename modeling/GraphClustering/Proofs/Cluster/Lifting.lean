import GraphClustering.Proofs.Cluster.Climbing
import GraphClustering.Proofs.Cluster.Turns

/-!
# One climb sweep is enough

A cluster that climbs is missing from the clusters it was below, and all others keep their
vertices (`aggregate_reparent`, `aggregate_reparent_subset`).  A cluster that has had its turn
is below none that climbs later.  So its view stays as it is, while the view of its parent
can only get smaller, and its overlap with the parent does not fall (`Anchored.reparent`).
-/

namespace GraphClustering

open Forest Relation

variable {f f' h : Forest} {a c d p r : ClusterId}

/-! ## Vertices of a moved cluster -/

namespace Forest

variable (hf : f.WellFormed) (hp : f.parent c = some p) (ha : a ∈ f.ancestors c)

include hf hp ha

/-- A cluster that moves to one of its ancestors is not missed where it was not below. -/
theorem copies_reparent (hd : d < f.size) (out : d ∉ f.ancestors c) :
    Copies f d (f.reparent c a) d id where
  top := rfl
  injective _ _ _ _ h := h
  children e he := by
    have apart : e ∉ f.ancestors c := fun above =>
      out ((ancestors_suffix hf above).subset ((mem_walk_iff hf hd).mp he))
    have other : c ∉ f.children e := by
      rw [hf.mem_children_iff, hp, Option.some_inj]
      rintro rfl
      apply apart
      rw [ancestors_of_parent hf hp]
      exact List.mem_cons_self
    rw [List.map_id, id, children_reparent f c e hf.agreeing (lt_size_of_mem_ancestors hf ha),
      if_neg (ne_of_mem_of_not_mem ha apart).symm, List.erase_of_not_mem other]
  remainder e _ := remainder_reparent f c e a

theorem aggregate_reparent (hd : d < f.size) (out : d ∉ f.ancestors c) :
    (f.reparent c a).aggregate d = f.aggregate d :=
  (copies_reparent hf hp ha hd out).aggregate hf (wellFormed_reparent hf hp ha) hd
    (by rwa [size_reparent])

/-- No cluster gets vertices from one that moves to one of its ancestors. -/
theorem aggregate_reparent_subset (hd : d < f.size) :
    (f.reparent c a).aggregate d ⊆ f.aggregate d := by
  have hf' := wellFormed_reparent hf hp ha
  intro id hid
  obtain ⟨e, he, hid⟩ := List.mem_flatMap.mp hid
  rw [mem_walk_iff hf' (by rwa [size_reparent])] at he
  rw [remainder_reparent] at hid
  have above := (((lifts_reparent hf hp ha).ancestors_sublist hf hf' e).cons_cons e).subset he
  exact List.mem_flatMap.mpr ⟨e, (mem_walk_iff hf hd).mpr above, hid⟩

end Forest

/-! ## Anchored clusters -/

variable {α : Type} [ExactScalar α] {graph : View α} {minOverlap : α}

namespace TreeRule

/-- A cluster that overlaps enough with its parent if that is below the root. -/
def Anchored (graph : View α) (minOverlap : α) (r : ClusterId) (f : Forest) (c : ClusterId) :
    Prop :=
  ∀ p, f.parent c = some p → p ≠ r → ∃ v s, aggregateView graph f c = .ok v ∧
    overlap graph v f p = .ok s ∧ minOverlap ≤ s

/-- An anchored cluster does not climb. -/
theorem Anchored.climb_eq (anchored : Anchored graph minOverlap r f c) (hf : f.Rooted r)
    (hc : f.root c = r) : climb graph minOverlap f c = .ok (f, false) := by
  refine climb_of_overlap hf.toWellFormed fun p hp inner => ?_
  have below : p ≠ r := fun top =>
    Bool.eq_false_iff.mp inner ((hf.isRoot_parent_iff hc hp).mpr top)
  obtain ⟨v, s, hv, hs, enough⟩ := anchored p hp below
  exact ⟨v, s, hv, hs, less_eq_false_iff.mpr enough⟩

section Tree

variable (compressed : graph.Compressed) (nonneg : graph.NonnegEntries) (hf : f.Rooted r)
variable (inside : ∀ id ∈ f.aggregate r, id ∈ graph.vertexList) (hc : f.root c = r)

include compressed nonneg hf inside hc

/-- A cluster is anchored after its turn, unless the turn fails. -/
theorem climb_anchors (minOverlap : α) :
    (∃ b, climb graph minOverlap f c = .ok (if b then f.reparent c r else f, b) ∧
      Anchored graph minOverlap r (if b then f.reparent c r else f) c) ∨
    ∃ e, climb graph minOverlap f c = .error e ∧ graph.Understaffed e := by
  obtain ⟨v, hv, -, outcome⟩ := climb_to_root compressed nonneg hf inside hc minOverlap
  cases hx : climb graph minOverlap f c with
  | error e =>
      rw [hx] at outcome
      exact .inr ⟨e, rfl, outcome⟩
  | ok x =>
      obtain ⟨f', b⟩ := x
      rw [hx] at outcome
      obtain ⟨rfl, moved, -⟩ := outcome
      refine .inl ⟨b, rfl, fun p hp inner => ?_⟩
      cases b with
      | true =>
          rw [moved rfl, Option.some_inj] at hp
          exact absurd hp.symm inner
      | false =>
          have below := Bool.eq_false_iff.mpr (mt (hf.isRoot_parent_iff hc hp).mp inner)
          obtain ⟨u, s, hu, hs, enough⟩ := overlap_of_climb hf.toWellFormed hx hp below
          exact ⟨u, s, hu, hs, less_eq_false_iff.mp enough⟩

/-- What is not above a climbing cluster stays anchored. -/
theorem Anchored.reparent (hp : f.parent c = some p) (hd : f.root d = r) (ne : d ≠ c)
    (out : d ∉ f.ancestors c) (anchored : Anchored graph minOverlap r f d) :
    Anchored graph minOverlap r (f.reparent c r) d := by
  intro q hq inner
  have wf := hf.toWellFormed
  have top := hf.mem_ancestors hc hp
  have hf' := hf.reparent hp top
  have inside' : ∀ id ∈ (f.reparent c r).aggregate r, id ∈ graph.vertexList := fun id hid =>
    inside id (aggregate_reparent_subset wf hp top hf.lt_size hid)
  have hd' : (f.reparent c r).root d = r := (root_reparent wf hp top d).trans hd
  have mem' : q ∈ (f.reparent c r).ancestors d := by
    rw [ancestors_of_parent hf'.toWellFormed hq]
    exact List.mem_cons_self
  rw [parent_reparent f c d r (lt_size_of_parent hp), if_neg ne] at hq
  obtain ⟨v, s, hv, hs, enough⟩ := anchored q hq inner
  have hv' : aggregateView graph (f.reparent c r) d = .ok v := by
    rw [aggregateView, aggregate_reparent wf hp top (lt_size_of_parent hq) out]
    exact hv
  have hq' := hf'.root_of_mem_lineage hd' (List.mem_cons_of_mem d mem')
  obtain ⟨w, hw, part⟩ := exists_aggregate_partOf compressed hf inside
    ((root_of_parent wf hq).symm.trans hd)
  obtain ⟨u, hu, part'⟩ := exists_aggregate_partOf compressed hf' inside' hq'
  have less : u.PartOf w := by
    refine part'.of_vertexList_subset compressed.nodup_vertexList part ?_
    intro id hid
    rw [View.mem_vertexList_of_induced hu] at hid
    rw [View.mem_vertexList_of_induced hw]
    exact aggregate_reparent_subset wf hp top (wf.parent_lt_size hq) hid
  have below := aggregate_partOf_above compressed hf' inside' hd' mem' hv' hu
  obtain ⟨t, ht, grows⟩ := exists_overlap_ge compressed nonneg hw part hu less below hs
  exact ⟨v, t, hv', ht, enough.trans grows⟩

end Tree

end TreeRule

/-! ## A whole sweep -/

namespace Postprocessing

open TreeRule

/-- Some clusters of a tree over a graph have moved to the root. -/
structure Lifted (graph : View α) (r : ClusterId) (f g : Forest) : Prop where
  rooted : g.Rooted r
  inside : ∀ id ∈ g.aggregate r, id ∈ graph.vertexList
  remainder : ∀ c, g.remainder c = f.remainder c
  parent : ∀ c, g.parent c = f.parent c ∨ g.parent c = some r

omit [ExactScalar α] in
theorem Lifted.reparent (lifted : Lifted graph r f h) (hc : h.root c = r)
    (hp : h.parent c = some p) : Lifted graph r f (h.reparent c r) where
  rooted := lifted.rooted.reparent hp (lifted.rooted.mem_ancestors hc hp)
  inside id hid := lifted.inside id <| aggregate_reparent_subset lifted.rooted.toWellFormed hp
    (lifted.rooted.mem_ancestors hc hp) lifted.rooted.lt_size hid
  remainder d := (remainder_reparent h c d r).trans (lifted.remainder d)
  parent d := by
    rw [parent_reparent h c d r (lt_size_of_parent hp)]
    split
    · exact .inr rfl
    · exact lifted.parent d

variable {done after : List ClusterId}

/-- A turn anchors its cluster and leaves those anchored before it so. -/
theorem climb_turn (compressed : graph.Compressed) (nonneg : graph.NonnegEntries)
    (hf : f.Rooted r) (order : sweepOrder f r = done ++ c :: after)
    (rewrites : ReflTransGen (Rewrite r) f h) (lifted : Lifted graph r f h) (hc : h.root c = r)
    (anchored : ∀ d ∈ done, h.root d = r → Anchored graph minOverlap r h d) :
    (∃ f' b, climb graph minOverlap h c = .ok (f', b) ∧ Lifted graph r f f' ∧
      ∀ d, d ∈ done ∨ d = c → f'.root d = r → Anchored graph minOverlap r f' d) ∨
    ∃ e, climb graph minOverlap h c = .error e ∧ graph.Understaffed e := by
  rcases climb_anchors compressed nonneg lifted.rooted lifted.inside hc minOverlap with
    ⟨b, applied, own⟩ | fails
  · refine .inl ⟨_, b, applied, ?_⟩
    cases b with
    | false =>
        refine ⟨lifted, fun d hd root => ?_⟩
        rcases hd with hd | rfl
        · exact anchored d hd root
        · exact own
    | true =>
        obtain ⟨p, hp⟩ := parent_of_climb applied
        refine ⟨lifted.reparent hc hp, fun d hd root => ?_⟩
        rcases hd with hd | rfl
        · have top := lifted.rooted.mem_ancestors hc hp
          rw [if_pos rfl, root_reparent lifted.rooted.toWellFormed hp top] at root
          exact (anchored d hd root).reparent compressed nonneg lifted.rooted lifted.inside hc hp
            root (ne_of_mem_of_not_mem hd (notMem_before hf order))
            fun above => notMem_before_of_mem_ancestors hf order rewrites above hd
        · exact own
  · exact .inr fails

/-- One sweep moves clusters to the root until every cluster whose parent is below the root
overlaps enough with it, so that a second sweep changes nothing.  Only want of workers can
stop a sweep. -/
theorem sweep_climb_settled (compressed : graph.Compressed) (nonneg : graph.NonnegEntries)
    (hf : f.Rooted r) (inside : ∀ id ∈ f.aggregate r, id ∈ graph.vertexList) (minOverlap : α) :
    match sweep (climb graph minOverlap) r f with
    | (g, .ok _) => g.Rooted r ∧
        (∀ c, g.remainder c = f.remainder c ∧ (g.parent c = f.parent c ∨ g.parent c = some r)) ∧
        (∀ c p, g.root c = r → g.parent c = some p → p ≠ r → ∃ v s,
          aggregateView graph g c = .ok v ∧ overlap graph v g p = .ok s ∧ minOverlap ≤ s) ∧
        sweep (climb graph minOverlap) r g = (g, .ok false)
    | (_, .error e) => graph.Understaffed e := by
  rcases sweepOver_cases (I := Lifted graph r f) (Q := Anchored graph minOverlap r)
      (E := graph.Understaffed) [] (sweepOrder f r) hf (climb_sound graph minOverlap r)
      ⟨hf, inside, fun _ => rfl, fun _ => .inl rfl⟩ nofun
      (fun more c after h order rewrites lifted visited hc =>
        climb_turn compressed nonneg hf order rewrites lifted hc visited) false with
    ⟨g, b, swept, rewrites, lifted, anchored⟩ | ⟨g, e, fails, expected⟩
  · have settled : ∀ c, g.root c = r → Anchored graph minOverlap r g c := fun c hc =>
      anchored c ((mem_sweepOrder hf).mpr (root_of_rewrites hf rewrites hc)) hc
    rw [sweep, swept]
    refine ⟨lifted.rooted, fun c => ⟨lifted.remainder c, lifted.parent c⟩, ?_, ?_⟩
    · intro c p hc
      exact settled c hc p
    · exact sweep_of_idle fun c hc => (settled c hc).climb_eq lifted.rooted hc
  · rw [sweep, fails]
    exact expected

end Postprocessing

namespace Clustering

open TreeRule Postprocessing

/-- A pair below a single vertex, with a stray below it. -/
def trailing : Forest :=
  let f := ((Forest.empty.spawn none).1.spawn (some 0)).1.addToRemainder 1 [30]
  let f := (f.spawn (some 1)).1.addToRemainder 2 [10, 20]
  (f.spawn (some 2)).1.addToRemainder 3 [40]

theorem rooted_trailing : trailing.Rooted 0 := by
  have first := (rooted_single.spawn (p := 0) (by decide)).addToRemainder 1 [30]
  have second := (first.spawn (p := 1) (by decide)).addToRemainder 2 [10, 20]
  exact (second.spawn (p := 2) (by decide)).addToRemainder 3 [40]

/-- Without the stray the pair has six of seven units of weight inside, not six of ten. -/
theorem sweep_climb_settled_trailing : ∃ v w g,
    aggregateView pairs trailing 2 = .ok v ∧ overlap pairs v trailing 1 = .ok (3 / 5) ∧
    sweep (climb pairs (4 / 5)) 0 trailing = (g, .ok true) ∧
    g.children 0 = [1, 3] ∧ g.children 1 = [2] ∧
    aggregateView pairs g 2 = .ok w ∧ overlap pairs w g 1 = .ok (6 / 7) ∧
    sweep (climb pairs (4 / 5)) 0 g = (g, .ok false) := by
  let _ := exactRat
  have vertices : trailing.aggregate 0 = [30, 10, 20, 40] := by cbv
  have settled := sweep_climb_settled lawful_pairs.mirrored.toCompressed posEntries_pairs.nonneg
    rooted_trailing (by rw [vertices, vertexList_pairs]; decide) (4 / 5)
  obtain ⟨v, w, g, hv, before, swept, top, low, hw, after⟩ : ∃ v w g,
      aggregateView pairs trailing 2 = .ok v ∧ overlap pairs v trailing 1 = .ok (3 / 5) ∧
      sweep (climb pairs (4 / 5)) 0 trailing = (g, .ok true) ∧
      g.children 0 = [1, 3] ∧ g.children 1 = [2] ∧
      aggregateView pairs g 2 = .ok w ∧ overlap pairs w g 1 = .ok (6 / 7) :=
    ⟨_, _, _, by cbv, by cbv, by cbv, by cbv, by cbv, by cbv, by cbv⟩
  rw [swept] at settled
  exact ⟨v, w, g, hv, before, swept, top, low, hw, after, settled.2.2.2⟩

end Clustering

end GraphClustering
