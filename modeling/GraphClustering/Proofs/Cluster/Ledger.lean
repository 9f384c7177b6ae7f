import GraphClustering.Proofs.Cluster.Budget
import GraphClustering.Proofs.Forest.Rewiring

/-!
# Accounts of the vertices

While tasks are performed, every cluster accounts for the vertices of the view
that it was made for: each is in its remainder, in the view of one of its
children, or still to be placed.  `Account` is this invariant for a forest, with
the vertices to be placed as a list of entries.
-/

namespace GraphClustering

variable {α : Type} {f : Forest} {views : List (View α)} {v u : View α} {c d p : ClusterId}

/-- Vertices to be placed below a cluster. -/
abbrev Due := ClusterId × List Int

variable {es es' : List Due} {ids : List Int}

/-- The vertices to be placed below a cluster. -/
def held (es : List Due) (c : ClusterId) : List Int :=
  es.flatMap fun e => if e.1 = c then e.2 else []

theorem held_cons (e : Due) (es : List Due) (c : ClusterId) :
    held (e :: es) c = (if e.1 = c then e.2 else []) ++ held es c :=
  List.flatMap_cons

theorem held_append (es es' : List Due) (c : ClusterId) :
    held (es ++ es') c = held es c ++ held es' c :=
  List.flatMap_append

theorem held_perm (h : es.Perm es') (c : ClusterId) : (held es c).Perm (held es' c) :=
  h.flatMap_right _

theorem held_of_lt (h : ∀ e ∈ es, e.1 < c) : held es c = [] :=
  List.flatMap_eq_nil_iff.mpr fun e he => if_neg (Nat.ne_of_lt (h e he))

/-- The vertices of the view that a cluster was made for. -/
def verticesOf (views : List (View α)) (c : ClusterId) : List Int :=
  (views[c]?).elim [] View.vertexList

theorem verticesOf_of_getElem? (h : views[c]? = some v) : verticesOf views c = v.vertexList := by
  rw [verticesOf, h, Option.elim_some]

theorem verticesOf_append (h : c < views.length) :
    verticesOf (views ++ [v]) c = verticesOf views c := by
  rw [verticesOf, verticesOf, List.getElem?_append_left h]

theorem verticesOf_length : verticesOf (views ++ [v]) views.length = v.vertexList :=
  verticesOf_of_getElem? List.getElem?_concat_length

/-- The vertices that a cluster accounts for. -/
def accounted (f : Forest) (views : List (View α)) (es : List Due) (c : ClusterId) : List Int :=
  f.remainder c ++ ((f.children c).flatMap (verticesOf views) ++ held es c)

/-- Every cluster accounts for the vertices of the view that it was made for. -/
structure Account (f : Forest) (views : List (View α)) (es : List Due) : Prop where
  wellFormed : f.WellFormed
  length_views : views.length = f.size
  pending : ∀ e ∈ es, e.1 < f.size
  nodup : ∀ v ∈ views, v.vertexList.Nodup
  balanced : ∀ c < f.size, (accounted f views es c).Perm (verticesOf views c)

namespace Account

/-- Only what is held for each cluster matters. -/
theorem of_held (h : Account f views es) (pending : ∀ e ∈ es', e.1 < f.size)
    (same : ∀ c, (held es' c).Perm (held es c)) : Account f views es' where
  wellFormed := h.wellFormed
  length_views := h.length_views
  pending := pending
  nodup := h.nodup
  balanced c hc := (((same c).append_left _).append_left _).trans (h.balanced c hc)

theorem of_perm (h : Account f views es) (perm : es'.Perm es) : Account f views es' :=
  h.of_held (fun e he => h.pending e (perm.subset he)) (held_perm perm)

theorem nodup_of_mem (h : Account f views ((c, ids) :: es)) : ids.Nodup := by
  have hc : c < f.size := h.pending (c, ids) List.mem_cons_self
  have hviews : c < views.length := h.length_views ▸ hc
  have all := h.balanced c hc
  rw [verticesOf_of_getElem? (List.getElem?_eq_getElem hviews), accounted, held_cons,
    if_pos rfl] at all
  have nodup := all.nodup_iff.mpr (h.nodup _ (List.getElem_mem hviews))
  exact (List.nodup_append.mp (List.nodup_append.mp (List.nodup_append.mp nodup).2.1).2.1).1

/-- Vertices may be put into the remainder. -/
theorem own (h : Account f views ((c, ids) :: es)) :
    Account (f.addToRemainder c ids) views es where
  wellFormed := (Forest.SameLinks.addToRemainder f c ids).wellFormed h.wellFormed
  length_views := by rw [Forest.size_addToRemainder]; exact h.length_views
  pending e he := by
    rw [Forest.size_addToRemainder]
    exact h.pending e (List.mem_cons_of_mem _ he)
  nodup := h.nodup
  balanced d hd := by
    rw [Forest.size_addToRemainder] at hd
    refine List.Perm.trans ?_ (h.balanced d hd)
    rw [accounted, accounted, held_cons, Forest.children_addToRemainder,
      Forest.remainder_addToRemainder _ _ _ _ (h.pending _ List.mem_cons_self)]
    by_cases hdc : d = c
    · rw [if_pos hdc, if_pos hdc.symm, List.append_assoc]
      apply List.Perm.append_left _
      rw [← List.append_assoc, ← List.append_assoc]
      exact List.perm_append_comm.append_right _
    · rw [if_neg hdc, if_neg (Ne.symm hdc), List.nil_append]

/-- A cluster may be made for vertices, and they are to be placed below it. -/
theorem grow (h : Account f views ((p, v.vertexList) :: es)) :
    Account (f.spawn (some p)).1 (views ++ [v]) ((f.size, v.vertexList) :: es) where
  wellFormed := Forest.wellFormed_spawn f p h.wellFormed (h.pending _ List.mem_cons_self)
  length_views := by rw [List.length_append, h.length_views, Forest.size_spawn]; rfl
  pending e he := by
    rw [Forest.size_spawn]
    rcases List.mem_cons.mp he with rfl | he
    · exact Nat.lt_succ_self _
    · exact Nat.lt_succ_of_lt (h.pending e (List.mem_cons_of_mem _ he))
  nodup u hu := by
    rcases List.mem_append.mp hu with hu | hu
    · exact h.nodup u hu
    · rw [List.mem_singleton.mp hu]; exact h.nodup_of_mem
  balanced d hd := by
    have hp : p < f.size := h.pending (p, v.vertexList) List.mem_cons_self
    have kept : ∀ c < f.size, verticesOf (views ++ [v]) c = verticesOf views c := fun c hc =>
      verticesOf_append (h.length_views ▸ hc)
    have children : (f.children d).flatMap (verticesOf (views ++ [v])) =
        (f.children d).flatMap (verticesOf views) :=
      List.flatMap_congr fun c hc => kept c (h.wellFormed.child_lt_size hc)
    have new : verticesOf (views ++ [v]) f.size = v.vertexList := by
      rw [← h.length_views]; exact verticesOf_length
    rw [accounted, Forest.remainder_spawn, Forest.children_spawn f p d h.wellFormed.agreeing hp,
      held_cons]
    rcases Nat.lt_or_eq_of_le (Nat.le_of_lt_succ (Forest.size_spawn f p ▸ hd)) with hd | rfl
    · rw [if_neg (Nat.ne_of_gt hd), kept d hd, List.nil_append]
      refine List.Perm.trans (List.Perm.append_left _ ?_) (h.balanced d hd)
      rw [held_cons]
      by_cases hdp : d = p
      · rw [if_pos hdp, if_pos hdp.symm, List.flatMap_append, children, List.flatMap_singleton,
          new, List.append_assoc]
      · rw [if_neg hdp, if_neg (Ne.symm hdp), children, List.nil_append]
    · have fresh : f.remainder f.size = [] ∧ f.children f.size = [] := by
        rw [Forest.remainder, Forest.children, Forest.cluster_of_size_le (Nat.le_refl _)]
        exact ⟨rfl, rfl⟩
      rw [if_neg (Nat.ne_of_gt hp), if_pos rfl, fresh.1, fresh.2, new,
        held_of_lt fun e he => h.pending e (List.mem_cons_of_mem _ he)]
      simp

/-- Entries for one cluster may be replaced by others with the same vertices. -/
theorem regroup {idss : List (List Int)} (h : Account f views ((c, ids) :: es))
    (perm : idss.flatten.Perm ids) : Account f views (idss.map (fun ids => (c, ids)) ++ es) := by
  refine h.of_held ?_ ?_
  · intro e he
    rcases List.mem_append.mp he with he | he
    · obtain ⟨_, -, rfl⟩ := List.mem_map.mp he
      exact h.pending (c, ids) List.mem_cons_self
    · exact h.pending e (List.mem_cons_of_mem _ he)
  · intro d
    rw [held_append, held_cons]
    apply List.Perm.append_right _
    by_cases hcd : c = d
    · rw [if_pos hcd, held, List.flatMap_map]
      simpa [hcd] using perm
    · rw [if_neg hcd, held, List.flatMap_map]
      simp [hcd]

/-! ## Nothing left to place -/

/-- When nothing is left to place, a cluster and its descendants own the vertices
of its view. -/
theorem aggregate_perm (h : Account f views []) (hc : c < f.size) :
    (f.aggregate c).Perm (verticesOf views c) := by
  refine h.wellFormed.induction_up (P := fun c => (f.aggregate c).Perm (verticesOf views c)) ?_ hc
  intro c hc ih
  refine List.Perm.trans ?_ (h.balanced c hc)
  rw [Forest.aggregate, Forest.walk_eq h.wellFormed hc, List.flatMap_cons, List.flatMap_assoc,
    accounted, held, List.flatMap_nil, List.append_nil]
  exact (List.Perm.flatMap_left _ ih).append_left _

theorem nodup_children (h : Account f views []) (hc : c < f.size) :
    ((f.children c).flatMap (verticesOf views)).Nodup := by
  have hviews : c < views.length := h.length_views ▸ hc
  have nodup := h.nodup _ (List.getElem_mem hviews)
  rw [← verticesOf_of_getElem? (List.getElem?_eq_getElem hviews),
    ← (h.balanced c hc).nodup_iff, accounted] at nodup
  exact (List.nodup_append.mp (List.nodup_append.mp nodup).2.1).1

/-- The views of siblings are disjoint. -/
theorem disjoint_siblings (h : Account f views []) (hc : f.parent c = some p)
    (hd : f.parent d = some p) (hcd : c ≠ d) :
    (verticesOf views c).Disjoint (verticesOf views d) := by
  have disjoint := (List.nodup_flatMap.mp (h.nodup_children (h.wellFormed.parent_lt_size hc))).2
  have : Std.Symm (Function.onFun List.Disjoint (verticesOf views)) :=
    ⟨fun _ _ h => List.disjoint_comm.mp h⟩
  exact disjoint.forall ((h.wellFormed.mem_children_iff c p).mpr hc)
    ((h.wellFormed.mem_children_iff d p).mpr hd) hcd

/-- The view of a cluster is part of its parent's. -/
theorem subset_parent (h : Account f views []) (hc : f.parent c = some p) :
    verticesOf views c ⊆ verticesOf views p := by
  intro id hid
  apply (h.balanced p (h.wellFormed.parent_lt_size hc)).subset
  refine List.mem_append_right _ (List.mem_append_left _ ?_)
  exact List.mem_flatMap.mpr ⟨c, (h.wellFormed.mem_children_iff c p).mpr hc, hid⟩

end Account

end GraphClustering
