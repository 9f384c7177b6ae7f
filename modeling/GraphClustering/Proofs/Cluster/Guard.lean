import GraphClustering.Cluster.Consistency
import GraphClustering.Proofs.Chain
import GraphClustering.Proofs.Graph.Restriction

/-!
# What the guard leaves of a view

The guard shares the vertices of a view out between those it keeps and those it
drops.  A view that it keeps is not too small and has no vertex whose score is
too low, and it is the view itself if nothing is dropped.
-/

namespace GraphClustering

variable {α : Type}

namespace View

variable {v : View α}

theorem vertexList_eq_map_range (v : View α) :
    v.vertexList = (List.range v.order).map fun i => v.vertices.getD i 0 := by
  have size : v.vertices.size = v.order := by rw [vertices, Array.size_map, order]
  apply List.ext_getElem?
  intro i
  rw [vertexList, Array.getElem?_toList, List.getElem?_map]
  by_cases hi : i < v.order
  · simp [hi, size]
  · simp [Nat.le_of_not_lt hi, size]

/-- The vertices of a restricted view are those at the local ids. -/
theorem vertexList_restrict_perm (hv : v.vertexList.Nodup) {L : List Nat} (hL : L.Nodup)
    (lt : ∀ i ∈ L, i < v.order) :
    (v.restrict L).vertexList.Perm (L.map fun i => v.vertices.getD i 0) := by
  have entry : ∀ i ∈ L, v.vertices[i]? = some (v.vertices.getD i 0) := fun i hi => by
    have size : i < v.vertices.size := by rw [vertices, Array.size_map]; exact lt i hi
    simp [size]
  refine (List.perm_ext_iff_of_nodup (nodup_vertexList_restrict hv L) ?_).mpr ?_
  · apply hL.map_on
    intro i hi j hj hij
    exact eq_of_getElem?_vertices hv (entry i hi) (hij ▸ entry j hj)
  · intro id
    rw [mem_vertexList_restrict, List.mem_map]
    refine exists_congr fun i => and_congr_right ?_
    intro hi
    rw [entry i hi, Option.some_inj]

end View

namespace Guard

variable [Scalar α] {g : Guard α} {v u : View α} {scores : Array α} {r : Guarded α} {e : Fault}

/-- Whether the score of a local id is below the threshold. -/
def scoresLow (g : Guard α) (scores : Array α) (i : Nat) : Bool :=
  (scores[i]?).any fun s => Scalar.less s g.minLikelihood

theorem split_eq (g : Guard α) (v : View α) (scores : Array α) :
    g.split v scores = ((List.range v.order).filter (g.scoresLow scores),
      (List.range v.order).filter fun i => !g.scoresLow scores i) := by
  rw [split, List.partition_eq_filter_filter]
  rfl

theorem split_fst_eq_nil_iff :
    (g.split v scores).1 = [] ↔ ∀ i < v.order, g.scoresLow scores i = false := by
  simp only [split_eq, List.filter_eq_nil_iff, List.mem_range, Bool.not_eq_true]

theorem split_perm (g : Guard α) (v : View α) (scores : Array α) :
    ((g.split v scores).1 ++ (g.split v scores).2).Perm (List.range v.order) := by
  rw [split_eq]
  exact List.filter_append_perm _ _

/-- The vertices that remain and those that are dropped are all the vertices. -/
theorem restrict_split_perm (hv : v.vertexList.Nodup) (scores : Array α) :
    ((v.restrict (g.split v scores).2).vertexList ++
      (g.split v scores).1.map fun i => v.vertices.getD i 0).Perm v.vertexList := by
  have rest : (v.restrict (g.split v scores).2).vertexList.Perm
      ((g.split v scores).2.map fun i => v.vertices.getD i 0) := by
    rw [split_eq]
    exact v.vertexList_restrict_perm hv (List.nodup_range.filter _)
      fun i hi => List.mem_range.mp (List.mem_filter.mp hi).1
  refine (rest.append_right _).trans (List.perm_append_comm.trans ?_)
  rw [← List.map_append, v.vertexList_eq_map_range]
  exact (g.split_perm v scores).map _

theorem order_restrict_split (hv : v.vertexList.Nodup) (scores : Array α) :
    (v.restrict (g.split v scores).2).order + (g.split v scores).1.length = v.order := by
  simpa [View.length_vertexList] using (restrict_split_perm (g := g) hv scores).length_eq

/-- The outcome of guarding a view: what is kept is a part of the view that is
large enough and has no low score. -/
structure Fits (g : Guard α) (v : View α) (r : Guarded α) : Prop where
  perm : (r.kept.elim [] View.vertexList ++ r.dropped).Perm v.vertexList
  nodup : ∀ u, r.kept = some u → u.vertexList.Nodup
  notSmall : ∀ u, r.kept = some u → Number.less (.int u.order) g.minSize = false
  consistent : ∀ u, r.kept = some u →
    ∃ scores, g.metric g.graph u = .ok scores ∧ ∀ i < u.order, g.scoresLow scores i = false
  unchanged : ∀ u, r.kept = some u → r.dropped = [] → u = v

/-- The kept vertices are those that are not dropped. -/
theorem Fits.mem_kept_iff (fits : g.Fits v r) (hv : v.vertexList.Nodup) (hu : r.kept = some u)
    {id : Int} : id ∈ u.vertexList ↔ id ∈ v.vertexList ∧ id ∉ r.dropped := by
  have shared := fits.perm
  rw [hu, Option.elim_some] at shared
  have parts := shared.nodup_iff.mpr hv
  rw [← shared.mem_iff, List.mem_append]
  constructor
  · exact fun hid => ⟨.inl hid, List.disjoint_of_nodup_append parts hid⟩
  · rintro ⟨hid, stays⟩
    exact hid.resolve_right stays

/-- The dropped vertices are those that are not kept. -/
theorem Fits.mem_dropped_iff (fits : g.Fits v r) (hv : v.vertexList.Nodup) {id : Int} :
    id ∈ r.dropped ↔ id ∈ v.vertexList ∧ ∀ u, r.kept = some u → id ∉ u.vertexList := by
  have shared := fits.perm.mem_iff (a := id)
  cases hu : r.kept with
  | none => simpa [hu] using shared
  | some u =>
      rw [hu, Option.elim_some, List.mem_append] at shared
      constructor
      · intro hid
        refine ⟨shared.mp (.inr hid), ?_⟩
        rintro _ ⟨⟩ kept
        exact ((fits.mem_kept_iff hv hu).mp kept).2 hid
      · rintro ⟨hid, lost⟩
        exact (shared.mpr hid).resolve_left (lost u rfl)

/-- The view itself is kept just if nothing is dropped. -/
theorem Fits.eq_iff (fits : g.Fits v r) (hu : r.kept = some u) : u = v ↔ r.dropped = [] := by
  refine ⟨?_, fits.unchanged u hu⟩
  rintro rfl
  have length := fits.perm.length_eq
  rw [hu, Option.elim_some, List.length_append] at length
  exact List.length_eq_zero_iff.mp (by omega)

theorem shrink_fits {fuel : Nat} {before : List Int} (hv : v.vertexList.Nodup)
    (hfuel : v.order < fuel) (h : g.shrink fuel v before = .ok r) :
    ∃ more, r.dropped = before ++ more ∧ g.Fits v ⟨r.kept, more⟩ := by
  induction fuel generalizing v before with
  | zero => cases hfuel
  | succ fuel ih =>
      rw [shrink] at h
      split at h
      · cases h
        exact ⟨v.vertexList, rfl, by simp, nofun, nofun, nofun, nofun⟩
      · rename_i large
        obtain ⟨scores, hscores, h⟩ := exists_of_bind_eq_ok h
        dsimp only at h
        split at h
        · rename_i low
          cases h
          refine ⟨[], by simp, by simp, ?_, ?_, ?_, ?_⟩
          · rintro u ⟨⟩; exact hv
          · rintro u ⟨⟩; simpa using large
          · rintro u ⟨⟩
            exact ⟨scores, hscores, split_fst_eq_nil_iff.mp (List.isEmpty_iff.mp low)⟩
          · rintro u ⟨⟩ -; rfl
        · rename_i low
          have shared := restrict_split_perm (g := g) hv scores
          have hlow : 0 < (g.split v scores).1.length :=
            List.length_pos_of_ne_nil fun h => low (by rw [h]; rfl)
          have order := order_restrict_split (g := g) hv scores
          obtain ⟨more, hmore, fits⟩ := ih (v.nodup_vertexList_restrict hv _) (by omega) h
          refine ⟨_, hmore.trans (List.append_assoc _ _ _), ?_, fits.nodup, fits.notSmall,
            fits.consistent, ?_⟩
          · apply (List.perm_append_comm.append_left _).trans
            rw [← List.append_assoc]
            exact (fits.perm.append_right _).trans shared
          · intro u _ hnil
            have none := List.map_eq_nil_iff.mp (List.append_eq_nil_iff.mp hnil).1
            rw [none] at hlow
            cases hlow

theorem ensure_fits (hv : v.vertexList.Nodup) (h : g.ensure v = .ok r) : g.Fits v r := by
  obtain ⟨more, hmore, fits⟩ := shrink_fits hv (Nat.lt_succ_self _) h
  obtain rfl : r.dropped = more := hmore
  exact fits

end Guard

end GraphClustering
