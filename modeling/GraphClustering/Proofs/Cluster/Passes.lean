import GraphClustering.Proofs.Cluster.GreatestPart
import GraphClustering.Proofs.Cluster.QueuePhase
import GraphClustering.Proofs.Forest.Remainders

/-!
# The passes of the guard

The guard drops vertices in passes and hands those of each pass to a cluster before the
next one (`Passes`).  Whatever the metric, a pass that is not the last one makes the view
smaller, so there is at most one more of them than there are vertices, and together they
hand over what the guard is said to drop (`Passes.shrink_eq`).
-/

namespace GraphClustering

variable {α : Type} {f f' : Forest} {c : ClusterId} {v u : View α} {n fuel : Nat}

namespace Forest

theorem addToRemainder_nil (f : Forest) (c : ClusterId) : f.addToRemainder c [] = f := by
  refine congrArg Forest.mk (Array.ext_getElem? fun i => ?_)
  simp only [List.append_nil, Array.getElem?_modify]
  split
  · exact Option.map_id'
  · rfl

theorem addToRemainder_append (f : Forest) (c : ClusterId) (ids more : List Int) :
    (f.addToRemainder c ids).addToRemainder c more = f.addToRemainder c (ids ++ more) := by
  refine congrArg Forest.mk (Array.ext_getElem? fun i => ?_)
  simp only [addToRemainder, modify, Array.getElem?_modify]
  split
  · rw [Option.map_map]
    simp only [Function.comp_def, List.append_assoc]
  · rfl

end Forest

namespace Guard

variable [Scalar α] {g : Guard α} {kept : Option (View α)}

/-- The passes over a view, the last one included, as they change a forest: each hands the
vertices that it drops to the cluster `c`.  At the end a view is kept, or too few vertices
are left and the rest is handed over as well. -/
inductive Passes (g : Guard α) (c : ClusterId) :
    Nat → View α → Forest → Option (View α) → Forest → Prop where
  | few {v : View α} {f : Forest} (small : Number.less (.int v.order) g.minSize = true) :
      Passes g c 1 v f none (f.addToRemainder c v.vertexList)
  | fit {v : View α} {f : Forest} {scores : Array α}
      (large : Number.less (.int v.order) g.minSize = false)
      (scored : g.metric g.graph v = .ok scores) (fine : (g.split v scores).1 = []) :
      Passes g c 1 v f (some v) f
  | drop {n : Nat} {v : View α} {f f' : Forest} {kept : Option (View α)} {scores : Array α}
      (large : Number.less (.int v.order) g.minSize = false)
      (scored : g.metric g.graph v = .ok scores) (low : (g.split v scores).1 ≠ [])
      (rest : Passes g c n (v.restrict (g.split v scores).2)
        (f.addToRemainder c ((g.split v scores).1.map fun i => v.vertices.getD i 0)) kept f') :
      Passes g c (n + 1) v f kept f'

namespace Passes

/-- Every pass but the last one drops a vertex. -/
theorem le_order (h : g.Passes c n v f kept f') (hv : v.vertexList.Nodup) :
    n ≤ v.order + 1 := by
  induction h with
  | few | fit => exact Nat.succ_le_succ (Nat.zero_le _)
  | drop large scored low rest ih =>
      have fewer := (drops_restrict_split hv scored low).fewer
      have := ih (View.nodup_vertexList_restrict hv _)
      omega

/-- The passes together hand over what the guard drops, after what it has dropped before. -/
theorem shrink_eq (h : g.Passes c n v f kept f') (hn : n ≤ fuel) : ∃ dropped,
    f' = f.addToRemainder c dropped ∧
      ∀ before, g.shrink fuel v before = .ok ⟨kept, before ++ dropped⟩ := by
  induction h generalizing fuel with
  | few small =>
      obtain ⟨fuel, rfl⟩ := Nat.exists_eq_add_one.mpr hn
      refine ⟨_, rfl, fun before => ?_⟩
      rw [shrink, if_pos small]
  | fit large scored fine =>
      obtain ⟨fuel, rfl⟩ := Nat.exists_eq_add_one.mpr hn
      refine ⟨[], (Forest.addToRemainder_nil _ c).symm, fun before => ?_⟩
      rw [shrink, if_neg (Bool.eq_false_iff.mp large), List.append_nil]
      simp only [scored, bind, Except.bind, fine, List.isEmpty_nil, if_true]
  | drop large scored low rest ih =>
      obtain ⟨fuel, rfl⟩ := Nat.exists_eq_add_one_of_ne_zero (Nat.ne_zero_of_lt hn)
      obtain ⟨dropped, rfl, shrunk⟩ := ih (Nat.le_of_succ_le_succ hn)
      refine ⟨_, Forest.addToRemainder_append _ c _ dropped, fun before => ?_⟩
      rw [shrink, if_neg (Bool.eq_false_iff.mp large)]
      simp only [scored, bind, Except.bind]
      rw [if_neg (by rwa [List.isEmpty_iff]), shrunk, List.append_assoc]

/-- What is kept is the view itself or a part of it. -/
theorem eq_or_partOf (h : g.Passes c n v f (some u) f') : u = v ∨ u.PartOf v := by
  generalize hk : some u = kept at h
  induction h with
  | few => cases hk
  | fit =>
      cases hk
      exact .inl rfl
  | @drop _ v _ _ _ scores large scored low rest ih =>
      have part := v.partOf_restrict (g.split v scores).2
      rcases ih hk with rfl | below
      · exact .inr part
      · exact .inr (below.trans part)

end Passes

theorem Consistent.not_less {scores : Array α} (h : g.Consistent v)
    (scored : g.metric g.graph v = .ok scores) (size : scores.size = v.order) :
    ∀ x ∈ scores, Scalar.less x g.minLikelihood = false := by
  obtain ⟨scores', scored', high⟩ := h
  obtain rfl : scores' = scores := Except.ok.inj (scored'.symm.trans scored)
  intro x hx
  obtain ⟨i, hi, rfl⟩ := Array.mem_iff_getElem.mp hx
  have fine := high i (size ▸ hi)
  rwa [scoresLow, Array.getElem?_eq_getElem hi, Option.any_some] at fine

/-- The passes come to an end if the metric scores the view and all parts of it. -/
theorem exists_passes (c : ClusterId) (f : Forest) (hv : v.vertexList.Nodup)
    (answers : ∀ u, u = v ∨ u.PartOf v → ∃ scores, g.metric g.graph u = .ok scores) :
    ∃ n kept f', g.Passes c n v f kept f' := by
  induction v using (wellFounded_drops g).induction generalizing f with
  | _ v ih =>
      cases small : Number.less (.int v.order) g.minSize with
      | true => exact ⟨1, none, _, .few small⟩
      | false =>
          obtain ⟨scores, scored⟩ := answers v (.inl rfl)
          by_cases low : (g.split v scores).1 = []
          · exact ⟨1, some v, f, .fit small scored low⟩
          · have drops := drops_restrict_split hv scored low
            obtain ⟨n, kept, f', rest⟩ := ih _ drops
              (f.addToRemainder c ((g.split v scores).1.map fun i => v.vertices.getD i 0))
              (drops.part.nodup_vertexList hv) fun u hu =>
                answers u (.inr (hu.elim (fun same => same ▸ drops.part) (·.trans drops.part)))
            exact ⟨n + 1, kept, f', .drop small scored low rest⟩

/-- Under any metric with one score for each vertex, the guard ends after at most one pass
more than there are vertices, and puts at the end of the remainder of a cluster the vertices
that it does not keep, each once.  What it keeps is large enough, has no score below the
threshold, is the view itself just if nothing is dropped, and is kept whole if guarded
again. -/
theorem ensure_settles (hm : Number.atMost (.int 1) g.minSize = true) (hv : v.vertexList.Nodup)
    (answers : ∀ u, u = v ∨ u.PartOf v →
      ∃ scores, g.metric g.graph u = .ok scores ∧ scores.size = u.order)
    (hc : c < f.size) : ∃ n s f', g.ensure v = .ok s ∧ f' = f.addToRemainder c s.dropped ∧
      g.Passes c n v f s.kept f' ∧ n ≤ v.order + 1 ∧
      f'.remainder c = f.remainder c ++ s.dropped ∧ s.dropped.Nodup ∧
      (∀ id, id ∈ s.dropped ↔
        id ∈ v.vertexList ∧ ∀ u, s.kept = some u → id ∉ u.vertexList) ∧
      ∀ u, s.kept = some u → g.minSize.atMost (.int u.order) = true ∧
        (∃ scores, g.metric g.graph u = .ok scores ∧ scores.size = u.order ∧
          ∀ x ∈ scores, Scalar.less x g.minLikelihood = false) ∧
        (u = v ↔ s.dropped = []) ∧ g.ensure u = .ok ⟨some u, []⟩ := by
  obtain ⟨n, kept, f', passes⟩ := exists_passes c f hv fun u hu =>
    (answers u hu).imp fun _ h => h.1
  have count := passes.le_order hv
  obtain ⟨dropped, rfl, shrunk⟩ := passes.shrink_eq count
  have guarded : g.ensure v = .ok ⟨kept, dropped⟩ := shrunk []
  have fits := ensure_fits hv guarded
  refine ⟨n, ⟨kept, dropped⟩, _, guarded, rfl, passes, count, ?_, ?_,
    fun id => fits.mem_dropped_iff hv, ?_⟩
  · rw [Forest.remainder_addToRemainder _ _ _ _ hc, if_pos rfl]
  · exact (List.nodup_append.mp (fits.perm.nodup_iff.mpr hv)).2.1
  · rintro u rfl
    have consistent : g.Consistent u := fits.consistent u rfl
    have large := fits.notSmall u rfl
    obtain ⟨scores, scored, size⟩ := answers u passes.eq_or_partOf
    refine ⟨?_, ⟨scores, scored, size, consistent.not_less scored size⟩, fits.eq_iff rfl,
      consistent.ensure_eq large⟩
    rw [Number.atMost_eq_not_less (Number.isNan_eq_false_of_atMost hm), large, Bool.not_false]

end Guard

namespace Clustering

/-- A guard whose scores depend on how many vertices there are, up and down. -/
def fickle : Guard ℚ where
  metric _ v := .ok (v.vertices.map fun id : Int => if 4 ∣ id / 10 + 2 * v.order then 0 else 1)
  graph := pairs
  minSize := .int 2
  minLikelihood := 1 / 2

/-- A cluster with one vertex in its remainder. -/
def collector : Forest :=
  (Forest.empty.spawn none).1.addToRemainder 0 [7]

/-- The last vertex is dropped first, and then the second, which fitted before. -/
theorem ensure_settles_fickle : ∃ n u f', fickle.ensure pairs = .ok ⟨some u, [40, 20]⟩ ∧
    u.vertexList = [10, 30] ∧ fickle.Passes 0 n pairs collector (some u) f' ∧ n ≤ 5 ∧
    f'.remainder 0 = [7, 40, 20] ∧ fickle.ensure u = .ok ⟨some u, []⟩ := by
  obtain ⟨n, s, f', guarded, rfl, passes, count, appended, -, -, kept⟩ :=
    Guard.ensure_settles (g := fickle) (v := pairs) (f := collector) (c := 0) (by cbv) nodup_pairs
      (fun u _ => ⟨_, rfl, by rw [Array.size_map, View.vertices, Array.size_map, View.order]⟩)
      (by decide)
  obtain ⟨u, run, list⟩ : ∃ u, fickle.ensure pairs = .ok ⟨some u, [40, 20]⟩ ∧
      u.vertexList = [10, 30] := ⟨_, by cbv, by cbv⟩
  rw [run] at guarded
  cases guarded
  exact ⟨n, u, _, run, list, passes, count, appended, (kept u rfl).2.2.2⟩

end Clustering

end GraphClustering
