import GraphClustering.Graph.Components
import GraphClustering.Proofs.Graph.Parts
import GraphClustering.Spectral.Bisection

/-!
# Ways to cut a view into parts

The components of a view, and the two sides of a split, share the vertices of
the view out: each vertex lies in exactly one of them.  Nothing is assumed about
the entries of the store, so this holds even if a row lists a neighbour twice.
-/

namespace GraphClustering.View

variable {α : Type} {v u : View α} {marks visited : Array Bool} {i j fuel : Nat}
variable {frontier members : List Nat}

/-! ## Marks -/

theorem getD_setIfInBounds (marks : Array Bool) (i j : Nat) :
    (marks.setIfInBounds i true).getD j true = (marks.getD j true || decide (j = i)) := by
  simp only [Array.getD_eq_getD_getElem?, Array.getElem?_setIfInBounds]
  by_cases hij : i = j
  · subst hij
    by_cases hi : i < marks.size <;> simp [hi]
  · simp [hij, Ne.symm hij]

theorem getD_foldl_setIfInBounds (js : List Nat) (marks : Array Bool) (i : Nat) :
    (js.foldl (fun marks j => marks.setIfInBounds j true) marks).getD i true =
      (marks.getD i true || decide (i ∈ js)) := by
  induction js generalizing marks with
  | nil => simp
  | cons j js ih =>
      rw [List.foldl_cons, ih, getD_setIfInBounds]
      by_cases hij : i = j <;> simp [hij]

/-! ## Growing a component -/

/-- A search adds vertices that were not visited before, and visits just these. -/
theorem grow_spec (v : View α) (fuel : Nat) (frontier : List Nat) (visited : Array Bool)
    (members : List Nat) :
    ∃ added, (v.grow fuel frontier visited members).2 = added ++ members ∧
      (∀ j ∈ added, visited.getD j true = false) ∧
      ∀ j, (v.grow fuel frontier visited members).1.getD j true =
        (visited.getD j true || decide (j ∈ added)) := by
  induction fuel generalizing frontier visited members with
  | zero => exact ⟨[], by simp [grow], by simp, by simp [grow]⟩
  | succ fuel ih =>
      cases frontier with
      | nil => exact ⟨[], by simp [grow], by simp, by simp [grow]⟩
      | cons i frontier =>
          rw [grow]
          obtain ⟨added, hmembers, hnew, hmarks⟩ := ih
            (frontier ++ (v.neighbourIds i).filter fun j => !visited.getD j true)
            (((v.neighbourIds i).filter fun j => !visited.getD j true).foldl
              (fun marks j => marks.setIfInBounds j true) visited)
            (((v.neighbourIds i).filter fun j => !visited.getD j true).reverse ++ members)
          refine ⟨added ++ ((v.neighbourIds i).filter fun j => !visited.getD j true).reverse,
            by rw [hmembers, List.append_assoc], ?_, ?_⟩
          · intro j hj
            rcases List.mem_append.mp hj with hj | hj
            · have marked := hnew j hj
              rw [getD_foldl_setIfInBounds, Bool.or_eq_false_iff] at marked
              exact marked.1
            · simpa using (List.mem_filter.mp (List.mem_reverse.mp hj)).2
          · intro j
            rw [hmarks, getD_foldl_setIfInBounds, Bool.or_assoc, ← Bool.decide_or]
            simp only [List.mem_append, List.mem_reverse, or_comm]

/-- A search from one vertex visits just its members, none of them for the second time. -/
theorem grow_start_spec (v : View α) (fuel : Nat) (hi : visited.getD i true = false) :
    i ∈ (v.grow fuel [i] (visited.setIfInBounds i true) [i]).2 ∧
      (∀ j ∈ (v.grow fuel [i] (visited.setIfInBounds i true) [i]).2,
        visited.getD j true = false) ∧
      ∀ j, (v.grow fuel [i] (visited.setIfInBounds i true) [i]).1.getD j true =
        (visited.getD j true ||
          decide (j ∈ (v.grow fuel [i] (visited.setIfInBounds i true) [i]).2)) := by
  obtain ⟨added, hmembers, hnew, hmarks⟩ :=
    grow_spec v fuel [i] (visited.setIfInBounds i true) [i]
  rw [hmembers]
  refine ⟨by simp, ?_, ?_⟩
  · intro j hj
    rcases List.mem_append.mp hj with hj | hj
    · have marked := hnew j hj
      rw [getD_setIfInBounds, Bool.or_eq_false_iff] at marked
      exact marked.1
    · rw [List.mem_singleton.mp hj]
      exact hi
  · intro j
    rw [hmarks, getD_setIfInBounds, Bool.or_assoc, ← Bool.decide_or]
    simp only [List.mem_append, List.mem_singleton, or_comm]

/-- The state of a search for components: the visited vertices are those of the
components found so far, which are disjoint lists of vertices of the view. -/
structure Search.Sound (v : View α) (s : Search) : Prop where
  visited_iff : ∀ j, s.visited.getD j true = true ↔ v.order ≤ j ∨ ∃ L ∈ s.found, j ∈ L
  disjoint : s.found.Pairwise List.Disjoint
  lt_order : ∀ L ∈ s.found, ∀ j ∈ L, j < v.order
  nonempty : ∀ L ∈ s.found, L ≠ []

theorem sound_start (v : View α) :
    Search.Sound v ⟨Array.replicate v.order false, []⟩ where
  visited_iff j := by
    simp only [Array.getD_eq_getD_getElem?, Array.getElem?_replicate]
    by_cases hj : j < v.order
    · simp [hj]
    · simp [hj, Nat.le_of_not_lt hj]
  disjoint := List.Pairwise.nil
  lt_order := by simp
  nonempty := by simp

theorem Search.Sound.visit {s : Search} (hs : s.Sound v) (i : Nat) :
    (v.visit s i).Sound v ∧ (v.visit s i).visited.getD i true = true ∧
      ∀ j, s.visited.getD j true = true → (v.visit s i).visited.getD j true = true := by
  rw [View.visit]
  split
  · rename_i hi
    exact ⟨hs, hi, fun _ h => h⟩
  · rename_i hi
    obtain ⟨start, component, marks⟩ :=
      grow_start_spec v (v.order + 1) (Bool.eq_false_iff.mpr hi)
    have unvisited : ∀ j, s.visited.getD j true = false →
        j < v.order ∧ ∀ L ∈ s.found, j ∉ L := by
      intro j hj
      have := mt (hs.visited_iff j).mpr (by rw [hj]; simp)
      exact ⟨Nat.lt_of_not_le fun h => this (.inl h), fun L hL hjL => this (.inr ⟨L, hL, hjL⟩)⟩
    refine ⟨⟨?_, ?_, ?_, ?_⟩, ?_, ?_⟩
    · intro j
      rw [marks, Bool.or_eq_true, hs.visited_iff, decide_eq_true_iff]
      simp only [List.mem_cons, exists_eq_or_imp, List.mem_reverse]
      rw [or_assoc, or_comm (b := j ∈ _)]
    · refine List.pairwise_cons.mpr ⟨fun L hL j hj hjL => ?_, hs.disjoint⟩
      exact (unvisited j (component j (List.mem_reverse.mp hj))).2 L hL hjL
    · intro L hL j hj
      rcases List.mem_cons.mp hL with rfl | hL
      · exact (unvisited j (component j (List.mem_reverse.mp hj))).1
      · exact hs.lt_order L hL j hj
    · intro L hL
      rcases List.mem_cons.mp hL with rfl | hL
      · exact List.ne_nil_of_mem (List.mem_reverse.mpr start)
      · exact hs.nonempty L hL
    · rw [marks, decide_eq_true start, Bool.or_true]
    · intro j hj
      rw [marks, hj, Bool.true_or]

/-- A search that visits several vertices in turn has them all among its components. -/
theorem Search.Sound.visitAll {s : Search} (hs : s.Sound v) (js : List Nat) :
    (js.foldl v.visit s).Sound v ∧ (∀ j ∈ js, (js.foldl v.visit s).visited.getD j true = true) ∧
      ∀ j, s.visited.getD j true = true → (js.foldl v.visit s).visited.getD j true = true := by
  induction js generalizing s with
  | nil => exact ⟨hs, by simp, fun _ h => h⟩
  | cons i js ih =>
      obtain ⟨sound, marked, kept⟩ := hs.visit i
      obtain ⟨sound', marked', kept'⟩ := ih sound
      refine ⟨sound', ?_, fun j hj => kept' j (kept j hj)⟩
      intro j hj
      rcases List.mem_cons.mp hj with rfl | hj
      · exact kept' j marked
      · exact marked' j hj

theorem componentIds_sound (v : View α) :
    v.componentIds.Pairwise List.Disjoint ∧ (∀ i < v.order, ∃ L ∈ v.componentIds, i ∈ L) ∧
      ∀ L ∈ v.componentIds, L ≠ [] ∧ ∀ j ∈ L, j < v.order := by
  obtain ⟨sound, marked, -⟩ := (sound_start v).visitAll (List.range v.order)
  rw [componentIds]
  refine ⟨List.pairwise_reverse.mpr (sound.disjoint.imp fun h => List.disjoint_comm.mp h), ?_, ?_⟩
  · intro i hi
    have visited := marked i (List.mem_range.mpr hi)
    obtain ⟨L, hL, hiL⟩ := ((sound.visited_iff i).mp visited).resolve_left (Nat.not_le.mpr hi)
    exact ⟨L, List.mem_reverse.mpr hL, hiL⟩
  · intro L hL
    rw [List.mem_reverse] at hL
    exact ⟨sound.nonempty L hL, sound.lt_order L hL⟩

/-- The components of a view share its vertices out. -/
theorem components_perm (hv : v.vertexList.Nodup) :
    (v.components.flatMap vertexList).Perm v.vertexList := by
  rw [components, List.flatMap_map]
  exact flatMap_restrict_perm hv (componentIds_sound v).1 (componentIds_sound v).2.1

theorem order_pos_of_mem_components {u : View α} (hu : u ∈ v.components) : 0 < u.order := by
  obtain ⟨L, hL, rfl⟩ := List.mem_map.mp hu
  obtain ⟨hne, hlt⟩ := (componentIds_sound v).2.2 L hL
  obtain ⟨i, hi⟩ := List.exists_mem_of_ne_nil L hne
  have hsize : i < v.rows.size := hlt i hi
  have row : v.rows[i]? = some v.rows[i] := Array.getElem?_eq_getElem hsize
  rw [order]
  exact Array.size_pos_iff.mpr fun h => by
    have := mem_rows_restrict.mpr ⟨i, hi, row⟩
    rw [h] at this
    cases this

theorem partOf_of_mem_components (hu : u ∈ v.components) : u.PartOf v := by
  obtain ⟨L, -, rfl⟩ := List.mem_map.mp hu
  exact v.partOf_restrict L

theorem nodup_of_mem_components {u : View α} (hv : v.vertexList.Nodup) (hu : u ∈ v.components) :
    u.vertexList.Nodup :=
  (partOf_of_mem_components hu).nodup_vertexList hv

/-! ## The sides of a split -/

theorem mem_sides_fst {positive : List Bool} :
    i ∈ (Bisection.sides positive).1 ↔ positive[i]? = some false := by
  simp only [Bisection.sides, List.mem_map, List.mem_filter, Prod.exists,
    List.mem_zipIdx_iff_getElem?]
  simp

theorem mem_sides_snd {positive : List Bool} :
    i ∈ (Bisection.sides positive).2 ↔ positive[i]? = some true := by
  simp only [Bisection.sides, List.mem_map, List.mem_filter, Prod.exists,
    List.mem_zipIdx_iff_getElem?]
  simp

/-- The sides of a split with a sign for each vertex share the vertices out. -/
theorem parts_perm (hv : v.vertexList.Nodup) {positive : List Bool}
    (h : positive.length = v.order) :
    ((Bisection.parts v positive).flatMap vertexList).Perm v.vertexList := by
  have shared : ([(Bisection.sides positive).1, (Bisection.sides positive).2].flatMap
      fun L => (v.restrict L).vertexList).Perm v.vertexList := flatMap_restrict_perm hv
    (by
      rw [List.pairwise_pair]
      intro i hi hi'
      rw [mem_sides_fst] at hi
      rw [mem_sides_snd, hi] at hi'
      cases hi')
    (fun i hi => by
      have sign : positive[i]? = some positive[i] := List.getElem?_eq_getElem (h ▸ hi)
      cases hs : positive[i] with
      | false => exact ⟨_, List.mem_cons_self, mem_sides_fst.mpr (hs ▸ sign)⟩
      | true => exact ⟨_, List.mem_cons_of_mem _ List.mem_cons_self,
          mem_sides_snd.mpr (hs ▸ sign)⟩)
  simpa [Bisection.parts] using shared

theorem partOf_of_mem_parts {positive : List Bool} (hu : u ∈ Bisection.parts v positive) :
    u.PartOf v := by
  rw [Bisection.parts, List.mem_pair] at hu
  rcases hu with rfl | rfl <;> exact v.partOf_restrict _

theorem nodup_of_mem_parts (hv : v.vertexList.Nodup) {positive : List Bool}
    (hu : u ∈ Bisection.parts v positive) : u.vertexList.Nodup :=
  (partOf_of_mem_parts hu).nodup_vertexList hv

end GraphClustering.View
