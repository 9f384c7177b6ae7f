import GraphClustering.Proofs.Cluster.Guard
import GraphClustering.Proofs.Graph.Parts
import GraphClustering.Proofs.Number

/-!
# The greatest consistent part of a view

Under a metric by which no vertex scores higher in a smaller part, a vertex that
fails in a part fails in all parts of it.  So a part without a failing vertex
survives every way to drop failing vertices, and dropping them until none fails
ends, in any order, at the greatest such part (`eq_of_reaches`).  The guard takes
one of these ways, cut short where too few vertices are left (`shrink_reaches`).
-/

namespace GraphClustering

open Relation

variable {α : Type} [Scalar α] {v u w : View α} {id : Int}

/-- A metric that scores each vertex of every part of a view, and none lower than
it does in a smaller part: what the greater score is below, so is the smaller one. -/
structure Metric.MonotoneOn (f : Metric α) (graph v : View α) : Prop where
  answers : ∀ u, u.PartOf v → ∃ scores, f graph u = .ok scores ∧ scores.size = u.order
  mono : ∀ u w, u.PartOf w → w.PartOf v → ∀ scores scores', f graph u = .ok scores →
    f graph w = .ok scores' → ∀ id (i j : Nat) s s', u.vertices[i]? = some id →
      w.vertices[j]? = some id → scores[i]? = some s → scores'[j]? = some s' →
        ∀ x, Scalar.less s' x = true → Scalar.less s x = true

theorem Metric.MonotoneOn.of_partOf {f : Metric α} {graph : View α} (h : f.MonotoneOn graph v)
    (hu : u.PartOf v) : f.MonotoneOn graph u where
  answers w hw := h.answers w (hw.trans hu)
  mono u' w' part hw := h.mono u' w' part (hw.trans hu)

namespace Guard

variable {g : Guard α}

/-- No vertex of a view scores below the threshold. -/
def Consistent (g : Guard α) (u : View α) : Prop :=
  ∃ scores, g.metric g.graph u = .ok scores ∧ ∀ i < u.order, g.scoresLow scores i = false

instance (g : Guard α) (u : View α) : Decidable (g.Consistent u) :=
  match h : g.metric g.graph u with
  | .ok scores => decidable_of_iff (∀ i < u.order, g.scoresLow scores i = false)
      ⟨fun high => ⟨scores, h, high⟩, fun ⟨_, hs, high⟩ => Except.ok.inj (h.symm.trans hs) ▸ high⟩
  | .error _ => isFalse fun ⟨_, hs, _⟩ => nomatch h.symm.trans hs

/-- A vertex of a view scores below the threshold. -/
def Fails (g : Guard α) (u : View α) (id : Int) : Prop :=
  ∃ (scores : Array α) (i : Nat), g.metric g.graph u = .ok scores ∧ u.vertices[i]? = some id ∧
    g.scoresLow scores i = true

/-- One step of any procedure that drops some vertices, all of which fail. -/
structure Drops (g : Guard α) (u w : View α) : Prop where
  part : w.PartOf u
  fewer : w.order < u.order
  fails : ∀ id ∈ u.vertexList, id ∉ w.vertexList → g.Fails u id

/-- The vertices of all consistent parts of a view. -/
def core (g : Guard α) (v : View α) : Set Int :=
  {id | ∃ u, u.PartOf v ∧ g.Consistent u ∧ id ∈ u.vertexList}

/-! ## Failing -/

theorem Consistent.not_fails (h : g.Consistent u) (id : Int) : ¬ g.Fails u id := by
  rintro ⟨scores', i, hscores', hi, low⟩
  obtain ⟨scores, hscores, high⟩ := h
  rw [hscores] at hscores'
  cases hscores'
  rw [high i (View.lt_order_of_getElem? hi)] at low
  cases low

/-- What fails in a part fails in all parts of it. -/
theorem Fails.of_partOf (mono : g.metric.MonotoneOn g.graph v) (huw : u.PartOf w)
    (hwv : w.PartOf v) (hid : id ∈ u.vertexList) (h : g.Fails w id) : g.Fails u id := by
  obtain ⟨scores', j, hscores', hj, low⟩ := h
  obtain ⟨scores, hscores, size⟩ := mono.answers u (huw.trans hwv)
  obtain ⟨i, hi⟩ := View.mem_vertexList_iff.mp hid
  have hlt : i < scores.size := size ▸ View.lt_order_of_getElem? hi
  rw [scoresLow, Option.any_eq_true] at low
  obtain ⟨s', hs', below⟩ := low
  refine ⟨scores, i, hscores, hi, ?_⟩
  rw [scoresLow, Array.getElem?_eq_getElem hlt, Option.any_some]
  exact mono.mono u w huw hwv scores scores' hscores hscores' id i j _ s' hi hj
    (Array.getElem?_eq_getElem hlt) hs' _ below

/-- The pass of the guard drops failing vertices. -/
theorem drops_restrict_split {scores : Array α} (hv : v.vertexList.Nodup)
    (hscores : g.metric g.graph v = .ok scores) (low : (g.split v scores).1 ≠ []) :
    g.Drops v (v.restrict (g.split v scores).2) where
  part := v.partOf_restrict _
  fewer := by
    have order := order_restrict_split (g := g) hv scores
    have some := List.length_pos_of_ne_nil low
    omega
  fails id hid hnot := by
    obtain ⟨i, hi⟩ := View.mem_vertexList_iff.mp hid
    refine ⟨scores, i, hscores, hi, ?_⟩
    by_contra high
    refine hnot (View.mem_vertexList_restrict.mpr ⟨i, ?_, hi⟩)
    rw [split_eq, List.mem_filter, List.mem_range]
    exact ⟨View.lt_order_of_getElem? hi, by simpa using high⟩

theorem exists_drops (hv : v.vertexList.Nodup) {scores : Array α}
    (hscores : g.metric g.graph v = .ok scores) (h : ¬ g.Consistent v) : ∃ w, g.Drops v w := by
  exact ⟨_, drops_restrict_split hv hscores fun low =>
    h ⟨scores, hscores, split_fst_eq_nil_iff.mp low⟩⟩

theorem Consistent.not_drops (hu : u.vertexList.Nodup) (h : g.Consistent u) : ¬ g.Drops u w := by
  intro drops
  have kept : u.vertexList ⊆ w.vertexList := fun id hid => by
    by_contra lost
    exact h.not_fails id (drops.fails id hid lost)
  have le := (hu.subperm kept).length_le
  rw [View.length_vertexList, View.length_vertexList] at le
  exact absurd drops.fewer (Nat.not_lt.mpr le)

/-! ## Dropping in any order -/

/-- What is left after some steps is a part that still has all consistent parts. -/
theorem partOf_of_reaches (mono : g.metric.MonotoneOn g.graph v) (hv : v.vertexList.Nodup)
    (ascending : v.rows.toList.Pairwise (· < ·)) (h : ReflTransGen g.Drops v w) :
    w.PartOf v ∧ ∀ u, u.PartOf v → g.Consistent u → u.PartOf w := by
  induction h with
  | refl => exact ⟨.refl ascending, fun u hu _ => hu⟩
  | @tail w w' _ drops ih =>
      obtain ⟨hw, survives⟩ := ih
      refine ⟨drops.part.trans hw, fun u hu consistent => ?_⟩
      refine hu.of_vertexList_subset hv (drops.part.trans hw) fun id hid => ?_
      by_contra lost
      have part := survives u hu consistent
      exact consistent.not_fails id
        ((drops.fails id (part.vertexList_subset hid) lost).of_partOf mono part hw hid)

/-- Where no vertex fails any more, just the vertices of all consistent parts are left. -/
theorem mem_core_iff_of_reaches (mono : g.metric.MonotoneOn g.graph v) (hv : v.vertexList.Nodup)
    (ascending : v.rows.toList.Pairwise (· < ·)) (h : ReflTransGen g.Drops v w)
    (hw : g.Consistent w) : id ∈ w.vertexList ↔ id ∈ g.core v := by
  obtain ⟨part, survives⟩ := partOf_of_reaches mono hv ascending h
  constructor
  · intro hid
    exact ⟨w, part, hw, hid⟩
  · rintro ⟨u, hu, consistent, hid⟩
    exact (survives u hu consistent).vertexList_subset hid

theorem ncard_core (hu : u.vertexList.Nodup) (core : ∀ id, id ∈ u.vertexList ↔ id ∈ g.core v) :
    (g.core v).ncard = u.order := by
  have set : g.core v = u.vertexList.toFinset := by
    ext id
    rw [List.coe_toFinset]
    exact (core id).symm
  rw [set, Set.ncard_coe_finset, List.toFinset_card_of_nodup hu, View.length_vertexList]

/-- All ways to drop failing vertices until none fails end alike. -/
theorem eq_of_reaches (mono : g.metric.MonotoneOn g.graph v) (hv : v.vertexList.Nodup)
    (ascending : v.rows.toList.Pairwise (· < ·)) (hu : ReflTransGen g.Drops v u)
    (hw : ReflTransGen g.Drops v w) (consistent : g.Consistent u) (consistent' : g.Consistent w) :
    u = w :=
  View.PartOf.eq_of_vertices hv (partOf_of_reaches mono hv ascending hu).1
    (partOf_of_reaches mono hv ascending hw).1 fun _ =>
      (mem_core_iff_of_reaches mono hv ascending hu consistent).trans
        (mem_core_iff_of_reaches mono hv ascending hw consistent').symm

theorem wellFounded_drops (g : Guard α) : WellFounded fun w u => g.Drops u w :=
  Subrelation.wf (fun drops => drops.fewer) (measure View.order).wf

theorem exists_consistent_of_answers (hv : v.vertexList.Nodup)
    (ascending : v.rows.toList.Pairwise (· < ·))
    (answers : ∀ u, u.PartOf v → ∃ scores, g.metric g.graph u = .ok scores) :
    ∃ w, ReflTransGen g.Drops v w ∧ g.Consistent w := by
  induction v using (wellFounded_drops g).induction with
  | _ v ih =>
      by_cases consistent : g.Consistent v
      · exact ⟨v, .refl, consistent⟩
      · obtain ⟨scores, hscores⟩ := answers v (.refl ascending)
        obtain ⟨u, drops⟩ := exists_drops hv hscores consistent
        obtain ⟨w, reach, hw⟩ := ih u drops (drops.part.nodup_vertexList hv) drops.part.ascending
          fun t ht => answers t (ht.trans drops.part)
        exact ⟨w, reach.head drops, hw⟩

/-! ## The way of the guard -/

/-- What the guard keeps is a part of the view. -/
theorem partOf_of_shrink {fuel : Nat} {before : List Int} {s : Guarded α}
    (ascending : v.rows.toList.Pairwise (· < ·)) (h : g.shrink fuel v before = .ok s)
    (hu : s.kept = some u) : u.PartOf v := by
  induction fuel generalizing v before with
  | zero =>
      cases h
      cases hu
      exact .refl ascending
  | succ fuel ih =>
      rw [shrink] at h
      split at h
      · cases h
        cases hu
      · obtain ⟨scores, -, h⟩ := exists_of_bind_eq_ok h
        dsimp only at h
        split at h
        · cases h
          cases hu
          exact .refl ascending
        · have part := v.partOf_restrict (g.split v scores).2
          exact (ih part.ascending h).trans part

/-- The guard fails only where the metric does so on a part of the view. -/
theorem exists_partOf_of_ensure_eq_error {e : Fault} (ascending : v.rows.toList.Pairwise (· < ·))
    (h : g.ensure v = .error e) : ∃ u, u.PartOf v ∧ g.metric g.graph u = .error e := by
  suffices ∀ fuel v before, v.rows.toList.Pairwise (· < ·) → g.shrink fuel v before = .error e →
      ∃ u, u.PartOf v ∧ g.metric g.graph u = .error e from this _ _ _ ascending h
  intro fuel
  induction fuel with
  | zero => rintro v before - ⟨⟩
  | succ fuel ih =>
      intro v before ascending h
      rw [shrink] at h
      split at h
      · cases h
      · rcases cases_of_bind_eq_error h with h | ⟨scores, -, h⟩
        · exact ⟨v, .refl ascending, h⟩
        · dsimp only at h
          split at h
          · cases h
          · have part := v.partOf_restrict (g.split v scores).2
            obtain ⟨u, hu, fails⟩ := ih _ _ part.ascending h
            exact ⟨u, hu.trans part, fails⟩

/-- The guard keeps a view that is large enough and in which no vertex fails. -/
theorem Consistent.ensure_eq (h : g.Consistent v)
    (large : Number.less (.int v.order) g.minSize = false) :
    g.ensure v = .ok ⟨some v, []⟩ := by
  obtain ⟨scores, hscores, high⟩ := h
  have low := split_fst_eq_nil_iff.mpr high
  rw [ensure, shrink, large, if_neg Bool.false_ne_true]
  simp only [hscores, bind, Except.bind, low, List.isEmpty_nil, if_true]

theorem ensure_eq_error {e : Fault} (large : Number.less (.int v.order) g.minSize = false)
    (h : g.metric g.graph v = .error e) : g.ensure v = .error e := by
  rw [ensure, shrink, large, if_neg Bool.false_ne_true, h]
  rfl

/-- The guard drops failing vertices until none fails or too few are left. -/
theorem shrink_reaches {fuel : Nat} (before : List Int) (hv : v.vertexList.Nodup)
    (ascending : v.rows.toList.Pairwise (· < ·))
    (answers : ∀ u, u.PartOf v → ∃ scores, g.metric g.graph u = .ok scores)
    (hfuel : v.order < fuel) : ∃ s, g.shrink fuel v before = .ok s ∧
      ((∃ u, s.kept = some u ∧ ReflTransGen g.Drops v u ∧ g.Consistent u ∧
          Number.less (.int u.order) g.minSize = false) ∨
        s.kept = none ∧ ∃ u, ReflTransGen g.Drops v u ∧
          Number.less (.int u.order) g.minSize = true) := by
  induction fuel generalizing v before with
  | zero => cases hfuel
  | succ fuel ih =>
      rw [shrink]
      by_cases small : Number.less (.int v.order) g.minSize = true
      · rw [if_pos small]
        exact ⟨_, rfl, .inr ⟨rfl, v, .refl, small⟩⟩
      · rw [if_neg small]
        obtain ⟨scores, hscores⟩ := answers v (.refl ascending)
        simp only [hscores, bind, Except.bind]
        by_cases low : (g.split v scores).1 = []
        · rw [low, List.isEmpty_nil, if_pos rfl]
          exact ⟨_, rfl, .inl ⟨v, rfl, .refl, ⟨scores, hscores, split_fst_eq_nil_iff.mp low⟩,
            Bool.eq_false_iff.mpr small⟩⟩
        · have drops := drops_restrict_split hv hscores low
          have fewer := drops.fewer
          rw [if_neg (by rwa [List.isEmpty_iff])]
          obtain ⟨s, hs, reached⟩ := ih _ (drops.part.nodup_vertexList hv) drops.part.ascending
            (fun u hu => answers u (hu.trans drops.part)) (by omega)
          refine ⟨s, hs, reached.imp ?_ ?_⟩
          · rintro ⟨u, hu, reach, rest⟩
            exact ⟨u, hu, reach.head drops, rest⟩
          · rintro ⟨hnone, u, reach, few⟩
            exact ⟨hnone, u, reach.head drops, few⟩

/-- Under a metric by which no vertex scores higher in a smaller part, the guard keeps every
consistent part of a view that is large enough. -/
theorem exists_kept_of_consistent {s : Guarded α} (mono : g.metric.MonotoneOn g.graph v)
    (hv : v.vertexList.Nodup) (ascending : v.rows.toList.Pairwise (· < ·))
    (hs : g.ensure v = .ok s) (part : w.PartOf v) (consistent : g.Consistent w)
    (large : Number.less (.int w.order) g.minSize = false) : ∃ u, s.kept = some u ∧ w.PartOf u := by
  obtain ⟨s', hs', outcome⟩ := shrink_reaches (g := g) [] hv ascending
    (fun u hu => (mono.answers u hu).imp fun _ h => h.1) (Nat.lt_succ_self v.order)
  obtain rfl : s = s' := Except.ok.inj (hs.symm.trans hs')
  have survives := fun {u} reach =>
    (partOf_of_reaches mono hv ascending reach (w := u)).2 w part consistent
  rcases outcome with ⟨u, kept, reach, -, -⟩ | ⟨-, u, reach, small⟩
  · exact ⟨u, kept, survives reach⟩
  · have le := (survives reach).order_le
    rw [Number.less_of_le_of_less (Int.ofNat_le.mpr le) small] at large
    cases large

end Guard

end GraphClustering
