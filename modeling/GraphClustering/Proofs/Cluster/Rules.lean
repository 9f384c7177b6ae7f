import GraphClustering.Cluster.Postprocessing
import GraphClustering.Proofs.Cluster.GreatestPart
import GraphClustering.Proofs.Forest.Rewrite
import GraphClustering.Proofs.Graph.Weights

/-!
# The rules of postprocessing

A rule that reports a change has made one rewrite, and one that reports none has
left the tree as it is (`TreeRule.Sound`).  What it means that a rule has nothing
to do at a cluster is read off from the same case analyses, and so is why a rule
can fail.
-/

namespace GraphClustering

open Forest

variable {α : Type} {f f' : Forest} {c p r : ClusterId} {b : Bool} {e : Fault} {v : View α}

namespace TreeRule

/-- What a rule reports is what it has done to the tree with root `r`. -/
structure Sound (r : ClusterId) (rule : TreeRule) : Prop where
  changed : ∀ {f c f'}, f.Rooted r → f.root c = r → rule f c = .ok (f', true) → Rewrite r f f'
  unchanged : ∀ {f c f'}, rule f c = .ok (f', false) → f' = f

/-! ## Collapsing -/

theorem collapse_cases (h : collapse f c = .ok (f', b)) :
    (f.parent c = none ∧ f' = f ∧ b = false) ∨ ∃ p, f.parent c = some p ∧
      ((f.children p).length ≠ 1 ∧ f' = f ∧ b = false ∨ f' = f.absorb p c true ∧ b = true) := by
  rw [collapse] at h
  cases hp : f.parent c with
  | none =>
      rw [hp] at h
      cases h
      exact .inl ⟨rfl, rfl, rfl⟩
  | some p =>
      rw [hp] at h
      dsimp only at h
      refine .inr ⟨p, rfl, ?_⟩
      split at h
      · rw [assimilate, if_pos hp] at h
        cases h
        exact .inr ⟨rfl, rfl⟩
      · rename_i several
        cases h
        exact .inl ⟨several, rfl, rfl⟩

theorem collapse_sound (r : ClusterId) : Sound r collapse where
  changed hf hc h := by
    rcases collapse_cases h with ⟨-, -, hb⟩ | ⟨p, hp, ⟨-, -, hb⟩ | ⟨rfl, -⟩⟩
    · cases hb
    · cases hb
    · exact .merge hc hp
  unchanged h := by
    rcases collapse_cases h with ⟨-, rfl, -⟩ | ⟨p, hp, ⟨-, rfl, -⟩ | ⟨-, hb⟩⟩
    · rfl
    · rfl
    · cases hb

theorem exists_collapse (f : Forest) (c : ClusterId) : ∃ x, collapse f c = .ok x := by
  rw [collapse]
  cases hp : f.parent c with
  | none => exact ⟨_, rfl⟩
  | some p =>
      dsimp only
      split
      · rw [assimilate, if_pos hp]; exact ⟨_, rfl⟩
      · exact ⟨_, rfl⟩

/-- Where there is nothing to collapse, the cluster has siblings. -/
theorem length_children_ne_one (h : collapse f c = .ok (f', false)) (hp : f.parent c = some p) :
    (f.children p).length ≠ 1 := by
  rcases collapse_cases h with ⟨hnone, -, -⟩ | ⟨q, hq, ⟨several, -, -⟩ | ⟨-, hb⟩⟩
  · rw [hp] at hnone; cases hnone
  · rw [hp] at hq; cases hq; exact several
  · cases hb

/-! ## Evicting -/

section Evict

variable [Scalar α] {g : Guard α}

/-- The tree after the dropped vertices of a cluster were handed to its parent. -/
def evicted (f : Forest) (c p : ClusterId) (s : Guarded α) : Forest :=
  let rest := f.removeFromAll (f.walk c) s.dropped
  (if s.kept.isSome then rest else rest.absorb p c false).addToRemainder p s.dropped

theorem evict_of_parent (hp : f.parent c = some p) : evict g f c = (do
    let s ← g.ensure (← aggregateView g.graph f c)
    .ok (if s.kept.isSome && s.dropped.isEmpty then (f, false) else (evicted f c p s, true))) := by
  rw [evict, hp]
  dsimp only
  cases aggregateView g.graph f c with
  | error e => rfl
  | ok v =>
      cases hs : g.ensure v with
      | error e => simp only [bind, Except.bind, hs]
      | ok s =>
          have child : (f.removeFromAll (f.walk c) s.dropped).parent c = some p :=
            ((SameLinks.removeFromAll f (f.walk c) s.dropped).parent c).trans hp
          rw [removeFromAll] at child
          simp only [bind, Except.bind, hs, assimilate, if_pos child, evicted, removeFromAll]
          split
          · rfl
          · cases s.kept.isSome <;> rfl

theorem evict_cases (h : evict g f c = .ok (f', b)) :
    (f.parent c = none ∧ f' = f ∧ b = false) ∨ ∃ p v s, f.parent c = some p ∧
      aggregateView g.graph f c = .ok v ∧ g.ensure v = .ok s ∧
      ((s.kept.isSome ∧ s.dropped = [] ∧ f' = f ∧ b = false) ∨
        ((s.kept.isSome → s.dropped ≠ []) ∧ f' = evicted f c p s ∧ b = true)) := by
  cases hp : f.parent c with
  | none =>
      rw [evict, hp] at h
      cases h
      exact .inl ⟨rfl, rfl, rfl⟩
  | some p =>
      rw [evict_of_parent hp] at h
      obtain ⟨v, hv, h⟩ := exists_of_bind_eq_ok h
      obtain ⟨s, hs, h⟩ := exists_of_bind_eq_ok h
      refine .inr ⟨p, v, s, rfl, hv, hs, ?_⟩
      split at h
      · rename_i kept
        rw [Bool.and_eq_true, List.isEmpty_iff] at kept
        cases h
        exact .inl ⟨kept.1, kept.2, rfl, rfl⟩
      · rename_i kept
        rw [Bool.and_eq_true, List.isEmpty_iff, not_and] at kept
        cases h
        exact .inr ⟨kept, rfl, rfl⟩

theorem mem_dropped_iff (hv : aggregateView g.graph f c = .ok v) {s : Guarded α}
    (hs : g.ensure v = .ok s) : s.dropped.Nodup ∧ s.dropped ⊆ f.aggregate c ∧
      (s.kept = none → ∀ id, id ∈ s.dropped ↔ id ∈ f.aggregate c) := by
  have nodup := View.nodup_vertexList_of_induced hv
  have fits := Guard.ensure_fits nodup hs
  have parts := fits.perm.nodup_iff.mpr nodup
  refine ⟨(List.nodup_append.mp parts).2.1, ?_, ?_⟩
  · intro id hid
    exact (View.mem_vertexList_of_induced hv).mp (fits.perm.subset (List.mem_append_right _ hid))
  · intro hnone id
    have all := fits.perm
    rw [hnone, Option.elim_none, List.nil_append] at all
    exact all.mem_iff.trans (View.mem_vertexList_of_induced hv)

theorem evict_sound (g : Guard α) (r : ClusterId) : Sound r (evict g) where
  changed hf hc h := by
    rcases evict_cases h with ⟨-, -, hb⟩ | ⟨p, v, s, hp, hv, hs, ⟨-, -, -, hb⟩ | ⟨kept, rfl, -⟩⟩
    · cases hb
    · cases hb
    · obtain ⟨nodup, subset, all⟩ := mem_dropped_iff hv hs
      rw [evicted]
      cases hkept : s.kept with
      | none => exact .dissolve hc hp nodup (all hkept)
      | some u => exact .evict hc hp nodup subset (kept (by rw [hkept]; rfl))
  unchanged h := by
    rcases evict_cases h with ⟨-, rfl, -⟩ | ⟨p, v, s, hp, hv, hs, ⟨-, -, rfl, -⟩ | ⟨-, -, hb⟩⟩
    · rfl
    · rfl
    · cases hb

/-- Where there is nothing to evict, the view of a cluster and its descendants is
large enough and has no low score. -/
theorem consistent_of_evict (h : evict g f c = .ok (f', false)) (hp : f.parent c = some p) :
    ∃ u scores, aggregateView g.graph f c = .ok u ∧ Number.less (.int u.order) g.minSize = false ∧
      g.metric g.graph u = .ok scores ∧ ∀ i < u.order, g.scoresLow scores i = false := by
  rcases evict_cases h with ⟨hnone, -, -⟩ | ⟨q, v, s, -, hv, hs,
    ⟨hkept, hdropped, -, -⟩ | ⟨-, -, hb⟩⟩
  · rw [hp] at hnone; cases hnone
  · obtain ⟨u, hu⟩ := Option.isSome_iff_exists.mp hkept
    have fits := Guard.ensure_fits (View.nodup_vertexList_of_induced hv) hs
    obtain ⟨scores, hscores, high⟩ := fits.consistent u hu
    obtain rfl := fits.unchanged u hu hdropped
    exact ⟨u, scores, hv, fits.notSmall u hu, hscores, high⟩
  · cases hb

/-- Evicting fails only for want of a view, or where the metric fails on a part of it. -/
theorem failure_of_evict (labels : g.graph.store.labels.toList.Pairwise (· < ·))
    (h : evict g f c = .error e) : aggregateView g.graph f c = .error e ∨
      ∃ u w, aggregateView g.graph f c = .ok u ∧ w.PartOf u ∧ g.metric g.graph w = .error e := by
  cases hp : f.parent c with
  | none => rw [evict, hp] at h; cases h
  | some p =>
      rw [evict_of_parent hp] at h
      rcases cases_of_bind_eq_error h with h | ⟨v, hv, h⟩
      · exact .inl h
      · rcases cases_of_bind_eq_error h with h | ⟨s, hs, h⟩
        · obtain ⟨w, part, fails⟩ :=
            Guard.exists_partOf_of_ensure_eq_error (View.ascending_of_induced labels hv) h
          exact .inr ⟨v, w, hv, part, fails⟩
        · cases h

end Evict

/-! ## Climbing -/

section Climb

variable [Scalar α] {graph : View α} {minOverlap : α} {as : List ClusterId} {o : Option ClusterId}

theorem mem_of_landing {a : ClusterId} (h : landing graph v minOverlap f as = .ok (some a)) :
    a ∈ as := by
  induction as with
  | nil => cases h
  | cons d as ih =>
      rw [landing] at h
      split at h
      · cases h; exact List.mem_cons_self
      · obtain ⟨x, -, h⟩ := exists_of_bind_eq_ok h
        split at h
        · exact List.mem_cons_of_mem _ (ih h)
        · cases h; exact List.mem_cons_self

/-- A root is always a place to land. -/
theorem landing_ne_none {a : ClusterId} (ha : a ∈ as) (root : f.isRoot a = true) :
    landing graph v minOverlap f as ≠ .ok none := by
  intro h
  induction as with
  | nil => cases ha
  | cons d as ih =>
      rw [landing] at h
      split at h
      · cases h
      · rename_i inner
        obtain ⟨x, -, h⟩ := exists_of_bind_eq_ok h
        split at h
        · rcases List.mem_cons.mp ha with rfl | ha
          · exact inner root
          · exact ih ha h
        · cases h

theorem climb_cases (h : climb graph minOverlap f c = .ok (f', b)) :
    ((∀ p, f.parent c = some p → f.isRoot p = true) ∧ f' = f ∧ b = false) ∨
      ∃ p v o, f.parent c = some p ∧ f.isRoot p = false ∧ aggregateView graph f c = .ok v ∧
        landing graph v minOverlap f (f.ancestors c) = .ok o ∧
        ((∀ a, o = some a → a = p) ∧ f' = f ∧ b = false ∨
          ∃ a, o = some a ∧ a ≠ p ∧ f' = f.reparent c a ∧ b = true) := by
  rw [climb] at h
  cases hp : f.parent c with
  | none =>
      rw [hp] at h
      cases h
      exact .inl ⟨nofun, rfl, rfl⟩
  | some p =>
      rw [hp] at h
      dsimp only at h
      split at h
      · rename_i root
        cases h
        refine .inl ⟨?_, rfl, rfl⟩
        intro q hq
        cases hq
        exact root
      · rename_i inner
        obtain ⟨v, hv, h⟩ := exists_of_bind_eq_ok h
        obtain ⟨o, ho, h⟩ := exists_of_bind_eq_ok h
        refine .inr ⟨p, v, o, rfl, Bool.eq_false_iff.mpr inner, hv, ho, ?_⟩
        cases o with
        | none =>
            cases h
            exact .inl ⟨nofun, rfl, rfl⟩
        | some a =>
            dsimp only at h
            split at h
            · rename_i same
              cases h
              refine .inl ⟨?_, rfl, rfl⟩
              intro a' ha'
              cases ha'
              exact same
            · rename_i other
              cases h
              exact .inr ⟨a, rfl, other, rfl, rfl⟩

/-- Only a cluster with a parent climbs. -/
theorem parent_of_climb (h : climb graph minOverlap f c = .ok (f', true)) :
    ∃ p, f.parent c = some p := by
  rcases climb_cases h with ⟨-, -, hb⟩ | ⟨p, -, -, hp, -⟩
  · cases hb
  · exact ⟨p, hp⟩

theorem climb_sound (graph : View α) (minOverlap : α) (r : ClusterId) :
    Sound r (climb graph minOverlap) where
  changed hf hc h := by
    rcases climb_cases h with ⟨-, -, hb⟩ | ⟨p, v, o, hp, -, -, ho,
      ⟨-, -, hb⟩ | ⟨a, rfl, hne, rfl, -⟩⟩
    · cases hb
    · cases hb
    · have ha := mem_of_landing ho
      rw [ancestors_of_parent hf.toWellFormed hp] at ha
      exact .lift hc hp ((List.mem_cons.mp ha).resolve_left hne)
  unchanged h := by
    rcases climb_cases h with ⟨-, rfl, -⟩ | ⟨p, v, o, -, -, -, -, ⟨-, rfl, -⟩ | ⟨a, -, -, -, hb⟩⟩
    · rfl
    · rfl
    · cases hb

/-- Where there is nowhere to climb, a cluster overlaps enough with its parent
unless that is the root. -/
theorem overlap_of_climb (hf : f.WellFormed) (h : climb graph minOverlap f c = .ok (f', false))
    (hp : f.parent c = some p) (hroot : f.isRoot p = false) :
    ∃ u x, aggregateView graph f c = .ok u ∧ overlap graph u f p = .ok x ∧
      Scalar.less x minOverlap = false := by
  rcases climb_cases h with ⟨roots, -, -⟩ | ⟨q, v, o, hq, -, hv, ho,
    ⟨stays, -, -⟩ | ⟨a, -, -, -, hb⟩⟩
  · rw [roots p hp] at hroot; cases hroot
  · rw [hp] at hq
    cases hq
    rw [ancestors_of_parent hf hp, landing, if_neg (by rw [hroot]; nofun)] at ho
    obtain ⟨x, hx, ho⟩ := exists_of_bind_eq_ok ho
    refine ⟨v, x, hv, hx, ?_⟩
    split at ho
    · exfalso
      cases o with
      | none =>
          have above := root_mem_lineage hf p
          have top : f.isRoot (f.root p) = true := by rw [isRoot, parent_root hf]; rfl
          rcases List.mem_cons.mp above with same | above
          · rw [same, hroot] at top; cases top
          · exact landing_ne_none above top ho
      | some a =>
          have ha := mem_of_landing ho
          rw [stays a rfl] at ha
          exact notMem_ancestors_self hf p ha
    · rename_i enough
      exact Bool.eq_false_iff.mpr enough
  · cases hb

/-- A cluster that overlaps enough with its parent, unless that is the root, does not climb. -/
theorem climb_of_overlap (hf : f.WellFormed) (enough : ∀ p, f.parent c = some p →
      f.isRoot p = false → ∃ u x, aggregateView graph f c = .ok u ∧ overlap graph u f p = .ok x ∧
        Scalar.less x minOverlap = false) : climb graph minOverlap f c = .ok (f, false) := by
  rw [climb]
  cases hp : f.parent c with
  | none => rfl
  | some p =>
      dsimp only
      cases top : f.isRoot p with
      | true => rfl
      | false =>
          obtain ⟨u, x, hu, hx, enough⟩ := enough p hp top
          have lands : landing graph u minOverlap f (f.ancestors c) = .ok (some p) := by
            rw [ancestors_of_parent hf hp, landing, if_neg (Bool.eq_false_iff.mp top), hx]
            simp only [bind, Except.bind, enough, Bool.false_eq_true, if_false]
          rw [if_neg Bool.false_ne_true, hu]
          simp only [bind, Except.bind, lands, if_true]

/-- Failing for the weights of a cluster: it has no view, or there are no workers for its edges. -/
def Unweighed (graph : View α) (f : Forest) (a : ClusterId) (e : Fault) : Prop :=
  aggregateView graph f a = .error e ∨
    ∃ u, aggregateView graph f a = .ok u ∧ u.Understaffed e

theorem failure_of_overlap (h : overlap graph v f c = .error e) :
    Unweighed graph f c e ∨ v.Understaffed e := by
  rcases cases_of_bind_eq_error h with h | ⟨above, habove, h⟩
  · exact .inl (.inl h)
  · rcases cases_of_bind_eq_error h with h | ⟨weights, -, h⟩
    · exact .inl (.inr ⟨above, habove, View.failure_of_weights h⟩)
    · dsimp only at h
      split at h
      · cases h
      · rcases cases_of_bind_eq_error h with h | ⟨own, -, h⟩
        · exact .inr (View.failure_of_weights h)
        · cases h

theorem failure_of_landing (h : landing graph v minOverlap f as = .error e) :
    (∃ a ∈ as, Unweighed graph f a e) ∨ v.Understaffed e := by
  induction as with
  | nil => cases h
  | cons a as ih =>
      rw [landing] at h
      split at h
      · cases h
      · rcases cases_of_bind_eq_error h with h | ⟨x, -, h⟩
        · exact (failure_of_overlap h).imp_left fun h => ⟨a, List.mem_cons_self, h⟩
        · split at h
          · exact (ih h).imp_left fun ⟨d, hd, h⟩ => ⟨d, List.mem_cons_of_mem _ hd, h⟩
          · cases h

/-- Climbing fails only for the weights of the cluster or of an ancestor. -/
theorem failure_of_climb (h : climb graph minOverlap f c = .error e) :
    ∃ a ∈ c :: f.ancestors c, Unweighed graph f a e := by
  rw [climb] at h
  cases hp : f.parent c with
  | none => rw [hp] at h; cases h
  | some p =>
      rw [hp] at h
      dsimp only at h
      split at h
      · cases h
      · rcases cases_of_bind_eq_error h with h | ⟨v, hv, h⟩
        · exact ⟨c, List.mem_cons_self, .inl h⟩
        · rcases cases_of_bind_eq_error h with h | ⟨o, -, h⟩
          · rcases failure_of_landing h with ⟨a, ha, h⟩ | h
            · exact ⟨a, List.mem_cons_of_mem _ ha, h⟩
            · exact ⟨c, List.mem_cons_self, .inr ⟨v, hv, h⟩⟩
          · cases o with
            | none => cases h
            | some a => dsimp only at h; split at h <;> cases h

end Climb

end TreeRule

end GraphClustering
