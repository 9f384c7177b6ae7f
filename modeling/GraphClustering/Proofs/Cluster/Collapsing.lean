import GraphClustering.Proofs.Cluster.Turns

/-!
# One sweep collapses all only children

A cluster that takes over its only child has the vertices it had, in the same order
(`aggregate_absorb`), and no other cluster becomes an only child by it
(`onlyChild_of_absorb`).  So one sweep leaves no only child, and a second one changes
nothing.
-/

namespace GraphClustering

open Forest Relation

variable {f g : Forest} {c d p q r : ClusterId}

namespace Forest

/-- A cluster without siblings below its parent. -/
def OnlyChild (f : Forest) (c : ClusterId) : Prop :=
  ∃ p, f.parent c = some p ∧ f.children p = [c]

theorem WellFormed.children_eq_singleton (hf : f.WellFormed) (hp : f.parent c = some p)
    (one : (f.children p).length = 1) : f.children p = [c] := by
  obtain ⟨d, hd⟩ := List.length_eq_one_iff.mp one
  have mem := (hf.mem_children_iff c p).mpr hp
  rw [hd, List.mem_singleton] at mem
  rw [hd, mem]

section Absorb

variable (hf : f.WellFormed) (hp : f.parent c = some p) (only : f.children p = [c])
include hf hp only

/-- All other clusters keep their vertices in order when an only child is absorbed. -/
theorem aggregate_absorb (hq : q < f.size) (ne : q ≠ c) :
    (f.absorb p c true).aggregate q = f.aggregate q := by
  have hf' := wellFormed_absorb hf hp true
  have size := size_absorb f p c true
  rw [← size] at hq
  revert ne
  refine hf'.induction_up (P := fun q => q ≠ c →
    (f.absorb p c true).aggregate q = f.aggregate q) ?_ hq
  intro q hq ih ne
  rw [aggregate_eq hf' hq, aggregate_eq hf (size ▸ hq), remainder_absorb hf hp, if_neg ne]
  rw [children_absorb hf hp] at ih ⊢
  by_cases hqp : q = p
  · -- The parent has its child's vertices after its own, then those below the child.
    subst hqp
    rw [if_pos rfl, only, List.erase_cons_head, List.nil_append] at ih ⊢
    have below : (f.children c).flatMap (f.absorb q c true).aggregate =
        (f.children c).flatMap f.aggregate := by
      refine List.flatMap_congr fun e he => ih e he ?_
      exact (hf.parent_ne_self ((hf.mem_children_iff e c).mp he)).symm
    rw [if_pos ⟨rfl, rfl⟩, below, List.flatMap_singleton, aggregate_eq hf (lt_size_of_parent hp),
      List.append_assoc]
  · rw [if_neg hqp, if_neg ne] at ih ⊢
    rw [if_neg fun h => hqp h.1]
    refine congrArg (f.remainder q ++ ·) (List.flatMap_congr fun e he => ih e he ?_)
    rintro rfl
    exact hqp (Option.some_inj.mp (((hf.mem_children_iff e q).mp he).symm.trans hp))

/-- No other cluster becomes an only child when one is absorbed. -/
theorem onlyChild_of_absorb (ne : d ≠ c) (h : (f.absorb p c true).OnlyChild d) :
    f.OnlyChild d := by
  obtain ⟨q, hq, one⟩ := h
  rw [parent_absorb hf hp, if_neg ne] at hq
  rw [children_absorb hf hp] at one
  by_cases hdc : f.parent d = some c
  · rw [if_pos hdc, Option.some_inj] at hq
    rw [if_pos hq.symm, ← hq, only, List.erase_cons_head, List.nil_append] at one
    exact ⟨c, hdc, one⟩
  · rw [if_neg hdc] at hq
    have hqc : q ≠ c := by
      rintro rfl
      exact hdc hq
    by_cases hqp : q = p
    · have mem := (hf.mem_children_iff d q).mpr hq
      rw [hqp, only, List.mem_singleton] at mem
      exact absurd mem ne
    · rw [if_neg hqp, if_neg hqc] at one
      exact ⟨q, hq, one⟩

end Absorb

end Forest

namespace TreeRule

theorem collapse_of_not_onlyChild (hf : f.WellFormed) (h : ¬ f.OnlyChild c) :
    collapse f c = .ok (f, false) := by
  rw [collapse]
  cases hp : f.parent c with
  | none => rfl
  | some p =>
      dsimp only
      rw [if_neg]
      exact fun one => h ⟨p, hp, hf.children_eq_singleton hp one⟩

theorem collapse_of_onlyChild (hp : f.parent c = some p) (only : f.children p = [c]) :
    collapse f c = .ok (f.absorb p c true, true) := by
  rw [collapse, hp]
  dsimp only
  rw [only, List.length_singleton, if_pos rfl, assimilate, if_pos hp]
  rfl

/-- After its turn a cluster below the root is no only child, the others are so only if
they were, and the tree has the same vertices in the same order. -/
theorem collapse_settles (hf : f.Rooted r) : ∃ f' b, collapse f c = .ok (f', b) ∧
    f'.aggregate r = f.aggregate r ∧
      ∀ d, f'.root d = r → f'.OnlyChild d → d ≠ c ∧ f.root d = r ∧ f.OnlyChild d := by
  by_cases only : f.OnlyChild c
  · obtain ⟨p, hp, one⟩ := only
    refine ⟨_, true, collapse_of_onlyChild hp one, ?_, ?_⟩
    · exact aggregate_absorb hf.toWellFormed hp one hf.lt_size (hf.ne_of_parent hp)
    · intro d hd child
      have ne : d ≠ c := by
        rintro rfl
        rw [root_absorb_self hf.toWellFormed hp] at hd
        exact hf.ne_of_parent hp hd.symm
      rw [root_absorb hf.toWellFormed hp true ne] at hd
      exact ⟨ne, hd, onlyChild_of_absorb hf.toWellFormed hp one ne child⟩
  · refine ⟨f, false, collapse_of_not_onlyChild hf.toWellFormed only, rfl, ?_⟩
    intro d hd child
    exact ⟨fun same => only (same ▸ child), hd, child⟩

end TreeRule

namespace Postprocessing

open TreeRule

/-- One sweep leaves no cluster of the tree with a single child, so that a second sweep
changes nothing, and the vertices of the tree come in the same order as before. -/
theorem sweep_collapse_settled (hf : f.Rooted r) : ∃ g b, sweep collapse r f = (g, .ok b) ∧
    g.Rooted r ∧ (∀ c ∈ g.walk r, (g.children c).length ≠ 1) ∧
    sweep collapse r g = (g, .ok false) ∧ g.aggregate r = f.aggregate r := by
  obtain ⟨g, b, swept, rewrites, same, settled⟩ :=
    sweepOver_of_turns (I := fun h => h.aggregate r = f.aggregate r)
      (Q := fun h d => ¬ h.OnlyChild d) [] (sweepOrder f r) hf (collapse_sound r) rfl nofun
      (fun before c _ h _ rewrites same visited _ => by
        obtain ⟨h', b, applied, same', others⟩ :=
          collapse_settles (c := c) (rooted_of_rewrites hf rewrites)
        refine ⟨h', b, applied, same'.trans same, fun d hd hroot child => ?_⟩
        obtain ⟨ne, hroot, child⟩ := others d hroot child
        exact visited d (hd.resolve_right ne) hroot child) false
  have hg := rooted_of_rewrites hf rewrites
  have none : ∀ c, g.root c = r → ¬ g.OnlyChild c := by
    intro c hc
    exact settled c ((mem_sweepOrder hf).mpr (root_of_rewrites hf rewrites hc)) hc
  refine ⟨g, b, swept, hg, ?_, ?_, same⟩
  · intro p hp one
    obtain ⟨c, children⟩ := List.length_eq_one_iff.mp one
    have parent := (hg.mem_children_iff c p).mp (by rw [children]; exact List.mem_cons_self)
    refine none c ?_ ⟨p, parent, children⟩
    rw [root_of_parent hg.toWellFormed parent, hg.mem_walk_iff.mp hp]
  · exact sweep_of_idle fun c hc => collapse_of_not_onlyChild hg.toWellFormed (none c hc)

/-- A chain of only children down to two siblings, the first of which has an only child. -/
def chained : Forest :=
  let f := ((Forest.empty.spawn none).1.addToRemainder 0 [9]).spawn (some 0)
  let f := ((f.1.addToRemainder 1 [8]).spawn (some 1)).1.spawn (some 2)
  let f := (f.1.addToRemainder 3 [10]).spawn (some 2)
  ((f.1.addToRemainder 4 [30, 20]).spawn (some 3)).1.addToRemainder 5 [40]

theorem rooted_chained : chained.Rooted 0 := by
  have top := rooted_single.addToRemainder 0 [9]
  have first := (top.spawn (p := 0) (by decide)).addToRemainder 1 [8]
  have second := first.spawn (p := 1) (by decide)
  have third := (second.spawn (p := 2) (by decide)).addToRemainder 3 [10]
  have fourth := (third.spawn (p := 2) (by decide)).addToRemainder 4 [30, 20]
  exact (fourth.spawn (p := 3) (by decide)).addToRemainder 5 [40]

theorem sweep_collapse_settled_chained : ∃ g, sweep collapse 0 chained = (g, .ok true) ∧
    g.walk 0 = [0, 3, 4] ∧ g.aggregate 0 = [9, 8, 10, 40, 30, 20] ∧
    (∀ c ∈ g.walk 0, (g.children c).length ≠ 1) ∧ sweep collapse 0 g = (g, .ok false) := by
  obtain ⟨g, b, swept, -, several, again, same⟩ := sweep_collapse_settled rooted_chained
  obtain ⟨g', swept', clusters⟩ : ∃ g', sweep collapse 0 chained = (g', .ok true) ∧
      g'.walk 0 = [0, 3, 4] := ⟨_, by cbv, by cbv⟩
  rw [swept'] at swept
  cases swept
  exact ⟨g, swept', clusters, same.trans (by cbv), several, again⟩

end Postprocessing

end GraphClustering
