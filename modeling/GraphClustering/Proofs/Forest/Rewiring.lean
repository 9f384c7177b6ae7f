import GraphClustering.Proofs.Forest.Links

/-!
# Rewiring a forest

What `spawn`, `reparent` and `absorb` do to the links and remainders, and that
they keep a well-formed forest well-formed.  Only these equations are used
afterwards.

The operations of postprocessing only ever lift clusters: every new parent was
an ancestor before (`Lifts`), so that lineages get shorter and nothing else.
-/

namespace GraphClustering.Forest

variable {f f' : Forest} {a c d p q r : ClusterId}

/-! ## New clusters -/

theorem wellFormed_spawn (f : Forest) (p : ClusterId) (hf : f.WellFormed) (hp : p < f.size) :
    (f.spawn (some p)).1.WellFormed where
  mem_children_iff := (hf.agreeing.spawn hp).mem_children_iff
  nodup_children := (hf.agreeing.spawn hp).nodup_children
  acyclic := by
    obtain ⟨rank, hrank⟩ := hf.acyclic
    refine ⟨fun c => if c = f.size then rank p + 1 else rank c, ?_⟩
    intro c q hq
    rw [parent_spawn] at hq
    by_cases hc : c = f.size
    · rw [if_pos hc, Option.some_inj] at hq
      subst hq
      dsimp only
      rw [if_pos hc, if_neg (ne_of_lt hp)]
      exact Nat.lt_succ_self _
    · rw [if_neg hc] at hq
      dsimp only
      rw [if_neg hc, if_neg (ne_of_lt (hf.parent_lt_size hq))]
      exact hrank c q hq

/-- A single cluster without links. -/
theorem wellFormed_single : (empty.spawn none).1.WellFormed := by
  have links : ∀ c, (empty.spawn none).1.parent c = none ∧
      (empty.spawn none).1.children c = [] := by
    intro c
    rw [spawn, parent, children, cluster_push]
    split <;> exact ⟨rfl, rfl⟩
  refine ⟨?_, ?_, fun _ => 0, ?_⟩
  · intro c p
    rw [(links p).2, (links c).1]
    exact iff_of_false List.not_mem_nil (by rintro ⟨⟩)
  · intro p
    rw [(links p).2]
    exact List.nodup_nil
  · intro c p h
    rw [(links c).1] at h
    cases h

/-! ## Moving a cluster -/

section Move

variable (hf : f.WellFormed) (hp : f.parent c = some p)

include hf hp in
/-- A cluster may move below any of its ancestors. -/
theorem wellFormed_reparent (ha : a ∈ f.ancestors c) : (f.reparent c a).WellFormed where
  mem_children_iff := (hf.agreeing.reparent (lt_size_of_parent hp)
    (lt_size_of_mem_ancestors hf ha)).mem_children_iff
  nodup_children := (hf.agreeing.reparent (lt_size_of_parent hp)
    (lt_size_of_mem_ancestors hf ha)).nodup_children
  acyclic := by
    refine ⟨f.depth, ?_⟩
    intro d q hq
    rw [parent_reparent f c _ a (lt_size_of_parent hp)] at hq
    by_cases hd : d = c
    · rw [if_pos hd, Option.some_inj] at hq
      subst hd hq
      exact depth_lt_of_mem_ancestors hf ha
    · rw [if_neg hd] at hq
      rw [depth_of_parent hf hq]
      exact Nat.lt_succ_self _

end Move

/-! ## Absorbing a child -/

/-- Children of one cluster go over to another one, one by one. -/
theorem children_addChildren {g : Forest} {cs : List ClusterId} (hcp : c ≠ p) (hp : p < g.size)
    (hcs : cs.Nodup) (hchildren : g.children c = cs) (hparent : ∀ e ∈ cs, g.parent e = some c)
    (hnew : ∀ e ∈ cs, e ∉ g.children p) (d : ClusterId) : (g.addChildren p cs).children d =
      if d = p then g.children d ++ cs else if d = c then [] else g.children d := by
  induction cs generalizing g with
  | nil =>
      rw [List.append_nil]
      by_cases hd : d = c
      · rw [hd, hchildren, if_pos rfl, ite_self]; exact hchildren
      · rw [if_neg hd, ite_self]; rfl
  | cons e cs ih =>
      obtain ⟨hecs, hcs⟩ := List.nodup_cons.mp hcs
      have he : g.parent e = some c := hparent e List.mem_cons_self
      have hep : e ∉ g.children p := hnew e List.mem_cons_self
      have step : g.addChild p e = (g.dropChild c e).link p e := by
        rw [addChild, he]; exact if_neg hcp
      have hchildren' : ∀ d, (g.addChild p e).children d =
          if d = p then g.children d ++ [e] else if d = c then cs else g.children d := by
        intro d
        rw [step, children_link _ _ _ _ (by rwa [size_dropChild]), children_dropChild]
        by_cases hd : d = p
        · subst hd
          rw [if_pos rfl, if_pos rfl, if_neg (Ne.symm hcp), insertChild_of_notMem hep]
        · rw [if_neg hd, if_neg hd]
          by_cases hdc : d = c
          · rw [if_pos hdc, if_pos hdc, hdc, hchildren, List.erase_cons_head]
          · rw [if_neg hdc, if_neg hdc]
      have rest := ih (g := g.addChild p e) (by rwa [size_addChild]) hcs
        (by rw [hchildren', if_neg hcp, if_pos rfl])
        (fun d hd => by
          rw [parent_addChild g p e d (lt_size_of_parent he),
            if_neg (ne_of_mem_of_not_mem hd hecs)]
          exact hparent d (List.mem_cons_of_mem _ hd))
        (fun d hd => by
          rw [hchildren', if_pos rfl, List.mem_append, List.mem_singleton]
          exact not_or.mpr ⟨hnew d (List.mem_cons_of_mem _ hd), ne_of_mem_of_not_mem hd hecs⟩)
      rw [addChildren, List.foldl_cons, ← addChildren, rest, hchildren']
      by_cases hd : d = p
      · rw [if_pos hd, if_pos hd, if_pos hd, List.append_assoc, List.singleton_append]
      · rw [if_neg hd, if_neg hd, if_neg hd]
        split <;> rfl

section Absorb

variable (hf : f.WellFormed) (hp : f.parent c = some p) (w : Bool)

include hf hp

theorem parent_absorb (d : ClusterId) : (f.absorb p c w).parent d =
    if d = c then none else if f.parent d = some c then some p else f.parent d := by
  rw [hf.agreeing.parent_absorb w]
  by_cases hd : d = c
  · rw [hd, hp, if_neg fun h => hf.parent_ne_self hp (Option.some_inj.mp h), if_pos rfl, if_pos rfl]
  · rw [if_neg hd, if_neg hd]

theorem children_absorb (d : ClusterId) : (f.absorb p c w).children d =
    if d = p then (f.children d).erase c ++ f.children c
    else if d = c then [] else f.children d := by
  have hpc : p ≠ c := hf.parent_ne_self hp
  have notOwn : c ∉ f.children c := fun h =>
    hf.parent_ne_self ((hf.mem_children_iff c c).mp h) rfl
  have notBoth : ∀ e ∈ f.children c, e ∉ f.children p := by
    intro e he hep
    rw [hf.mem_children_iff] at he hep
    exact hpc (Option.some_inj.mp (hep.symm.trans he))
  rw [(sameLinks_absorb f p c w).children, children_addChildren (g := f.detach c) hpc.symm
    (by rw [size_detach]; exact hf.parent_lt_size hp) (hf.nodup_children c)
    (by rw [children_detach f c c hf.agreeing, List.erase_of_not_mem notOwn])
    (fun e he => by
      rw [parent_detach, if_neg (ne_of_mem_of_not_mem he notOwn)]
      exact (hf.mem_children_iff e c).mp he)
    (fun e he => by
      rw [children_detach f c p hf.agreeing]
      exact fun h => notBoth e he (List.mem_of_mem_erase h)), children_detach f c d hf.agreeing]
  by_cases hd : d = p
  · rw [if_pos hd, if_pos hd]
  · rw [if_neg hd, if_neg hd]
    split
    · rfl
    · rw [List.erase_of_not_mem]
      rw [hf.mem_children_iff, hp, Option.some_inj]
      exact fun h => hd h.symm

theorem remainder_absorb (d : ClusterId) : (f.absorb p c w).remainder d =
    if d = c then [] else if d = p ∧ w then f.remainder d ++ f.remainder c
    else f.remainder d := by
  have hc := lt_size_of_parent hp
  have hpsize := hf.parent_lt_size hp
  cases w with
  | false =>
      simp only [absorb, Bool.false_eq_true, and_false, if_false]
      rw [remainder_setRemainder _ _ _ _ (by simpa using hc)]
      simp
  | true =>
      simp only [absorb, and_true, if_true]
      rw [remainder_setRemainder _ _ _ _ (by simpa using hc),
        remainder_addToRemainder _ _ _ _ (by simpa using hpsize)]
      simp

theorem wellFormed_absorb : (f.absorb p c w).WellFormed where
  mem_children_iff := (hf.agreeing.absorb (hf.parent_lt_size hp) w).mem_children_iff
  nodup_children := (hf.agreeing.absorb (hf.parent_lt_size hp) w).nodup_children
  acyclic := by
    refine ⟨f.depth, ?_⟩
    intro d q hq
    rw [parent_absorb hf hp] at hq
    by_cases hd : d = c
    · rw [if_pos hd] at hq; cases hq
    · rw [if_neg hd] at hq
      by_cases hdc : f.parent d = some c
      · rw [if_pos hdc, Option.some_inj] at hq
        rw [depth_of_parent hf hdc, depth_of_parent hf hp, hq]
        omega
      · rw [if_neg hdc] at hq
        rw [depth_of_parent hf hq]
        exact Nat.lt_succ_self _

end Absorb

/-! ## Lifting -/

/-- Every parent was an ancestor before. -/
def Lifts (f f' : Forest) : Prop :=
  ∀ d q, f'.parent d = some q → q ∈ f.ancestors d

namespace Lifts

theorem ancestors_sublist (h : Lifts f f') (hf : f.WellFormed) (hf' : f'.WellFormed)
    (d : ClusterId) : (f'.ancestors d).Sublist (f.ancestors d) := by
  induction d using hf'.induction_down with
  | step d ih =>
      cases hq : f'.parent d with
      | none => rw [ancestors_of_root hq]; exact List.nil_sublist _
      | some q =>
          rw [ancestors_of_parent hf' hq]
          exact ((ih q hq).cons_cons q).trans (ancestors_suffix hf (h d q hq)).sublist

theorem depth_le (h : Lifts f f') (hf : f.WellFormed) (hf' : f'.WellFormed) (d : ClusterId) :
    f'.depth d ≤ f.depth d :=
  (h.ancestors_sublist hf hf' d).length_le

/-- A cluster stays in its tree if the last of its remaining ancestors was a
root before. -/
theorem root_eq (h : Lifts f f') (hf : f.WellFormed) (hf' : f'.WellFormed)
    (hroot : f.parent (f'.root d) = none) : f'.root d = f.root d := by
  have lineage : f'.root d ∈ d :: f.ancestors d :=
    ((h.ancestors_sublist hf hf' d).cons_cons d).subset (root_mem_lineage hf' d)
  exact ((mem_lineage_iff_of_root hf hroot).mp lineage).symm

end Lifts

theorem lifts_absorb (hf : f.WellFormed) (hp : f.parent c = some p) (w : Bool) :
    Lifts f (f.absorb p c w) := by
  intro d q hq
  rw [parent_absorb hf hp] at hq
  by_cases hd : d = c
  · rw [if_pos hd] at hq; cases hq
  · rw [if_neg hd] at hq
    by_cases hdc : f.parent d = some c
    · rw [if_pos hdc, Option.some_inj] at hq
      rw [ancestors_of_parent hf hdc, ancestors_of_parent hf hp, ← hq]
      simp
    · rw [if_neg hdc] at hq
      rw [ancestors_of_parent hf hq]
      exact List.mem_cons_self

theorem lifts_reparent (hf : f.WellFormed) (hp : f.parent c = some p)
    (ha : a ∈ f.ancestors c) : Lifts f (f.reparent c a) := by
  intro d q hq
  rw [parent_reparent f c _ a (lt_size_of_parent hp)] at hq
  by_cases hd : d = c
  · rw [if_pos hd, Option.some_inj] at hq
    rwa [hd, ← hq]
  · rw [if_neg hd] at hq
    rw [ancestors_of_parent hf hq]
    exact List.mem_cons_self

/-- A cluster that is absorbed becomes a tree of its own, all others stay in theirs. -/
theorem root_absorb (hf : f.WellFormed) (hp : f.parent c = some p) (w : Bool) (hd : d ≠ c) :
    (f.absorb p c w).root d = f.root d := by
  have hf' := wellFormed_absorb hf hp w
  apply (lifts_absorb hf hp w).root_eq hf hf'
  have parentless := parent_root hf' d
  have hrc : (f.absorb p c w).root d ≠ c := by
    intro hrc
    have lineage := root_mem_lineage hf' d
    rw [hrc, List.mem_cons] at lineage
    obtain ⟨e, -, he⟩ := exists_child_of_mem_ancestors hf' (lineage.resolve_left hd.symm)
    have childless : e ∈ (f.absorb p c w).children c := (hf'.mem_children_iff e c).mpr he
    rw [children_absorb hf hp, if_neg (hf.parent_ne_self hp).symm, if_pos rfl] at childless
    cases childless
  rw [parent_absorb hf hp, if_neg hrc] at parentless
  split at parentless
  · cases parentless
  · exact parentless

theorem root_absorb_self (hf : f.WellFormed) (hp : f.parent c = some p) (w : Bool) :
    (f.absorb p c w).root c = c :=
  root_of_root (by rw [parent_absorb hf hp, if_pos rfl])

theorem root_reparent (hf : f.WellFormed) (hp : f.parent c = some p) (ha : a ∈ f.ancestors c)
    (d : ClusterId) : (f.reparent c a).root d = f.root d := by
  have hf' := wellFormed_reparent hf hp ha
  apply (lifts_reparent hf hp ha).root_eq hf hf'
  have parentless := parent_root hf' d
  rw [parent_reparent f c _ a (lt_size_of_parent hp)] at parentless
  split at parentless
  · cases parentless
  · exact parentless

end GraphClustering.Forest
