import GraphClustering.Proofs.Forest.Remainders

/-!
# Links

What each operation does to the links of a forest: a new cluster, a child that is
dropped, detached or adopted.  The links from parents to children and back agree
afterwards if they did before, whether or not there is a cycle (`Agreeing.addChild`,
`Agreeing.absorb`).
-/

namespace GraphClustering.Forest

variable {f : Forest} {c d p q x : ClusterId} {cs : List ClusterId}

/-! ## Single links -/

section Links

variable (f : Forest) (p c d : ClusterId)

@[simp] theorem size_dropChild : (f.dropChild p c).size = f.size :=
  size_modify ..

@[simp] theorem parent_dropChild : (f.dropChild p c).parent d = f.parent d := by
  rw [parent, dropChild, cluster_modify]; split <;> rfl

@[simp] theorem remainder_dropChild : (f.dropChild p c).remainder d = f.remainder d := by
  rw [remainder, dropChild, cluster_modify]; split <;> rfl

theorem children_dropChild :
    (f.dropChild p c).children d = if d = p then (f.children d).erase c else f.children d := by
  rw [children, dropChild, cluster_modify]
  by_cases hd : d = p
  · by_cases hp : p < f.size
    · rw [if_pos ⟨hd, hp⟩, if_pos hd]; rfl
    · have empty : f.children d = [] := by
        rw [children, hd, cluster_of_size_le (Nat.le_of_not_lt hp)]; rfl
      rw [if_neg fun h => hp h.2, if_pos hd, empty]
      exact empty
  · rw [if_neg fun h => hd h.1, if_neg hd]; rfl

@[simp] theorem size_link : (f.link p c).size = f.size := by
  rw [link, size_modify, size_modify]

@[simp] theorem remainder_link : (f.link p c).remainder d = f.remainder d := by
  rw [remainder, link, cluster_modify, cluster_modify]
  split <;> split <;> rfl

theorem parent_link (hc : c < f.size) :
    (f.link p c).parent d = if d = c then some p else f.parent d := by
  have inner : ∀ g : Forest, (g.modify p fun k =>
      { k with children := insertChild k.children c }).parent d = g.parent d := by
    intro g; rw [parent, cluster_modify]; split <;> rfl
  rw [link, inner, parent, cluster_modify]
  by_cases hd : d = c
  · rw [if_pos ⟨hd, hc⟩, if_pos hd]
  · rw [if_neg fun h => hd h.1, if_neg hd]; rfl

theorem children_link (hp : p < f.size) :
    (f.link p c).children d =
      if d = p then insertChild (f.children d) c else f.children d := by
  have inner : ((f.modify c fun k => { k with parent := some p }).cluster d).children =
      f.children d := by
    rw [cluster_modify]; split <;> rfl
  rw [children, link, cluster_modify, size_modify]
  by_cases hd : d = p
  · rw [if_pos ⟨hd, hp⟩, if_pos hd, inner]
  · rw [if_neg fun h => hd h.1, if_neg hd, inner]

theorem insertChild_of_notMem {cs : List ClusterId} {c : ClusterId} (h : c ∉ cs) :
    insertChild cs c = cs ++ [c] := by
  rw [insertChild, if_neg (by simpa using h)]

end Links

theorem mem_insertChild : x ∈ insertChild cs c ↔ x = c ∨ x ∈ cs := by
  by_cases h : c ∈ cs
  · rw [insertChild, if_pos (by simpa using h)]
    exact (or_iff_right_of_imp fun hx => hx ▸ h).symm
  · rw [insertChild_of_notMem h, List.mem_append, List.mem_singleton, or_comm]

theorem nodup_insertChild (h : cs.Nodup) : (insertChild cs c).Nodup := by
  rw [insertChild]
  split
  · exact h
  · rename_i new
    exact h.append (List.nodup_singleton c) (by simpa using new)

/-! ## New clusters -/

section Spawn

variable (f : Forest) (q : Option ClusterId) (p d : ClusterId)

theorem cluster_push (k : Cluster) :
    (⟨f.clusters.push k⟩ : Forest).cluster d = if d = f.size then k else f.cluster d := by
  simp only [cluster, size, Array.getD_eq_getD_getElem?, Array.getElem?_push]
  split <;> rfl

theorem parent_push : (⟨f.clusters.push ⟨q, [], []⟩⟩ : Forest).parent d =
    if d = f.size then q else f.parent d := by
  rw [parent, cluster_push]; split <;> rfl

theorem children_push :
    (⟨f.clusters.push ⟨q, [], []⟩⟩ : Forest).children d = f.children d := by
  rw [children, cluster_push]
  by_cases hd : d = f.size
  · rw [if_pos hd, children, cluster_of_size_le (Nat.le_of_eq hd.symm)]; rfl
  · rw [if_neg hd]; rfl

theorem remainder_push :
    (⟨f.clusters.push ⟨q, [], []⟩⟩ : Forest).remainder d = f.remainder d := by
  rw [remainder, cluster_push]
  by_cases hd : d = f.size
  · rw [if_pos hd, remainder, cluster_of_size_le (Nat.le_of_eq hd.symm)]; rfl
  · rw [if_neg hd]; rfl

@[simp] theorem size_spawn : (f.spawn q).1.size = f.size + 1 := by
  cases q with
  | none => exact Array.size_push ..
  | some p =>
      simp only [spawn, size_modify]
      exact Array.size_push ..

theorem remainder_spawn : (f.spawn q).1.remainder d = f.remainder d := by
  rw [← remainder_push f q d]
  cases q with
  | none => rfl
  | some p =>
      rw [remainder, spawn, cluster_modify]
      split <;> rfl

theorem parent_spawn : (f.spawn q).1.parent d = if d = f.size then q else f.parent d := by
  rw [← parent_push f q d]
  cases q with
  | none => rfl
  | some p =>
      rw [parent, spawn, cluster_modify]
      split <;> rfl

theorem children_spawn (hf : f.Agreeing) (hp : p < f.size) :
    (f.spawn (some p)).1.children d =
      if d = p then f.children d ++ [f.size] else f.children d := by
  have hsize : p < (⟨f.clusters.push ⟨some p, [], []⟩⟩ : Forest).size := by
    rw [size, Array.size_push]; exact Nat.lt_succ_of_lt hp
  rw [children, spawn, cluster_modify]
  by_cases hd : d = p
  · rw [if_pos ⟨hd, hsize⟩, if_pos hd, ← children_push f (some p) d]
    apply insertChild_of_notMem
    intro h
    change f.size ∈ Forest.children _ d at h
    rw [children_push] at h
    exact lt_irrefl _ (hf.child_lt_size h)
  · rw [if_neg fun h => hd h.1, if_neg hd, ← children_push f (some p) d]; rfl

end Spawn

theorem Agreeing.spawn (hf : f.Agreeing) (hp : p < f.size) : (f.spawn (some p)).1.Agreeing where
  mem_children_iff c q := by
    rw [children_spawn f p q hf hp, parent_spawn]
    by_cases hc : c = f.size
    · rw [if_pos hc, Option.some_inj]
      subst hc
      by_cases hq : q = p
      · rw [if_pos hq]; simp [hq]
      · rw [if_neg hq]
        exact ⟨fun h => absurd (hf.child_lt_size h) (lt_irrefl _), fun h => absurd h.symm hq⟩
    · rw [if_neg hc, ← hf.mem_children_iff]
      split
      · rw [List.mem_append, List.mem_singleton]
        exact or_iff_left hc
      · exact Iff.rfl
  nodup_children q := by
    rw [children_spawn f p q hf hp]
    split
    · apply (hf.nodup_children q).append (List.nodup_singleton _)
      simpa using fun h => lt_irrefl _ (hf.child_lt_size h)
    · exact hf.nodup_children q

/-- A new cluster without a parent has no links. -/
theorem Agreeing.spawn_none (hf : f.Agreeing) : (f.spawn none).1.Agreeing where
  mem_children_iff c q := by
    rw [Forest.spawn, parent_push, children_push]
    by_cases hc : c = f.size
    · rw [if_pos hc]
      subst hc
      exact iff_of_false (fun h => lt_irrefl _ (hf.child_lt_size h)) nofun
    · rw [if_neg hc]
      exact hf.mem_children_iff c q
  nodup_children q := by
    rw [Forest.spawn, children_push]
    exact hf.nodup_children q

/-! ## Detaching a cluster -/

section Detach

variable (f : Forest) (c d : ClusterId)

@[simp] theorem size_detach : (f.detach c).size = f.size := by
  rw [detach]; split <;> simp

@[simp] theorem remainder_detach : (f.detach c).remainder d = f.remainder d := by
  rw [detach]
  split
  · rfl
  · rename_i p _
    rw [remainder, cluster_modify, ← remainder_dropChild f p c d]
    split <;> rfl

theorem parent_detach :
    (f.detach c).parent d = if d = c then none else f.parent d := by
  rw [detach]
  split
  · rename_i hp
    split
    · rename_i hd
      rw [hd, hp]
    · rfl
  · rename_i p hp
    rw [parent, cluster_modify, size_dropChild]
    by_cases hd : d = c
    · rw [if_pos ⟨hd, lt_size_of_parent hp⟩, if_pos hd]
    · rw [if_neg fun h => hd h.1, if_neg hd]
      exact parent_dropChild f p c d

theorem children_detach (hf : f.Agreeing) :
    (f.detach c).children d = (f.children d).erase c := by
  rw [detach]
  split
  · rename_i hp
    rw [List.erase_of_not_mem]
    rw [hf.mem_children_iff, hp]
    exact nofun
  · rename_i p hp
    have same : ((f.dropChild p c).modify c fun k => { k with parent := none }).children d =
        (f.dropChild p c).children d := by
      rw [children, cluster_modify]; split <;> rfl
    rw [same, children_dropChild]
    by_cases hd : d = p
    · rw [if_pos hd]
    · rw [if_neg hd, List.erase_of_not_mem]
      rw [hf.mem_children_iff, hp, Option.some_inj]
      exact fun h => hd h.symm

theorem reparent_eq_link (a : ClusterId) : f.reparent c a = (f.detach c).link a c := by
  rw [reparent, addChild, parent_detach, if_pos rfl]

theorem size_reparent (a : ClusterId) : (f.reparent c a).size = f.size := by
  rw [reparent_eq_link, size_link, size_detach]

theorem remainder_reparent (a : ClusterId) :
    (f.reparent c a).remainder d = f.remainder d := by
  rw [reparent_eq_link, remainder_link, remainder_detach]

theorem parent_reparent (a : ClusterId) (hc : c < f.size) :
    (f.reparent c a).parent d = if d = c then some a else f.parent d := by
  rw [reparent_eq_link, parent_link _ _ _ _ (by rwa [size_detach]), parent_detach]
  split <;> rfl

theorem children_reparent (hf : f.Agreeing) {a : ClusterId} (ha : a < f.size) :
    (f.reparent c a).children d =
      if d = a then (f.children d).erase c ++ [c] else (f.children d).erase c := by
  rw [reparent_eq_link, children_link _ _ _ _ (by rwa [size_detach]), children_detach f c d hf]
  split
  · rw [insertChild_of_notMem (hf.nodup_children d).not_mem_erase]
  · rfl

end Detach

namespace Agreeing

theorem detach (hf : f.Agreeing) (c : ClusterId) : (f.detach c).Agreeing where
  mem_children_iff d q := by
    rw [children_detach f c q hf, parent_detach, (hf.nodup_children q).mem_erase_iff]
    by_cases hd : d = c
    · rw [if_pos hd]
      exact iff_of_false (fun h => h.1 hd) nofun
    · rw [if_neg hd, hf.mem_children_iff]
      exact and_iff_right hd
  nodup_children q := by
    rw [children_detach f c q hf]
    exact (hf.nodup_children q).erase c

theorem reparent (hf : f.Agreeing) {a : ClusterId} (hc : c < f.size) (ha : a < f.size) :
    (f.reparent c a).Agreeing where
  mem_children_iff d q := by
    rw [children_reparent f c q hf ha, parent_reparent f c d a hc]
    have kept := (hf.detach c).mem_children_iff d q
    rw [children_detach f c q hf, parent_detach] at kept
    by_cases hd : d = c <;> by_cases hq : q = a
    · simp [hd, hq]
    · rw [if_pos hd] at kept ⊢
      rw [if_neg hq, kept]
      exact iff_of_false nofun fun h => hq (Option.some_inj.mp h).symm
    · rw [if_neg hd] at kept ⊢
      rw [if_pos hq, List.mem_append, List.mem_singleton, or_iff_left hd, kept]
    · rw [if_neg hd] at kept ⊢
      rw [if_neg hq, kept]
  nodup_children q := by
    have kept := (hf.detach c).nodup_children q
    rw [children_detach f c q hf] at kept
    rw [children_reparent f c q hf ha]
    split
    · refine kept.append (List.nodup_singleton c) ?_
      simpa using (hf.nodup_children q).not_mem_erase
    · exact kept

end Agreeing

/-! ## Adopting clusters -/

section Adopt

variable (f : Forest) (p c d : ClusterId)

@[simp] theorem size_addChild : (f.addChild p c).size = f.size := by
  rw [addChild]
  split
  · exact size_link ..
  · split
    · exact size_link ..
    · rw [size_link, size_dropChild]

@[simp] theorem remainder_addChild : (f.addChild p c).remainder d = f.remainder d := by
  rw [addChild]
  split
  · exact remainder_link ..
  · split
    · exact remainder_link ..
    · rw [remainder_link, remainder_dropChild]

theorem parent_addChild (hc : c < f.size) :
    (f.addChild p c).parent d = if d = c then some p else f.parent d := by
  rw [addChild]
  split
  · exact parent_link _ _ _ _ hc
  · split
    · exact parent_link _ _ _ _ hc
    · rw [parent_link _ _ _ _ (by rwa [size_dropChild]), parent_dropChild]

end Adopt

namespace Agreeing

/-- Before a cluster is adopted it is taken from its parent, unless that is the adopter. -/
theorem exists_addChild_eq_link (hf : f.Agreeing) (p c : ClusterId) :
    ∃ g : Forest, f.addChild p c = g.link p c ∧ g.size = f.size ∧
      (∀ d, (g.children d).Nodup) ∧
        ∀ d x, x ∈ g.children d ↔ x ∈ f.children d ∧ (x = c → d = p) := by
  have own : ∀ {d}, c ∈ f.children d → f.parent c = some d := fun h =>
    (hf.mem_children_iff c _).mp h
  rw [addChild]
  cases hq : f.parent c with
  | none =>
      refine ⟨f, rfl, rfl, hf.nodup_children, fun d x => (and_iff_left_of_imp ?_).symm⟩
      rintro h rfl
      cases hq.symm.trans (own h)
  | some q =>
      by_cases hqp : q = p
      · refine ⟨f, if_pos hqp, rfl, hf.nodup_children, fun d x => (and_iff_left_of_imp ?_).symm⟩
        rintro h rfl
        exact (Option.some_inj.mp (hq.symm.trans (own h))).symm.trans hqp
      · refine ⟨f.dropChild q c, if_neg hqp, size_dropChild .., fun d => ?_, fun d x => ?_⟩
        · rw [children_dropChild]
          split
          · exact (hf.nodup_children d).erase c
          · exact hf.nodup_children d
        · rw [children_dropChild]
          by_cases hd : d = q
          · rw [if_pos hd, (hf.nodup_children d).mem_erase_iff, and_comm]
            exact and_congr_right fun _ => imp_congr_right fun _ =>
              iff_of_false not_false fun h => hqp (hd.symm.trans h)
          · rw [if_neg hd]
            refine (and_iff_left_of_imp ?_).symm
            rintro h rfl
            exact absurd (Option.some_inj.mp (hq.symm.trans (own h))).symm hd

theorem addChild (hf : f.Agreeing) (hp : p < f.size) (hc : c < f.size) :
    (f.addChild p c).Agreeing := by
  obtain ⟨g, adopted, size, nodup, mem⟩ := hf.exists_addChild_eq_link p c
  rw [← size] at hp
  refine ⟨fun x d => ?_, fun d => ?_⟩
  · rw [parent_addChild f p c x hc, adopted, children_link _ _ _ _ hp]
    by_cases hd : d = p <;> by_cases hx : x = c
    · rw [if_pos hd, if_pos hx, mem_insertChild, hd]
      exact iff_of_true (.inl hx) rfl
    · rw [if_pos hd, if_neg hx, mem_insertChild, or_iff_right hx, mem,
        and_iff_left fun h => absurd h hx]
      exact hf.mem_children_iff x d
    · rw [if_neg hd, if_pos hx, mem]
      exact iff_of_false (fun h => hd (h.2 hx)) fun h => hd (Option.some_inj.mp h).symm
    · rw [if_neg hd, if_neg hx, mem, and_iff_left fun h => absurd h hx]
      exact hf.mem_children_iff x d
  · rw [adopted, children_link _ _ _ _ hp]
    split
    · exact nodup_insertChild (nodup d)
    · exact nodup d

end Agreeing

section AdoptAll

variable (f : Forest) (p : ClusterId) (cs : List ClusterId) (d : ClusterId)

@[simp] theorem size_addChildren : (f.addChildren p cs).size = f.size := by
  induction cs generalizing f with
  | nil => rfl
  | cons c cs ih => exact (ih _).trans (size_addChild f p c)

@[simp] theorem remainder_addChildren : (f.addChildren p cs).remainder d = f.remainder d := by
  induction cs generalizing f with
  | nil => rfl
  | cons c cs ih => exact (ih _).trans (remainder_addChild f p c d)

theorem parent_addChildren (hcs : ∀ c ∈ cs, c < f.size) :
    (f.addChildren p cs).parent d = if d ∈ cs then some p else f.parent d := by
  induction cs generalizing f with
  | nil => rw [if_neg List.not_mem_nil]; rfl
  | cons c cs ih =>
      obtain ⟨hc, hcs⟩ := List.forall_mem_cons.mp hcs
      rw [addChildren, List.foldl_cons, ← addChildren, ih _ (by simpa using hcs),
        parent_addChild f p c d hc]
      by_cases hd : d = c <;> by_cases hds : d ∈ cs <;> simp [hd, hds]

end AdoptAll

theorem Agreeing.addChildren (hf : f.Agreeing) (hp : p < f.size) (hcs : ∀ c ∈ cs, c < f.size) :
    (f.addChildren p cs).Agreeing := by
  induction cs generalizing f with
  | nil => exact hf
  | cons c cs ih =>
      obtain ⟨hc, hcs⟩ := List.forall_mem_cons.mp hcs
      exact ih (hf.addChild hp hc) (by simpa using hp) (by simpa using hcs)

/-! ## Absorbing a child -/

/-- But for remainders, absorbing a child is detaching it and adopting its children. -/
theorem sameLinks_absorb (f : Forest) (p c : ClusterId) (w : Bool) :
    SameLinks ((f.detach c).addChildren p (f.children c)) (f.absorb p c w) := by
  rw [absorb]
  cases w with
  | false => exact .setRemainder ..
  | true => exact (SameLinks.addToRemainder ..).trans (.setRemainder ..)

theorem size_absorb (f : Forest) (p c : ClusterId) (w : Bool) :
    (f.absorb p c w).size = f.size := by
  rw [(sameLinks_absorb f p c w).size, size_addChildren, size_detach]

namespace Agreeing

theorem absorb (hf : f.Agreeing) (hp : p < f.size) (w : Bool) : (f.absorb p c w).Agreeing :=
  (sameLinks_absorb f p c w).agreeing <| (hf.detach c).addChildren (by rwa [size_detach])
    fun d hd => by rw [size_detach]; exact hf.child_lt_size hd

theorem parent_absorb (hf : f.Agreeing) (w : Bool) (d : ClusterId) : (f.absorb p c w).parent d =
    if f.parent d = some c then some p else if d = c then none else f.parent d := by
  rw [(sameLinks_absorb f p c w).parent, parent_addChildren _ _ _ _ fun d hd => by
    rw [size_detach]; exact hf.child_lt_size hd, parent_detach]
  simp only [hf.mem_children_iff]

end Agreeing

end GraphClustering.Forest
