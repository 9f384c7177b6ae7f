import GraphClustering.Proofs.Forest.Ancestry

/-!
# Operations on remainders

What each operation on remainders does to a forest, seen through `size`,
`parent`, `children` and `remainder`.  None of them touches a link
(`SameLinks`), so that lineages, depths and walks stay as they are.
-/

namespace GraphClustering.Forest

variable {f f' : Forest}

@[simp] theorem size_modify (f : Forest) (c : ClusterId) (g : Cluster → Cluster) :
    (f.modify c g).size = f.size := Array.size_modify

theorem cluster_modify (f : Forest) (c d : ClusterId) (g : Cluster → Cluster) :
    (f.modify c g).cluster d = if d = c ∧ c < f.size then g (f.cluster d) else f.cluster d := by
  simp only [cluster, modify, Array.getD_eq_getD_getElem?, Array.getElem?_modify]
  by_cases hd : c = d
  · subst hd
    by_cases hc : c < f.size
    · rw [if_pos rfl, if_pos ⟨rfl, hc⟩]
      simp only [size] at hc
      simp [hc]
    · rw [if_pos rfl, if_neg fun h => hc h.2]
      simp only [size] at hc
      simp [hc]
  · rw [if_neg hd, if_neg fun h => hd h.1.symm]

/-! ## Remainders -/

section Remainders

variable (f : Forest) (c d : ClusterId) (ids : List Int)

@[simp] theorem size_addToRemainder : (f.addToRemainder c ids).size = f.size :=
  size_modify ..

@[simp] theorem parent_addToRemainder : (f.addToRemainder c ids).parent d = f.parent d := by
  rw [parent, addToRemainder, cluster_modify]; split <;> rfl

@[simp] theorem children_addToRemainder : (f.addToRemainder c ids).children d = f.children d := by
  rw [children, addToRemainder, cluster_modify]; split <;> rfl

theorem remainder_addToRemainder (hc : c < f.size) :
    (f.addToRemainder c ids).remainder d =
      if d = c then f.remainder d ++ ids else f.remainder d := by
  rw [remainder, addToRemainder, cluster_modify]
  by_cases hd : d = c
  · rw [if_pos ⟨hd, hc⟩, if_pos hd]; rfl
  · rw [if_neg fun h => hd h.1, if_neg hd]; rfl

@[simp] theorem size_setRemainder : (f.setRemainder c ids).size = f.size :=
  size_modify ..

@[simp] theorem parent_setRemainder : (f.setRemainder c ids).parent d = f.parent d := by
  rw [parent, setRemainder, cluster_modify]; split <;> rfl

@[simp] theorem children_setRemainder : (f.setRemainder c ids).children d = f.children d := by
  rw [children, setRemainder, cluster_modify]; split <;> rfl

theorem remainder_setRemainder (hc : c < f.size) :
    (f.setRemainder c ids).remainder d = if d = c then ids else f.remainder d := by
  rw [remainder, setRemainder, cluster_modify]
  by_cases hd : d = c
  · rw [if_pos ⟨hd, hc⟩, if_pos hd]
  · rw [if_neg fun h => hd h.1, if_neg hd]; rfl

@[simp] theorem size_removeFromRemainder : (f.removeFromRemainder c ids).size = f.size :=
  size_modify ..

@[simp] theorem parent_removeFromRemainder :
    (f.removeFromRemainder c ids).parent d = f.parent d := by
  rw [parent, removeFromRemainder, cluster_modify]; split <;> rfl

@[simp] theorem children_removeFromRemainder :
    (f.removeFromRemainder c ids).children d = f.children d := by
  rw [children, removeFromRemainder, cluster_modify]; split <;> rfl

theorem remainder_removeFromRemainder (hc : c < f.size) :
    (f.removeFromRemainder c ids).remainder d =
      if d = c then (f.remainder d).filter fun v => !ids.contains v else f.remainder d := by
  rw [remainder, removeFromRemainder, cluster_modify]
  by_cases hd : d = c
  · rw [if_pos ⟨hd, hc⟩, if_pos hd]; rfl
  · rw [if_neg fun h => hd h.1, if_neg hd]; rfl

end Remainders

/-- Vertices are taken from the remainders of several clusters. -/
def removeFromAll (f : Forest) (cs : List ClusterId) (ids : List Int) : Forest :=
  cs.foldl (fun f c => f.removeFromRemainder c ids) f

/-- Two forests with the same links. -/
structure SameLinks (f f' : Forest) : Prop where
  size : f'.size = f.size
  parent : ∀ c, f'.parent c = f.parent c
  children : ∀ c, f'.children c = f.children c

namespace SameLinks

theorem trans {g : Forest} (h : SameLinks f f') (h' : SameLinks f' g) : SameLinks f g :=
  ⟨h'.size.trans h.size, fun c => (h'.parent c).trans (h.parent c),
    fun c => (h'.children c).trans (h.children c)⟩

theorem addToRemainder (f : Forest) (c : ClusterId) (ids : List Int) :
    SameLinks f (f.addToRemainder c ids) :=
  ⟨size_addToRemainder .., fun d => parent_addToRemainder f c d ids,
    fun d => children_addToRemainder f c d ids⟩

theorem setRemainder (f : Forest) (c : ClusterId) (ids : List Int) :
    SameLinks f (f.setRemainder c ids) :=
  ⟨size_setRemainder .., fun d => parent_setRemainder f c d ids,
    fun d => children_setRemainder f c d ids⟩

theorem removeFromRemainder (f : Forest) (c : ClusterId) (ids : List Int) :
    SameLinks f (f.removeFromRemainder c ids) :=
  ⟨size_removeFromRemainder .., fun d => parent_removeFromRemainder f c d ids,
    fun d => children_removeFromRemainder f c d ids⟩

theorem removeFromAll (f : Forest) (cs : List ClusterId) (ids : List Int) :
    SameLinks f (f.removeFromAll cs ids) := by
  induction cs generalizing f with
  | nil => exact ⟨rfl, fun _ => rfl, fun _ => rfl⟩
  | cons c cs ih =>
      exact trans (removeFromRemainder f c ids) (ih _)

theorem agreeing (h : SameLinks f f') (hf : f.Agreeing) : f'.Agreeing where
  mem_children_iff c p := by rw [h.children, h.parent]; exact hf.mem_children_iff c p
  nodup_children p := by rw [h.children]; exact hf.nodup_children p

theorem wellFormed (h : SameLinks f f') (hf : f.WellFormed) : f'.WellFormed where
  mem_children_iff := (h.agreeing hf.agreeing).mem_children_iff
  nodup_children := (h.agreeing hf.agreeing).nodup_children
  acyclic := by
    obtain ⟨rank, hrank⟩ := hf.acyclic
    exact ⟨rank, fun c p hp => hrank c p (by rw [← h.parent]; exact hp)⟩

theorem ancestors_eq (h : SameLinks f f') (c : ClusterId) : f'.ancestors c = f.ancestors c := by
  have within : ∀ n c, f'.ancestorsWithin n c = f.ancestorsWithin n c := by
    intro n
    induction n with
    | zero => exact fun _ => rfl
    | succ n ih => intro c; simp only [ancestorsWithin, h.parent, ih]
  rw [ancestors, ancestors, h.size, within]

theorem depth_eq (h : SameLinks f f') (c : ClusterId) : f'.depth c = f.depth c := by
  rw [depth, depth, h.ancestors_eq]

theorem root_eq (h : SameLinks f f') (c : ClusterId) : f'.root c = f.root c := by
  rw [root, root, h.ancestors_eq]

theorem walk_eq (h : SameLinks f f') (c : ClusterId) : f'.walk c = f.walk c := by
  have from_stack : ∀ n stack, f'.walkFrom n stack = f.walkFrom n stack := by
    intro n
    induction n with
    | zero => exact fun _ => rfl
    | succ n ih =>
        intro stack
        cases stack with
        | nil => rfl
        | cons c stack => rw [walkFrom, walkFrom, h.children, ih]
  rw [walk, walk, h.size, from_stack]

end SameLinks

theorem remainder_removeFromAll {cs : List ClusterId} (hcs : ∀ c ∈ cs, c < f.size)
    (ids : List Int) (d : ClusterId) :
    (f.removeFromAll cs ids).remainder d =
      if d ∈ cs then (f.remainder d).filter fun v => !ids.contains v else f.remainder d := by
  induction cs generalizing f with
  | nil => rfl
  | cons c cs ih =>
      have hsize : ∀ e ∈ cs, e < (f.removeFromRemainder c ids).size := fun e he => by
        rw [size_removeFromRemainder]; exact hcs e (List.mem_cons_of_mem _ he)
      rw [removeFromAll, List.foldl_cons, ← removeFromAll, ih hsize,
        remainder_removeFromRemainder f c d ids (hcs c List.mem_cons_self)]
      by_cases hdc : d = c <;> by_cases hd : d ∈ cs <;> simp [hdc, hd, List.filter_filter]

end GraphClustering.Forest
