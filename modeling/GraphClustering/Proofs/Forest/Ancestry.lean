import GraphClustering.Cluster.Forest
import Mathlib

/-!
# Ancestors and descendants

In a well-formed forest the links from parents to children and back agree and
there is no cycle.  The fuel of `ancestors` and `walk` is then never used up:
both satisfy the recursive equations that one expects (`ancestors_of_parent`,
`walk_eq`), and the walk from a cluster meets exactly the clusters that have it
among their ancestors, each once (`mem_walk_iff`, `nodup_walk`).
-/

namespace GraphClustering.Forest

variable {f : Forest} {c d p r : ClusterId}

/-- The links agree in both directions and a child is listed once. -/
structure Agreeing (f : Forest) : Prop where
  mem_children_iff : ∀ c p, c ∈ f.children p ↔ f.parent c = some p
  nodup_children : ∀ p, (f.children p).Nodup

/-- The links agree in both directions, a child is listed once, and some
numbering rises along every link, so that there is no cycle. -/
structure WellFormed (f : Forest) : Prop where
  mem_children_iff : ∀ c p, c ∈ f.children p ↔ f.parent c = some p
  nodup_children : ∀ p, (f.children p).Nodup
  acyclic : ∃ rank : ClusterId → Nat, ∀ c p, f.parent c = some p → rank p < rank c

theorem cluster_of_size_le (h : f.size ≤ c) : f.cluster c = default := by
  simp only [size] at h
  simp [cluster, Array.getD_eq_getD_getElem?, Array.getElem?_eq_none h]

theorem lt_size_of_parent (h : f.parent c = some p) : c < f.size := by
  by_contra hc
  rw [parent, cluster_of_size_le (Nat.le_of_not_lt hc)] at h
  cases h

theorem lt_size_of_mem_children (h : c ∈ f.children p) : p < f.size := by
  by_contra hp
  rw [children, cluster_of_size_le (Nat.le_of_not_lt hp)] at h
  cases h

namespace Agreeing

theorem parent_lt_size (hf : f.Agreeing) (h : f.parent c = some p) : p < f.size :=
  lt_size_of_mem_children ((hf.mem_children_iff c p).mpr h)

theorem child_lt_size (hf : f.Agreeing) (h : c ∈ f.children p) : c < f.size :=
  lt_size_of_parent ((hf.mem_children_iff c p).mp h)

end Agreeing

namespace WellFormed

theorem agreeing (hf : f.WellFormed) : f.Agreeing :=
  ⟨hf.mem_children_iff, hf.nodup_children⟩

theorem parent_lt_size (hf : f.WellFormed) (h : f.parent c = some p) : p < f.size :=
  hf.agreeing.parent_lt_size h

theorem child_lt_size (hf : f.WellFormed) (h : c ∈ f.children p) : c < f.size :=
  hf.agreeing.child_lt_size h

theorem parent_ne_self (hf : f.WellFormed) (h : f.parent c = some p) : p ≠ c := by
  obtain ⟨rank, hrank⟩ := hf.acyclic
  rintro rfl
  exact absurd (hrank p p h) (lt_irrefl _)

/-- Induction from the roots down. -/
theorem induction_down (hf : f.WellFormed) {P : ClusterId → Prop}
    (step : ∀ c, (∀ p, f.parent c = some p → P p) → P c) (c : ClusterId) : P c := by
  obtain ⟨rank, hrank⟩ := hf.acyclic
  induction c using (measure rank).wf.induction with
  | _ c ih => exact step c fun p hp => ih p (hrank c p hp)

end WellFormed

/-! ## Ancestors -/

theorem ancestorsWithin_rank {rank : ClusterId → Nat}
    (hrank : ∀ c p, f.parent c = some p → rank p < rank c) (n : Nat) (c : ClusterId) :
    (c :: f.ancestorsWithin n c).Pairwise fun a b => rank b < rank a := by
  have chain : (c :: f.ancestorsWithin n c).IsChain fun a b => rank b < rank a := by
    induction n generalizing c with
    | zero => exact .singleton c
    | succ n ih =>
        rw [ancestorsWithin]
        cases hp : f.parent c with
        | none => exact .singleton c
        | some p => exact .cons_cons (hrank c p hp) (ih p)
  have : IsTrans ClusterId fun a b => rank b < rank a := ⟨fun _ _ _ hab hbc => hbc.trans hab⟩
  exact List.isChain_iff_pairwise.mp chain

theorem ancestorsWithin_lt_size (hf : f.WellFormed) (n : Nat) (hc : c < f.size) :
    ∀ a ∈ c :: f.ancestorsWithin n c, a < f.size := by
  induction n generalizing c with
  | zero => simpa [ancestorsWithin] using hc
  | succ n ih =>
      rw [ancestorsWithin]
      cases hp : f.parent c with
      | none => simpa using hc
      | some p =>
          intro a ha
          rcases List.mem_cons.mp ha with rfl | ha
          · exact hc
          · exact ih (hf.parent_lt_size hp) a ha

/-- No path is as long as the forest, by the pigeonhole principle. -/
theorem length_ancestorsWithin_lt (hf : f.WellFormed) (n : Nat) (hc : c < f.size) :
    (f.ancestorsWithin n c).length < f.size := by
  obtain ⟨rank, hrank⟩ := hf.acyclic
  have nodup : (c :: f.ancestorsWithin n c).Nodup :=
    (ancestorsWithin_rank hrank n c).imp fun h => by rintro rfl; exact lt_irrefl _ h
  have sub : c :: f.ancestorsWithin n c ⊆ List.range f.size := fun a ha =>
    List.mem_range.mpr (ancestorsWithin_lt_size hf n hc a ha)
  have le := (nodup.subperm sub).length_le
  rwa [List.length_range, List.length_cons] at le

/-- A path that ends before its fuel does not change with more fuel. -/
theorem ancestorsWithin_stable {n m : Nat} (h : (f.ancestorsWithin n c).length < n)
    (hnm : n ≤ m) : f.ancestorsWithin m c = f.ancestorsWithin n c := by
  induction n generalizing c m with
  | zero => exact absurd h (Nat.not_lt_zero _)
  | succ n ih =>
      obtain ⟨m, rfl⟩ : ∃ k, m = k + 1 := ⟨m - 1, by omega⟩
      simp only [ancestorsWithin] at h ⊢
      cases hp : f.parent c with
      | none => rfl
      | some p =>
          simp only [hp, List.length_cons] at h
          exact congrArg (p :: ·) (ih (Nat.lt_of_succ_lt_succ h) (Nat.le_of_succ_le_succ hnm))

theorem ancestors_of_root (h : f.parent c = none) : f.ancestors c = [] := by
  rw [ancestors]
  cases f.size with
  | zero => rfl
  | succ n => rw [ancestorsWithin, h]

theorem lt_size_of_mem_ancestors (hf : f.WellFormed) (h : d ∈ f.ancestors c) : d < f.size := by
  by_cases hc : c < f.size
  · exact ancestorsWithin_lt_size hf f.size hc d (List.mem_cons_of_mem _ h)
  · have parentless : f.parent c = none := by
      rw [parent, cluster_of_size_le (Nat.le_of_not_lt hc)]; rfl
    rw [ancestors_of_root parentless] at h
    cases h

theorem ancestors_of_parent (hf : f.WellFormed) (h : f.parent c = some p) :
    f.ancestors c = p :: f.ancestors p := by
  have hlt := length_ancestorsWithin_lt hf f.size (lt_size_of_parent h)
  rw [ancestors, ancestors]
  obtain ⟨n, hn⟩ := Nat.exists_eq_succ_of_ne_zero (Nat.ne_zero_of_lt (lt_size_of_parent h))
  rw [hn] at hlt ⊢
  rw [ancestorsWithin, h] at hlt ⊢
  rw [ancestorsWithin_stable (by simpa using hlt) (Nat.le_succ n)]

theorem depth_of_parent (hf : f.WellFormed) (h : f.parent c = some p) :
    f.depth c = f.depth p + 1 := by
  rw [depth, ancestors_of_parent hf h, List.length_cons, depth]

theorem depth_lt_size (hf : f.WellFormed) (hc : c < f.size) : f.depth c < f.size :=
  length_ancestorsWithin_lt hf f.size hc

/-- Induction from the leaves up. -/
theorem WellFormed.induction_up (hf : f.WellFormed) {P : ClusterId → Prop}
    (step : ∀ c < f.size, (∀ d ∈ f.children c, P d) → P c) (hc : c < f.size) : P c := by
  induction c using (measure fun c => f.size - f.depth c).wf.induction with
  | _ c ih =>
      refine step c hc fun d hd => ih d ?_ (hf.child_lt_size hd)
      have deeper := depth_of_parent hf ((hf.mem_children_iff d c).mp hd)
      have shallow := depth_lt_size hf (hf.child_lt_size hd)
      change f.size - f.depth d < f.size - f.depth c
      omega

theorem root_of_root (h : f.parent c = none) : f.root c = c := by
  rw [root, ancestors_of_root h, List.getLastD_nil]

theorem root_of_parent (hf : f.WellFormed) (h : f.parent c = some p) : f.root c = f.root p := by
  rw [root, ancestors_of_parent hf h, List.getLastD_cons, root]

theorem parent_root (hf : f.WellFormed) (c : ClusterId) : f.parent (f.root c) = none := by
  induction c using hf.induction_down with
  | step c ih =>
      cases hp : f.parent c with
      | none => rw [root_of_root hp, hp]
      | some p => rw [root_of_parent hf hp, ih p hp]

theorem depth_lt_of_mem_ancestors (hf : f.WellFormed) (h : d ∈ f.ancestors c) :
    f.depth d < f.depth c := by
  induction c using hf.induction_down with
  | step c ih =>
      cases hp : f.parent c with
      | none => rw [ancestors_of_root hp] at h; cases h
      | some p =>
          rw [ancestors_of_parent hf hp] at h
          rw [depth_of_parent hf hp]
          rcases List.mem_cons.mp h with rfl | h
          · exact Nat.lt_succ_self _
          · exact (ih p hp h).trans (Nat.lt_succ_self _)

theorem notMem_ancestors_self (hf : f.WellFormed) (c : ClusterId) : c ∉ f.ancestors c :=
  fun h => lt_irrefl _ (depth_lt_of_mem_ancestors hf h)

/-- The ancestors of an ancestor end the list of ancestors. -/
theorem ancestors_suffix (hf : f.WellFormed) (h : d ∈ f.ancestors c) :
    d :: f.ancestors d <:+ f.ancestors c := by
  induction c using hf.induction_down with
  | step c ih =>
      cases hp : f.parent c with
      | none => rw [ancestors_of_root hp] at h; cases h
      | some p =>
          rw [ancestors_of_parent hf hp] at h ⊢
          rcases List.mem_cons.mp h with rfl | h
          · exact List.suffix_refl _
          · exact (ih p hp h).trans (List.suffix_cons _ _)

theorem root_of_mem_ancestors (hf : f.WellFormed) (h : d ∈ f.ancestors c) :
    f.root c = f.root d := by
  induction c using hf.induction_down with
  | step c ih =>
      cases hp : f.parent c with
      | none => rw [ancestors_of_root hp] at h; cases h
      | some p =>
          rw [ancestors_of_parent hf hp] at h
          rw [root_of_parent hf hp]
          rcases List.mem_cons.mp h with rfl | h
          · rfl
          · exact ih p hp h

theorem root_mem_lineage (hf : f.WellFormed) (c : ClusterId) :
    f.root c ∈ c :: f.ancestors c := by
  induction c using hf.induction_down with
  | step c ih =>
      cases hp : f.parent c with
      | none => rw [root_of_root hp]; exact List.mem_cons_self
      | some p =>
          rw [root_of_parent hf hp, ancestors_of_parent hf hp]
          exact List.mem_cons_of_mem _ (ih p hp)

/-- A root is in the lineage of a cluster exactly if it is the root of its tree. -/
theorem mem_lineage_iff_of_root (hf : f.WellFormed) (hr : f.parent r = none) :
    r ∈ c :: f.ancestors c ↔ f.root c = r := by
  constructor
  · intro h
    rcases List.mem_cons.mp h with rfl | h
    · exact root_of_root hr
    · rw [root_of_mem_ancestors hf h, root_of_root hr]
  · rintro rfl
    exact root_mem_lineage hf c

/-- Two clusters of one lineage with the same depth are the same. -/
theorem eq_of_mem_lineage (hf : f.WellFormed) {a b : ClusterId} (ha : a ∈ c :: f.ancestors c)
    (hb : b ∈ c :: f.ancestors c) (h : f.depth a = f.depth b) : a = b := by
  have descending : (c :: f.ancestors c).Pairwise fun a b => f.depth b < f.depth a :=
    ancestorsWithin_rank (fun c p hp => by rw [depth_of_parent hf hp]; omega) f.size c
  have nodup : ((c :: f.ancestors c).map f.depth).Nodup :=
    List.pairwise_map.mpr (descending.imp fun h => h.ne')
  exact List.inj_on_of_nodup_map nodup ha hb h

theorem exists_child_of_mem_ancestors (hf : f.WellFormed) (h : c ∈ f.ancestors d) :
    ∃ e ∈ d :: f.ancestors d, f.parent e = some c := by
  induction d using hf.induction_down with
  | step d ih =>
      cases hp : f.parent d with
      | none => rw [ancestors_of_root hp] at h; cases h
      | some p =>
          rw [ancestors_of_parent hf hp] at h ⊢
          rcases List.mem_cons.mp h with rfl | h
          · exact ⟨d, List.mem_cons_self, hp⟩
          · obtain ⟨e, he, hpe⟩ := ih p hp h
            exact ⟨e, List.mem_cons_of_mem _ he, hpe⟩

/-- What is in the lineage of a child's descendant is above the parent as well. -/
theorem mem_ancestors_of_child_mem_lineage (hf : f.WellFormed) (hp : f.parent c = some p)
    (h : c ∈ d :: f.ancestors d) : p ∈ f.ancestors d := by
  rcases List.mem_cons.mp h with rfl | h
  · rw [ancestors_of_parent hf hp]; exact List.mem_cons_self
  · refine (ancestors_suffix hf h).subset (List.mem_cons_of_mem _ ?_)
    rw [ancestors_of_parent hf hp]; exact List.mem_cons_self

theorem lt_size_of_mem_lineage (hc : c < f.size) (h : c ∈ d :: f.ancestors d) :
    d < f.size := by
  rcases List.mem_cons.mp h with rfl | h
  · exact hc
  · cases hp : f.parent d with
    | none => rw [ancestors_of_root hp] at h; cases h
    | some p => exact lt_size_of_parent hp

/-! ## The walk -/

/-- The recursive pre-order of the descendants at most `n` levels down. -/
def preorder (f : Forest) : Nat → ClusterId → List ClusterId
  | 0, c => [c]
  | n + 1, c => c :: (f.children c).flatMap (f.preorder n)

theorem walkFrom_nil (f : Forest) (n : Nat) : f.walkFrom n [] = [] := by
  cases n <;> rfl

theorem walkFrom_append {n : Nat} {cs : List ClusterId}
    (h : ∀ c ∈ cs, ∀ fuel stack, f.walkFrom ((f.preorder n c).length + fuel) (c :: stack) =
      f.preorder n c ++ f.walkFrom fuel stack) (fuel : Nat) (stack : List ClusterId) :
    f.walkFrom ((cs.flatMap (f.preorder n)).length + fuel) (cs ++ stack) =
      cs.flatMap (f.preorder n) ++ f.walkFrom fuel stack := by
  induction cs with
  | nil => simp
  | cons c cs ih =>
      rw [List.flatMap_cons, List.length_append, Nat.add_assoc, List.cons_append,
        h c List.mem_cons_self, ih fun d hd => h d (List.mem_cons_of_mem _ hd),
        List.append_assoc]

/-- A walk lists the subtree on top of its stack in pre-order and then goes on.
The induction is on the levels below the cluster, of which there are fewer than
clusters in the forest. -/
theorem walkFrom_cons (hf : f.WellFormed) {n : Nat} (hc : c < f.size)
    (hn : f.size ≤ n + f.depth c) (fuel : Nat) (stack : List ClusterId) :
    f.walkFrom ((f.preorder n c).length + fuel) (c :: stack) =
      f.preorder n c ++ f.walkFrom fuel stack := by
  induction n generalizing c fuel stack with
  | zero => have := depth_lt_size hf hc; omega
  | succ n ih =>
      have below : ∀ d ∈ f.children c, ∀ fuel stack,
          f.walkFrom ((f.preorder n d).length + fuel) (d :: stack) =
            f.preorder n d ++ f.walkFrom fuel stack := by
        intro d hd fuel stack
        have hp := (hf.mem_children_iff d c).mp hd
        exact ih (hf.child_lt_size hd) (by rw [depth_of_parent hf hp]; omega) fuel stack
      rw [preorder, List.length_cons, Nat.add_right_comm, walkFrom, walkFrom_append below,
        List.cons_append]

theorem mem_preorder_iff (hf : f.WellFormed) {n : Nat} (hc : c < f.size)
    (hn : f.size ≤ n + f.depth c) : d ∈ f.preorder n c ↔ c ∈ d :: f.ancestors d := by
  induction n generalizing c with
  | zero => have := depth_lt_size hf hc; omega
  | succ n ih =>
      have below : ∀ e ∈ f.children c, (d ∈ f.preorder n e ↔ e ∈ d :: f.ancestors d) := by
        intro e he
        have hp := (hf.mem_children_iff e c).mp he
        exact ih (hf.child_lt_size he) (by rw [depth_of_parent hf hp]; omega)
      rw [preorder, List.mem_cons, List.mem_flatMap]
      constructor
      · rintro (rfl | ⟨e, he, hd⟩)
        · exact List.mem_cons_self
        · exact List.mem_cons_of_mem _ (mem_ancestors_of_child_mem_lineage hf
            ((hf.mem_children_iff e c).mp he) ((below e he).mp hd))
      · intro h
        rcases List.mem_cons.mp h with rfl | h
        · exact .inl rfl
        · obtain ⟨e, he, hp⟩ := exists_child_of_mem_ancestors hf h
          have hec := (hf.mem_children_iff e c).mpr hp
          exact .inr ⟨e, hec, (below e hec).mpr he⟩

theorem nodup_preorder (hf : f.WellFormed) {n : Nat} (hc : c < f.size)
    (hn : f.size ≤ n + f.depth c) : (f.preorder n c).Nodup := by
  induction n generalizing c with
  | zero => have := depth_lt_size hf hc; omega
  | succ n ih =>
      have deep : ∀ e ∈ f.children c, f.size ≤ n + f.depth e := by
        intro e he
        rw [depth_of_parent hf ((hf.mem_children_iff e c).mp he)]; omega
      have below : ∀ e ∈ f.children c, ∀ d, d ∈ f.preorder n e → e ∈ d :: f.ancestors d :=
        fun e he d hd => (mem_preorder_iff hf (hf.child_lt_size he) (deep e he)).mp hd
      rw [preorder, List.nodup_cons, List.nodup_flatMap]
      refine ⟨?_, fun e he => ih (hf.child_lt_size he) (deep e he), ?_⟩
      · intro h
        obtain ⟨e, he, hce⟩ := List.mem_flatMap.mp h
        exact notMem_ancestors_self hf c (mem_ancestors_of_child_mem_lineage hf
          ((hf.mem_children_iff e c).mp he) (below e he c hce))
      · -- A common descendant would have both children in its lineage, at one depth.
        apply (hf.nodup_children c).pairwise_of_forall_ne
        intro a ha b hb hab d hda hdb
        refine hab (eq_of_mem_lineage hf (below a ha d hda) (below b hb d hdb) ?_)
        rw [depth_of_parent hf ((hf.mem_children_iff a c).mp ha),
          depth_of_parent hf ((hf.mem_children_iff b c).mp hb)]

theorem walk_eq_preorder (hf : f.WellFormed) {n : Nat} (hc : c < f.size)
    (hn : f.size ≤ n + f.depth c) : f.walk c = f.preorder n c := by
  have sub : f.preorder n c ⊆ List.range f.size := fun d hd =>
    List.mem_range.mpr (lt_size_of_mem_lineage hc ((mem_preorder_iff hf hc hn).mp hd))
  have le := ((nodup_preorder hf hc hn).subperm sub).length_le
  rw [List.length_range] at le
  have walked := walkFrom_cons hf hc hn (f.size - (f.preorder n c).length) []
  rwa [Nat.add_sub_cancel' le, walkFrom_nil, List.append_nil] at walked

/-- The stack walk is the recursive pre-order. -/
theorem walk_eq (hf : f.WellFormed) (hc : c < f.size) :
    f.walk c = c :: (f.children c).flatMap f.walk := by
  obtain ⟨n, hn⟩ := Nat.exists_eq_succ_of_ne_zero (Nat.ne_zero_of_lt hc)
  rw [walk_eq_preorder hf hc (by omega : f.size ≤ (n + 1) + f.depth c), preorder]
  refine congrArg (c :: ·) (List.flatMap_congr ?_)
  intro d hd
  have deep : f.size ≤ n + f.depth d := by
    rw [depth_of_parent hf ((hf.mem_children_iff d c).mp hd)]; omega
  exact (walk_eq_preorder hf (hf.child_lt_size hd) deep).symm

/-- The vertices of a cluster come first, then those below its children one by one. -/
theorem aggregate_eq (hf : f.WellFormed) (hc : c < f.size) :
    f.aggregate c = f.remainder c ++ (f.children c).flatMap f.aggregate := by
  rw [aggregate, walk_eq hf hc, List.flatMap_cons, List.flatMap_assoc]
  rfl

theorem mem_walk_iff (hf : f.WellFormed) (hc : c < f.size) :
    d ∈ f.walk c ↔ c ∈ d :: f.ancestors d := by
  rw [walk_eq_preorder hf hc (Nat.le_add_right _ _), mem_preorder_iff hf hc (Nat.le_add_right _ _)]

/-- The walk lists the clusters that are reached from child to child. -/
theorem mem_walk_iff_reachable (hf : f.WellFormed) (hc : c < f.size) :
    d ∈ f.walk c ↔ Relation.ReflTransGen (fun a b => b ∈ f.children a) c d := by
  rw [mem_walk_iff hf hc]
  constructor
  · refine hf.induction_down (P := fun d => c ∈ d :: f.ancestors d →
      Relation.ReflTransGen (fun a b => b ∈ f.children a) c d) ?_ d
    intro d ih h
    rcases List.mem_cons.mp h with rfl | h
    · exact .refl
    · cases hp : f.parent d with
      | none => rw [ancestors_of_root hp] at h; cases h
      | some p =>
          rw [ancestors_of_parent hf hp] at h
          exact (ih p hp h).tail ((hf.mem_children_iff d p).mpr hp)
  · intro h
    induction h with
    | refl => exact List.mem_cons_self
    | tail _ child ih =>
        rw [ancestors_of_parent hf ((hf.mem_children_iff _ _).mp child)]
        exact List.mem_cons_of_mem _ ih

theorem nodup_walk (hf : f.WellFormed) (hc : c < f.size) : (f.walk c).Nodup := by
  rw [walk_eq_preorder hf hc (Nat.le_add_right _ _)]
  exact nodup_preorder hf hc (Nat.le_add_right _ _)

theorem length_walk_le (hf : f.WellFormed) (hc : c < f.size) : (f.walk c).length ≤ f.size := by
  have sub : f.walk c ⊆ List.range f.size := fun d hd =>
    List.mem_range.mpr (lt_size_of_mem_lineage hc ((mem_walk_iff hf hc).mp hd))
  have le := ((nodup_walk hf hc).subperm sub).length_le
  rwa [List.length_range] at le

theorem mem_walk_self (hf : f.WellFormed) (hc : c < f.size) : c ∈ f.walk c :=
  (mem_walk_iff hf hc).mpr List.mem_cons_self

theorem lt_size_of_mem_walk (hf : f.WellFormed) (hc : c < f.size) (h : d ∈ f.walk c) :
    d < f.size :=
  lt_size_of_mem_lineage hc ((mem_walk_iff hf hc).mp h)

/-- A cluster without a parent, in a well-formed forest: the root of a tree. -/
structure Rooted (f : Forest) (r : ClusterId) : Prop extends f.WellFormed where
  parentless : f.parent r = none
  lt_size : r < f.size

/-- The walk from a root lists the clusters of its tree. -/
theorem Rooted.mem_walk_iff (h : f.Rooted r) : d ∈ f.walk r ↔ f.root d = r := by
  rw [Forest.mem_walk_iff h.toWellFormed h.lt_size,
    mem_lineage_iff_of_root h.toWellFormed h.parentless]

end GraphClustering.Forest
