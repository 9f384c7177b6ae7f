import GraphClustering.Proofs.Forest.Links

/-!
# Planting

A forest whose clusters are made one after the other, each below one made before or as a
root.  Their numbers rise from parents to children, so that there is no cycle, and the
children of a cluster are in the order of their numbers (`planted_plant`).
-/

namespace GraphClustering

theorem getElem?_concat_eq_some {α : Type} {xs : List α} {i : Nat} {x y : α} :
    (xs ++ [x])[i]? = some y ↔ xs[i]? = some y ∨ i = xs.length ∧ x = y := by
  rcases lt_trichotomy i xs.length with hi | rfl | hi
  · rw [List.getElem?_append_left hi, or_iff_left fun h => hi.ne h.1]
  · simp
  · have past : xs.length ≤ i ∧ (xs ++ [x]).length ≤ i := by simp; omega
    rw [List.getElem?_eq_none past.1, List.getElem?_eq_none past.2]
    exact iff_of_false nofun (by simp [hi.ne'])

namespace Forest

variable {f : Forest} {c d p : ClusterId}

/-- What a cluster is made from. -/
structure Seed where
  parent : Option ClusterId
  remainder : List Int

/-- A forest with one more cluster. -/
def sprout (f : Forest) (x : Seed) : Forest :=
  (f.spawn x.parent).1.addToRemainder f.size x.remainder

def plant (xs : List Seed) : Forest :=
  xs.foldl sprout .empty

theorem plant_concat (xs : List Seed) (x : Seed) : plant (xs ++ [x]) = (plant xs).sprout x := by
  rw [plant, List.foldl_append]
  rfl

/-! ## One more cluster -/

section Sprout

variable (f : Forest) (x : Seed) (d : ClusterId)

theorem size_sprout : (f.sprout x).size = f.size + 1 := by
  rw [sprout, size_addToRemainder, size_spawn]

theorem parent_sprout :
    (f.sprout x).parent d = if d = f.size then x.parent else f.parent d := by
  rw [sprout, parent_addToRemainder, parent_spawn]

theorem remainder_sprout :
    (f.sprout x).remainder d = if d = f.size then x.remainder else f.remainder d := by
  rw [sprout, remainder_addToRemainder _ _ _ _ (by rw [size_spawn]; exact Nat.lt_succ_self _),
    remainder_spawn]
  by_cases hd : d = f.size
  · rw [if_pos hd, if_pos hd, remainder, cluster_of_size_le hd.ge]
    rfl
  · rw [if_neg hd, if_neg hd]

variable (hf : f.Agreeing) (hx : ∀ p, x.parent = some p → p < f.size)

include hf hx

theorem children_sprout : (f.sprout x).children d =
    if x.parent = some d then f.children d ++ [f.size] else f.children d := by
  rw [sprout, children_addToRemainder]
  cases hp : x.parent with
  | none =>
      rw [if_neg nofun]
      exact children_push f none d
  | some p =>
      rw [children_spawn f p d hf (hx p hp)]
      simp only [Option.some_inj, eq_comm]

theorem agreeing_sprout : (f.sprout x).Agreeing := by
  apply (SameLinks.addToRemainder ..).agreeing
  cases hp : x.parent with
  | none => exact hf.spawn_none
  | some p => exact hf.spawn (hx p hp)

end Sprout

/-! ## All clusters -/

/-- Whether every cluster comes after its parent. -/
def Rising (xs : List Seed) : Prop :=
  ∀ (i : Nat) (x : Seed), xs[i]? = some x → ∀ p, x.parent = some p → p < i

theorem rising_concat {xs : List Seed} {x : Seed} :
    Rising (xs ++ [x]) ↔ Rising xs ∧ ∀ p, x.parent = some p → p < xs.length := by
  simp only [Rising, getElem?_concat_eq_some, or_imp, forall_and]
  refine and_congr_right fun _ => ⟨fun last => last _ x ⟨rfl, rfl⟩, ?_⟩
  rintro last i y ⟨rfl, rfl⟩
  exact last

/-- A forest that has grown from some seeds. -/
structure Planted (xs : List Seed) (f : Forest) : Prop extends f.Agreeing where
  size : f.size = xs.length
  parent : ∀ (i : Nat) (x : Seed), xs[i]? = some x → f.parent i = x.parent
  remainder : ∀ (i : Nat) (x : Seed), xs[i]? = some x → f.remainder i = x.remainder
  children : ∀ p, f.children p = (List.range f.size).filter fun i => f.parent i = some p

namespace Planted

variable {xs : List Seed} {x : Seed}

theorem empty : Planted [] .empty where
  mem_children_iff _ _ := iff_of_false nofun nofun
  nodup_children _ := List.nodup_nil
  size := rfl
  parent _ _ := nofun
  remainder _ _ := nofun
  children _ := rfl

theorem sprout (planted : Planted xs f) (hx : ∀ p, x.parent = some p → p < xs.length) :
    Planted (xs ++ [x]) (f.sprout x) := by
  rw [← planted.size] at hx
  have kept : ∀ i < f.size, (f.sprout x).parent i = f.parent i := fun i hi => by
    rw [parent_sprout, if_neg hi.ne]
  have new : (f.sprout x).parent f.size = x.parent := by
    rw [parent_sprout, if_pos rfl]
  have cases : ∀ {i : Nat} {y : Seed}, (xs ++ [x])[i]? = some y →
      xs[i]? = some y ∧ i < f.size ∨ i = f.size ∧ x = y := by
    intro i y hy
    rw [planted.size]
    refine (getElem?_concat_eq_some.mp hy).imp_left fun hy => ⟨hy, ?_⟩
    exact (List.getElem?_eq_some_iff.mp hy).1
  refine ⟨agreeing_sprout f x planted.toAgreeing hx, ?_, ?_, ?_, ?_⟩
  · rw [size_sprout, planted.size, List.length_append, List.length_singleton]
  · intro i y hy
    rcases cases hy with ⟨hy, hi⟩ | ⟨rfl, rfl⟩
    · rw [kept i hi, planted.parent i y hy]
    · exact new
  · intro i y hy
    rw [remainder_sprout]
    rcases cases hy with ⟨hy, hi⟩ | ⟨rfl, rfl⟩
    · rw [if_neg hi.ne, planted.remainder i y hy]
    · rw [if_pos rfl]
  · intro p
    have old : ((List.range f.size).filter fun i => (f.sprout x).parent i = some p) =
        f.children p := by
      rw [planted.children p]
      exact List.filter_congr fun i hi => by rw [kept i (List.mem_range.mp hi)]
    rw [children_sprout f x p planted.toAgreeing hx, size_sprout, List.range_succ,
      List.filter_append, old]
    by_cases hp : x.parent = some p
    · rw [if_pos hp, List.filter_singleton, new, decide_eq_true hp]
      rfl
    · rw [if_neg hp, List.filter_singleton, new, decide_eq_false hp]
      exact (List.append_nil _).symm

theorem parent_lt (planted : Planted xs f) (rising : Rising xs) (hp : f.parent c = some p) :
    p < c := by
  obtain ⟨x, hx⟩ : ∃ x, xs[c]? = some x :=
    ⟨_, List.getElem?_eq_getElem (planted.size ▸ lt_size_of_parent hp)⟩
  exact rising c x hx p ((planted.parent c x hx).symm.trans hp)

theorem wellFormed (planted : Planted xs f) (rising : Rising xs) : f.WellFormed :=
  ⟨planted.mem_children_iff, planted.nodup_children, id, fun _ _ => planted.parent_lt rising⟩

end Planted

theorem planted_plant {xs : List Seed} (rising : Rising xs) : Planted xs (plant xs) := by
  induction xs using List.reverseRecOn with
  | nil => exact .empty
  | append_singleton xs x ih =>
      obtain ⟨rising, last⟩ := rising_concat.mp rising
      rw [plant_concat]
      exact (ih rising).sprout last

theorem wellFormed_plant {xs : List Seed} (rising : Rising xs) : (plant xs).WellFormed :=
  (planted_plant rising).wellFormed rising

end Forest

end GraphClustering
