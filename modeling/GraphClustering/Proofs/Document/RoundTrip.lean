import GraphClustering.Proofs.Document.Files
import GraphClustering.Proofs.Document.Import

/-!
# Reading a document again

The tree that is planted from the document of a tree is a copy of it (`copies_forest`).  So
the document of a tree is read as a copy of the tree, and the document of the copy is the
same (`parse_ofForest`).
-/

namespace GraphClustering.TreeDocument

open Forest

variable {f : Forest} {c d : ClusterId}

theorem getElem?_map_seed (hd : d ∈ f.walk c) :
    ((ofForest f c).clusters.map ListedCluster.seed)[numberIn (f.walk c) d]? =
      some (entry f c (f.walk c) d).seed := by
  have place : (f.walk c)[numberIn (f.walk c) d]? = some d := List.getElem?_idxOf hd
  rw [ofForest, List.map_map, List.getElem?_map, place]
  rfl

section Again

variable (hf : f.WellFormed) (hc : c < f.size)

include hf hc

theorem numberIn_of_getElem? {i : Nat} (hi : (f.walk c)[i]? = some d) :
    numberIn (f.walk c) d = i := by
  obtain ⟨lt, rfl⟩ := List.getElem?_eq_some_iff.mp hi
  exact (nodup_walk hf hc).idxOf_getElem i lt

variable (fits : ∀ d ∈ f.walk c, ∀ v ∈ f.remainder d,
  ElementType.minSigned ≤ v ∧ v ≤ ElementType.maxSigned)

include fits

theorem numbered_ofForest : Numbered (ofForest f c).clusters := by
  intro i e he
  rw [ofForest, List.getElem?_map, Option.map_eq_some_iff] at he
  obtain ⟨d, hi, rfl⟩ := he
  have hd := List.mem_of_getElem? hi
  obtain rfl := numberIn_of_getElem? hf hc hi
  refine ⟨rfl, ?_, ?_, fits d hd⟩
  · rw [parent_entry_eq_none_iff hf hc hd, numberIn_eq_zero_iff hf hc hd]
  · intro n named
    obtain ⟨p, hp, child, rfl⟩ := exists_parent_entry hf hc hd named
    exact numberIn_lt_of_child hf hc hp child

theorem planted_ofForest :
    Planted ((ofForest f c).clusters.map ListedCluster.seed) (ofForest f c).forest :=
  planted_forest (numbered_ofForest hf hc fits)

theorem size_forest : (ofForest f c).forest.size = (f.walk c).length := by
  rw [(planted_ofForest hf hc fits).size, ofForest, List.length_map, List.length_map]

/-- The planted tree has the links of the tree that the document is of. -/
theorem parent_forest_iff {x : ClusterId} (hd : d ∈ f.walk c) (hx : x ∈ f.walk c) :
    (ofForest f c).forest.parent (numberIn (f.walk c) x) = some (numberIn (f.walk c) d) ↔
      x ∈ f.children d := by
  rw [(planted_ofForest hf hc fits).parent _ _ (getElem?_map_seed hx)]
  exact parent_entry_eq_some_iff hf hc hx hd

theorem children_forest (hd : d ∈ f.walk c) :
    (ofForest f c).forest.children (numberIn (f.walk c) d) =
      (f.children d).map (numberIn (f.walk c)) := by
  -- both lists of numbers ascend, so that it is enough that they have the same members
  rw [(planted_ofForest hf hc fits).children]
  refine List.Pairwise.eq_of_mem_iff (List.pairwise_lt_range.filter _)
    (ascending_children hf hc hd) fun i => ?_
  rw [List.mem_filter, List.mem_range, decide_eq_true_iff, List.mem_map]
  constructor
  · rintro ⟨hi, hp⟩
    rw [size_forest hf hc fits] at hi
    have place := numberIn_of_getElem? hf hc (List.getElem?_eq_getElem hi)
    rw [← place, parent_forest_iff hf hc fits hd (List.getElem_mem hi)] at hp
    exact ⟨_, hp, place⟩
  · rintro ⟨x, child, rfl⟩
    have hx := child_mem_walk hf hc hd child
    have hp := (parent_forest_iff hf hc fits hd hx).mpr child
    exact ⟨lt_size_of_parent hp, hp⟩

/-- The tree that is planted from the document of a tree is a copy of it. -/
theorem copies_forest : Copies f c (ofForest f c).forest 0 (numberIn (f.walk c)) where
  top := numberIn_top hf hc
  injective _ hd _ _ same := (List.idxOf_inj hd).mp same
  children _ hd := children_forest hf hc fits hd
  remainder _ hd := (planted_ofForest hf hc fits).remainder _ _ (getElem?_map_seed hd)

theorem rooted_forest : (ofForest f c).forest.Rooted 0 where
  toWellFormed := wellFormed_forest (numbered_ofForest hf hc fits)
  parentless := by
    have top := mem_walk_self hf hc
    have first := getElem?_map_seed top
    rw [numberIn_top hf hc] at first
    exact ((planted_ofForest hf hc fits).parent _ _ first).trans
      ((parent_entry_eq_none_iff hf hc top).mpr rfl)
  lt_size := by
    rw [size_forest hf hc fits]
    exact List.length_pos_of_mem (mem_walk_self hf hc)

/-- The document of a tree numbers its clusters in pre-order.  Read again it gives a copy of the
tree and nothing else, whose document is the same; and so does the text of the document in a
file, if it is read as it was written. -/
theorem parse_ofForest : (ofForest f c).Preordered ∧ ∃ g,
    parse (ofForest f c).toJson = .ok (g, 0) ∧ g.Rooted 0 ∧ (∀ d < g.size, d ∈ g.walk 0) ∧
      Copies f c g 0 (numberIn (f.walk c)) ∧ ofForest g 0 = ofForest f c ∧
        (Json.read (ofForest f c).fileText = .ok (ofForest f c).toJson →
          parseText (ofForest f c).fileText = .ok (g, 0)) := by
  have inhabited : (ofForest f c).clusters ≠ [] := by
    rw [ofForest, walk_eq hf hc]
    exact List.cons_ne_nil _ _
  have parsed := parse_of_numbered (numbered_ofForest hf hc fits) inhabited
  have rooted := rooted_forest hf hc fits
  have copies := copies_forest hf hc fits
  refine ⟨preordered_ofForest hf hc, _, parsed, rooted, fun d hd => ?_, copies,
    ofForest_copy copies hf rooted.toWellFormed hc rooted.lt_size, fun read => ?_⟩
  · rw [size_forest hf hc fits] at hd
    rw [copies.walk_top hf rooted.toWellFormed hc rooted.lt_size, numbers_top hf hc]
    exact List.mem_range.mpr hd
  · rw [parseText, read]
    exact parsed

end Again

/-- Five clusters, which the walk from the second one meets in another order. -/
def bush : Forest :=
  plant [⟨none, [9]⟩, ⟨some 0, [4, 4]⟩, ⟨some 1, []⟩, ⟨some 1, [-7]⟩, ⟨some 2, [1]⟩]

theorem wellFormed_bush : bush.WellFormed := by
  refine wellFormed_plant fun i x hx p hp => ?_
  match i with
  | 0 | 1 | 2 | 3 | 4 =>
      cases hx
      cases hp <;> decide
  | i + 5 => cases hx

/-- The second cluster of the five and those below it, written to a file and read again. -/
theorem parse_ofForest_bush : bush.walk 1 = [1, 2, 4, 3] ∧ (ofForest bush 1).Preordered ∧
    ∃ g, parse (ofForest bush 1).toJson = .ok (g, 0) ∧ g.walk 0 = [0, 1, 2, 3] ∧
      g.aggregate 0 = [4, 4, 1, -7] ∧ ofForest g 0 = ofForest bush 1 ∧
        parseText (ofForest bush 1).fileText = .ok (g, 0) := by
  have walk : bush.walk 1 = [1, 2, 4, 3] := by decide
  have inside : 1 < bush.size := by decide
  have fits : ∀ d ∈ bush.walk 1, ∀ v ∈ bush.remainder d,
      ElementType.minSigned ≤ v ∧ v ≤ ElementType.maxSigned := by
    rw [walk]
    decide
  have read : Json.read (ofForest bush 1).fileText = .ok (ofForest bush 1).toJson := by
    have ten : 10 ≤ 10 ^ Decimal.digitLimit := Nat.le_self_pow (by decide) 10
    exact read_fileText wellFormed_bush inside fits (lt_of_lt_of_le (by decide) ten)
      (lt_of_lt_of_le (by decide) ten)
  obtain ⟨order, g, parsed, rooted, -, copies, same, text⟩ :=
    parse_ofForest wellFormed_bush inside fits
  have hg := rooted.toWellFormed
  refine ⟨walk, order, g, parsed, ?_, ?_, same, text read⟩
  · rw [copies.walk_top wellFormed_bush hg inside rooted.lt_size, walk]
    rfl
  · rw [copies.aggregate wellFormed_bush hg inside rooted.lt_size]
    decide

end GraphClustering.TreeDocument
