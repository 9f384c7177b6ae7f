import GraphClustering.Proofs.Document.Numbering
import GraphClustering.Proofs.Json.Text

/-!
# Documents in files

The text of a document is read as the document if its numbers are short enough to be
read.  Those of a tree are, unless it has more clusters or vertices than any file can
list (`read_fileText`).
-/

namespace GraphClustering

open Decimal Json

variable {f : Forest} {c d : ClusterId} {e : ListedCluster}

/-- Whether the numbers of an entry are short enough to be read. -/
structure ListedCluster.Short (e : ListedCluster) : Prop where
  id : e.id < 10 ^ digitLimit
  parent : ∀ p, e.parent = some p → p < 10 ^ digitLimit
  depth : e.depth < 10 ^ digitLimit
  remainder : ∀ v ∈ e.remainder, v.natAbs < 10 ^ digitLimit
  children : ∀ i ∈ e.children, i < 10 ^ digitLimit

namespace TreeDocument

open Forest

theorem simple_int {z : Int} (short : z.natAbs < 10 ^ digitLimit) : Simple (.int z) :=
  .int ((Nat.length_toDigits_le_iff (by decide) (by decide)).mpr short)

theorem simple_entryJson (short : e.Short) : Simple (entryJson e) := by
  have parent : Simple ((e.parent.map Json.nat).getD .null) := by
    cases hp : e.parent with
    | none => exact .null
    | some p => exact simple_int (short.parent p hp)
  have remainder : Simple (.arr (e.remainder.map .int)) :=
    .arr (List.forall_mem_map.mpr fun v hv => simple_int (short.remainder v hv))
  have children : Simple (.arr (e.children.map Json.nat)) :=
    .arr (List.forall_mem_map.mpr fun i hi => simple_int (short.children i hi))
  refine .obj ?_ ?_ ?_
  · change ∀ name ∈ ["id", "parent", "depth", "remainder", "children"], _
    simp [Unescaped]
  · change ["id", "parent", "depth", "remainder", "children"].Nodup
    decide
  · simp only [List.forall_mem_cons]
    exact ⟨simple_int short.id, parent, simple_int short.depth, remainder, children, nofun⟩

theorem simple_toJson {d : TreeDocument} (count : d.clusters.length < 10 ^ digitLimit)
    (vertexCount : d.vertexCount < 10 ^ digitLimit) (short : ∀ e ∈ d.clusters, e.Short) :
    Simple d.toJson := by
  have clusters : Simple (.arr (d.clusters.map entryJson)) :=
    .arr (List.forall_mem_map.mpr fun e he => simple_entryJson (short e he))
  refine .obj ?_ ?_ ?_
  · change ∀ name ∈ ["version", "num_clusters", "num_vertices", "clusters"], _
    simp [Unescaped]
  · change ["version", "num_clusters", "num_vertices", "clusters"].Nodup
    decide
  · simp only [List.forall_mem_cons]
    have one : version.natAbs < 10 ^ digitLimit := Nat.one_lt_pow (by decide) (by decide)
    exact ⟨simple_int one, simple_int count, simple_int vertexCount, clusters, nofun⟩

/-! ## The numbers of a tree -/

theorem short_of_signed {v : Int}
    (fits : ElementType.minSigned ≤ v ∧ v ≤ ElementType.maxSigned) :
    v.natAbs < 10 ^ digitLimit := by
  have power : 2 ^ 63 < 10 ^ digitLimit :=
    calc 2 ^ 63
      _ < 10 ^ 63 := Nat.pow_lt_pow_left (by decide) (by decide)
      _ ≤ 10 ^ digitLimit := Nat.pow_le_pow_right (by decide) (by decide)
  have below : (Nat.pow 2 63 : Int) = 2 ^ 63 := rfl
  rw [ElementType.minSigned, ElementType.maxSigned, below] at fits
  refine lt_of_le_of_lt ?_ power
  omega

section Tree

variable (hf : f.WellFormed) (hc : c < f.size)
  (fits : ∀ d ∈ f.walk c, ∀ v ∈ f.remainder d,
    ElementType.minSigned ≤ v ∧ v ≤ ElementType.maxSigned)
  (few : f.size < 10 ^ digitLimit)

include hf hc few

theorem short_numberIn (hd : d ∈ f.walk c) : numberIn (f.walk c) d < 10 ^ digitLimit :=
  calc numberIn (f.walk c) d
    _ < (f.walk c).length := List.idxOf_lt_length_of_mem hd
    _ ≤ f.size := length_walk_le hf hc
    _ < 10 ^ digitLimit := few

include fits

theorem short_entry (hd : d ∈ f.walk c) : (entry f c (f.walk c) d).Short where
  id := short_numberIn hf hc few hd
  parent n named := by
    obtain ⟨p, hp, -, rfl⟩ := exists_parent_entry hf hc hd named
    exact short_numberIn hf hc few hp
  depth :=
    calc f.depth d - f.depth c
      _ ≤ f.depth d := Nat.sub_le _ _
      _ < f.size := depth_lt_size hf (lt_size_of_mem_walk hf hc hd)
      _ < 10 ^ digitLimit := few
  remainder v hv := short_of_signed (fits d hd v hv)
  children := List.forall_mem_map.mpr fun _ child =>
    short_numberIn hf hc few (child_mem_walk hf hc hd child)

/-- The text of a document is read as the document. -/
theorem read_fileText (vertices : (f.aggregate c).length < 10 ^ digitLimit) :
    Json.read (ofForest f c).fileText = .ok (ofForest f c).toJson := by
  refine read_pretty (simple_toJson ?_ vertices fun e he => ?_)
  · rw [ofForest, List.length_map]
    exact (length_walk_le hf hc).trans_lt few
  · obtain ⟨d, hd, rfl⟩ := mem_clusters.mp he
    exact short_entry hf hc fits few hd

end Tree

end TreeDocument

end GraphClustering
