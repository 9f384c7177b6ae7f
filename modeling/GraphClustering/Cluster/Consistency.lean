import GraphClustering.Graph.Traversal

/-! # How well vertices fit their cluster

A metric scores the vertices of a view against the whole graph. The guard drops all vertices whose
score is too low, over and over, until none is left to drop or too few remain. -/

namespace GraphClustering

/-- Scores the vertices of the second view as parts of the first. A metric keeps nothing between
the times it is asked: the same two views get the same scores. -/
abbrev Metric (α : Type) := View α → View α → Except Fault (Array α)

namespace Metric

variable {α : Type}

/-- Scores given for each vertex, with a score for all others. -/
def table (scores : List (Int × α)) (default : α) : Metric α := fun _ v =>
  .ok (v.vertices.map fun id =>
    ((scores.reverse.find? fun s => s.1 == id).map Prod.snd).getD default)

/-- The share of a vertex's weight that stays inside the view. -/
def relativeWeight [Scalar α] : Metric α := fun super v =>
  if v.order = 0 then .ok #[] else v.relativeWeights super

end Metric

structure Guard (α : Type) where
  metric : Metric α
  graph : View α
  minSize : Number
  minLikelihood : α

/-- What the guard leaves of a view, if enough, and the vertices it dropped. -/
structure Guarded (α : Type) where
  kept : Option (View α)
  dropped : List Int

namespace Guard

variable {α : Type} [Scalar α]

/-- The local ids whose score is below the threshold, and the others. -/
def split (g : Guard α) (v : View α) (scores : Array α) : List Nat × List Nat :=
  (List.range v.order).partition fun i =>
    (scores[i]?).any fun s => Scalar.less s g.minLikelihood

/-- Drops vertices from a view until all the others fit; `dropped` are those dropped before. Every
pass but the last drops a vertex. -/
def shrink (g : Guard α) : Nat → View α → List Int → Except Fault (Guarded α)
  | 0, v, dropped => .ok ⟨some v, dropped⟩
  | fuel + 1, v, dropped =>
      if Number.less (.int v.order) g.minSize then .ok ⟨none, dropped ++ v.vertexList⟩
      else do
        let scores ← g.metric g.graph v
        let (low, rest) := g.split v scores
        if low.isEmpty then .ok ⟨some v, dropped⟩
        else g.shrink fuel (v.restrict rest) (dropped ++ low.map fun i => v.vertices.getD i 0)

/-- The part of a view that fits, or nothing if it is below the minimum size. -/
def ensure (g : Guard α) (v : View α) : Except Fault (Guarded α) :=
  g.shrink (v.order + 1) v []

end Guard

end GraphClustering
