import GraphClustering.Settings.Basic
import GraphClustering.Spectral.NormalizedAdjacency
import GraphClustering.Spectral.PowerIteration
import GraphClustering.Spectral.StartVector

/-! # Splitting a view by the signs of its dominant eigenvector -/

namespace GraphClustering

/-- The sides of a split: which vertices are positive, or no split within the limit. -/
inductive Verdict where
  | signs (positive : List Bool)
  | unsettled
deriving DecidableEq, Repr

/-- A way to split views. -/
abbrev Bisector (α : Type) := View α → Except Fault Verdict

namespace Bisection

/-- An attempt at the dominant eigenvector: the orders of the matrices that were set up, the
products that were computed, and the vector. -/
structure Attempt where
  orders : List Nat
  products : Nat
  vector : Except Fault (List Float)

/-- The limit on iterations that is asked for, or that of the settings. -/
def limit (s : Settings) (asked : Option Number) : Number :=
  match asked with
  | some n => if n.isZero then s.maxIterations else n
  | none => s.maxIterations

/-- The dominant eigenvector of the deflated normalised adjacency; a view of a single vertex has
the zero vector. -/
def attempt (s : Settings) (v : View Float) (asked : Option Number) : Attempt :=
  if v.order ≤ 1 then ⟨[], 0, .ok (List.replicate v.order 0)⟩
  else match v.adjacency with
    | .error e => ⟨[], 0, .error e⟩
    | .ok m =>
        let operator := NormalizedAdjacency.ofMatrix m
        let start := do operator.deflate (← StartVector.ofSeed s.randomSeed v.order)
        match start with
        | .error e => ⟨[v.order], 0, .error e⟩
        | .ok start =>
            let trail := SignTrail.fresh v.order s.trailSize s.convergenceThreshold
            let run := PowerIteration.run operator.apply trail start (limit s asked)
            ⟨[v.order], run.calls, run.outcome⟩

/-- The local ids on either side: those that are not positive, then those that are. -/
def sides (positive : List Bool) : List Nat × List Nat :=
  let marked := positive.zipIdx
  ((marked.filter fun p => !p.1).map Prod.snd, (marked.filter fun p => p.1).map Prod.snd)

/-- Both parts of a view, of which either may be empty. -/
def parts {α : Type} (v : View α) (positive : List Bool) : List (View α) :=
  [v.restrict (sides positive).1, v.restrict (sides positive).2]

/-- The sides of a vector's signs. -/
def verdict : Except Fault (List Float) → Except Fault Verdict
  | .ok x => .ok (.signs (x.map SignTrail.positive))
  | .error (.notConverged _) => .ok .unsettled
  | .error e => .error e

/-- Splits by the signs of the dominant eigenvector. -/
def spectral (s : Settings) : Bisector Float :=
  fun v => verdict (attempt s v (some s.maxIterations)).vector

end Bisection

end GraphClustering
