import GraphClustering.Spectral.SignTrail

/-! # Power iteration

From a start vector the operator is applied again and again, each time with a result of norm one
that points the way of the vector before. The iteration ends as soon as the signs have settled. -/

namespace GraphClustering.PowerIteration

variable {α : Type} [Scalar α]

/-- The way a run ended, and how often the operator was applied. -/
structure Run (α : Type) where
  calls : Nat
  outcome : Except Fault (List α)

/-- The next vector after `x` from its image `y`: of norm one and not against `x`. An image of
norm zero leaves `x` as it is. -/
def next (x y : List α) : Except Fault (List α) := do
  let norm := Vector.norm y
  if Scalar.isZero norm then .ok x
  else
    let y := Vector.scale norm y
    let c ← Vector.inner y x
    .ok (if Scalar.less c 0 then y.map fun a => -a else y)

/-- At most `fuel` steps from `x`, after `calls` steps; `limit` is named if the signs have not
settled by then. -/
def steps (operator : List α → Except Fault (List α)) (limit : Number) :
    Nat → Nat → SignTrail → List α → Run α
  | 0, calls, _, _ => ⟨calls, .error (.notConverged limit)⟩
  | fuel + 1, calls, trail, x =>
      let advanced := do
        let y ← next x (← operator x)
        let trail ← trail.observe x y
        .ok (y, trail)
      match advanced with
      | .error e => ⟨calls + 1, .error e⟩
      | .ok (y, trail) =>
          if trail.settled then ⟨calls + 1, .ok y⟩
          else steps operator limit fuel (calls + 1) trail y

/-- A run from a start vector of any length but zero. The limit has to be a whole number. -/
def run (operator : List α → Except Fault (List α)) (trail : SignTrail) (start : List α)
    (limit : Number) : Run α :=
  let norm := Vector.norm start
  if Scalar.isZero norm then ⟨0, .error .zeroStart⟩
  else match limit.toInt? with
    | some n => steps operator limit n.toNat 0 trail (Vector.scale norm start)
    | none => ⟨0, .error .notNumeric⟩

end GraphClustering.PowerIteration
