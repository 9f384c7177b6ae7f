import GraphClustering.Spectral.Broadcast

/-! # When signs have settled

Every entry has a streak: the number of the latest steps in which it stayed positive or stayed
not positive. Signs have settled once enough streaks are long enough. -/

namespace GraphClustering

structure SignTrail where
  /-- The length that a streak has to reach. -/
  trailSize : Number
  /-- The number of streaks that have to reach it. -/
  required : Number
  streaks : List Nat

namespace SignTrail

/-- A number times a whole number. -/
def times (a : Number) (n : Nat) : Number :=
  match a with
  | .flag b => .int (b.toNat * n)
  | .int z => .int (z * n)
  | .real x => .real (x * Decimal.nearest false ⟨n, 1⟩)

def fresh (order : Nat) (trailSize threshold : Number) : SignTrail :=
  ⟨trailSize, times threshold order, List.replicate order 0⟩

/-- The number of streaks that are long enough. -/
def longStreaks (t : SignTrail) : Nat :=
  t.streaks.countP fun (s : Nat) => t.trailSize.atMost (.int s)

def settled (t : SignTrail) : Bool :=
  t.required.atMost (.int t.longStreaks)

variable {α : Type} [Scalar α]

def positive (x : α) : Bool :=
  Scalar.less 0 x

/-- A streak goes on where the sign stayed the same and starts again elsewhere. -/
def observe (t : SignTrail) (previous current : List α) : Except Fault SignTrail := do
  let constant ← Vector.broadcast (fun a b => positive a == positive b) previous current
  let streaks ← Vector.broadcast (fun c (s : Nat) => if c then s + 1 else 0) constant t.streaks
  .ok ⟨t.trailSize, t.required, streaks⟩

end SignTrail

end GraphClustering
