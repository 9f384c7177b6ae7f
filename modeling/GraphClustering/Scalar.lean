/-! # The numbers that weights and vectors are made of -/

namespace GraphClustering

/-- Arithmetic with the tests that clustering makes. No law is assumed: binary64 numbers are an
instance, and so is every ordered field. -/
class Scalar (α : Type) extends Zero α, One α, Add α, Sub α, Mul α, Div α, Neg α where
  less : α → α → Bool
  isZero : α → Bool
  /-- Not a number, and so neither below nor above any other. -/
  isNan : α → Bool
  isFinite : α → Bool
  sqrt : α → α

instance : Scalar Float where
  zero := 0.0
  one := 1.0
  less a b := a < b
  isZero a := a == 0.0
  isNan := Float.isNaN
  isFinite := Float.isFinite
  sqrt := Float.sqrt

namespace Vector

variable {α : Type} [Scalar α]

/-- The sum from left to right. -/
def sum (xs : List α) : α :=
  xs.foldl (fun s x => s + x) 0

/-- Adds rows of eight to eight running sums; fewer than eight entries stay over. -/
def lanes (acc : List α) (xs : List α) : List α × List α :=
  if _h : 8 ≤ xs.length then
    lanes (List.zipWith (fun s x => s + x) acc (xs.take 8)) (xs.drop 8)
  else (acc, xs)
termination_by xs.length
decreasing_by simp only [List.length_drop]; omega

def joinLanes : List α → α
  | [a, b, c, d, e, f, g, h] => ((a + b) + (c + d)) + ((e + f) + (g + h))
  | xs => sum xs

/-- The sum of at most 128 entries, by eight running sums. -/
def blockSum (xs : List α) : α :=
  if xs.length < 8 then sum xs else
    let r := lanes (xs.take 8) (xs.drop 8)
    r.2.foldl (fun s x => s + x) (joinLanes r.1)

/-- The sum by halves, which keeps the rounding error small. -/
def pairwiseSum (xs : List α) : α :=
  if _h : xs.length ≤ 128 then blockSum xs else
    let half := xs.length / 2 - xs.length / 2 % 8
    pairwiseSum (xs.take half) + pairwiseSum (xs.drop half)
termination_by xs.length
decreasing_by
  · simp only [List.length_take]; omega
  · simp only [List.length_drop]; omega

def dot (xs ys : List α) : α :=
  sum (List.zipWith (fun x y => x * y) xs ys)

def norm (xs : List α) : α :=
  Scalar.sqrt (dot xs xs)

def scale (c : α) (xs : List α) : List α :=
  xs.map fun x => x / c

end Vector

end GraphClustering
