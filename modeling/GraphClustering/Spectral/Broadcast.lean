import GraphClustering.Fault
import GraphClustering.Scalar

/-! # Operations entry by entry -/

namespace GraphClustering.Vector

variable {α β γ : Type}

/-- Combines entries at equal places; a vector of length one stands for any length. -/
def broadcast (f : α → β → γ) (xs : List α) (ys : List β) : Except Fault (List γ) :=
  if xs.length = ys.length then .ok (List.zipWith f xs ys)
  else match xs, ys with
    | [x], ys => .ok (ys.map (f x))
    | xs, [y] => .ok (xs.map fun x => f x y)
    | _, _ => .error .lengthMismatch

theorem broadcast_of_length_eq (f : α → β → γ) {xs : List α} {ys : List β}
    (h : xs.length = ys.length) : broadcast f xs ys = .ok (List.zipWith f xs ys) := by
  simp [broadcast, h]

/-- The inner product of vectors of equal length. -/
def inner [Scalar α] (xs ys : List α) : Except Fault α :=
  if xs.length = ys.length then .ok (dot xs ys) else .error .lengthMismatch

end GraphClustering.Vector
