import GraphClustering.Fault

/-! # Cutting rows into chunks -/

namespace GraphClustering

/-- The number of steps of the given size that start before `order`. -/
def chunkCount (order size : Int) : Nat :=
  (-((-order).fdiv size)).toNat

/-- Contiguous ranges that cover `0` to `order`, each with its end clipped to `order`. -/
def rowChunks (order size : Int) : List (Int × Int) :=
  (List.range (chunkCount order size)).map fun (k : Nat) =>
    (k * size, min (k * size + size) order)

def rowChunks? (order size : Int) : Except Fault (List (Int × Int)) :=
  if size = 0 then .error .zeroStep else .ok (rowChunks order size)

end GraphClustering
