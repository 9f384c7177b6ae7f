import GraphClustering.Graph.Position

/-! # Searching sorted arrays

`interpolationSearch` guesses positions from the distribution of the values and bisects every
other time, so that no distribution can slow it down; `position?` bisects only. -/

namespace GraphClustering.Search

/-- Where the key would stand if the values were spread evenly. -/
def guess (key low high : Int) (lo hi : Nat) : Nat :=
  lo + ((key - low) * (hi - lo) / (high - low)).toNat

/-- The search in the positions from `lo` up to `stop`, guessing or bisecting in turn; the outer
`none` means that the fuel did not last. -/
def searchWithin (arr : Array Int) (key : Int) :
    Nat → Bool → Nat → Nat → Option (Option Nat)
  | 0, _, lo, stop => if lo < stop then none else some none
  | fuel + 1, guessing, lo, stop =>
      if lo < stop then
        let hi := stop - 1
        let low := arr.getD lo 0
        let high := arr.getD hi 0
        if key < low ∨ high < key then some none
        else if low = high then some (if low = key then some lo else none)
        else
          let pos := if guessing then guess key low high lo hi else (lo + hi) / 2
          let value := arr.getD pos 0
          if value = key then some (some pos)
          else if value < key then searchWithin arr key fuel (!guessing) (pos + 1) stop
          else searchWithin arr key fuel (!guessing) lo pos
      else some none

/-- The search in the positions from `lo` up to `hi` itself, which have to be in the array. -/
def interpolationSearch (arr : Array Int) (key lo hi : Int) : Except Fault (Option Nat) :=
  if lo < 0 ∨ (arr.size : Int) ≤ hi then .error (.windowOutside lo hi arr.size)
  else
    let stop := (hi + 1).toNat
    .ok ((searchWithin arr key (stop - lo.toNat) true lo.toNat stop).getD none)

variable {α : Type} [LT α] [DecidableLT α] [DecidableEq α] [Inhabited α]

/-- The first position from `lo` up to `hi` whose value is not below the key. -/
def lowerBound (arr : Array α) (key : α) : Nat → Nat → Nat → Nat
  | 0, lo, _ => lo
  | fuel + 1, lo, hi =>
      if lo < hi then
        let middle := lo + (hi - lo) / 2
        if arr.getD middle default < key then lowerBound arr key fuel (middle + 1) hi
        else lowerBound arr key fuel lo middle
      else lo

/-- The position of a key among the positions from `lo` up to `hi` of a sorted array. -/
def positionWithin? (arr : Array α) (key : α) (lo hi : Nat) : Option Nat :=
  let p := lowerBound arr key (hi - lo) lo hi
  if p < hi ∧ arr.getD p default = key then some p else none

def position? (arr : Array α) (key : α) : Option Nat :=
  positionWithin? arr key 0 arr.size

/-- The positions of keys in a slice of a sorted array. The ends of the slice may be counted from
the end of the array, while positions are always `lo` plus the place in the slice. -/
def locate (arr : Array Int) (keys : List Int) (lo : Int) (hi : Option Int) : List (Option Int) :=
  let first := Position.clamp arr.size lo
  let stop := Position.clamp arr.size (hi.getD arr.size)
  keys.map fun key => (positionWithin? arr key first stop).map fun p => lo + (p - first : Int)

end GraphClustering.Search
