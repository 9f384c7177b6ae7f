/-! # Sorting by insertion

Each item is inserted behind the items that are not greater, at a place found by halving. A run
that is sorted at the beginning is taken as it is. With an order that leaves some pairs open, as
that of real numbers beside what is no number, the halving decides. -/

namespace GraphClustering.Profile

variable {α : Type}

/-- The place between `lo` and `hi` where `below` first holds, by halving. -/
def slot (below : Nat → Bool) : Nat → Nat → Nat → Nat
  | 0, lo, _ => lo
  | fuel + 1, lo, hi =>
      if lo < hi then
        let middle := lo + (hi - lo) / 2
        if below middle then slot below fuel lo middle else slot below fuel (middle + 1) hi
      else lo

def insertSorted (less : α → α → Bool) (sorted : List α) (x : α) : List α :=
  let below (i : Nat) : Bool := (sorted[i]?).any fun y => less x y
  let i := slot below sorted.length 0 sorted.length
  sorted.take i ++ x :: sorted.drop i

/-- The items at the front of which each is related to the one before. -/
def chain (related : α → α → Bool) (x : α) : List α → List α × List α
  | [] => ([x], [])
  | y :: rest =>
      if related x y then
        let r := chain related y rest
        (x :: r.1, r.2)
      else ([x], y :: rest)

/-- The sorted run at the beginning; one that falls is turned around. -/
def firstRun (less : α → α → Bool) : List α → List α × List α
  | [] => ([], [])
  | [x] => ([x], [])
  | x :: y :: rest =>
      if less y x then
        let r := chain (fun a b => less b a) x (y :: rest)
        (r.1.reverse, r.2)
      else chain (fun a b => !less b a) x (y :: rest)

def sortAscending (less : α → α → Bool) (xs : List α) : List α :=
  let r := firstRun less xs
  r.2.foldl (insertSorted less) r.1

/-- Greatest first; equal items keep their order. -/
def sortDescending (less : α → α → Bool) (xs : List α) : List α :=
  (sortAscending less xs.reverse).reverse

end GraphClustering.Profile
