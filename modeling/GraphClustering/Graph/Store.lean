import GraphClustering.Graph.Search
import GraphClustering.Scalar

/-! # Compressed storage of a symmetric weighted graph

Rows are numbered `0, 1, …` in the order of their labels. The entries of row `i` are those at the
positions from `pointers[i]` up to `pointers[i + 1]`: the neighbour rows, ascending, in `edges`
and their weights in `weights`. An edge is stored in the rows of both its ends, a loop once. -/

namespace GraphClustering

structure Store (α : Type) where
  pointers : Array Nat
  edges : Array Nat
  weights : Array α
  labels : Array Int

/-- A stored entry: the weight of the edge between two rows. -/
structure Entry (α : Type) where
  row : Nat
  col : Nat
  weight : α

/-- Ascending, without repetition. -/
def sortedDistinct (xs : List Int) : List Int :=
  (xs.mergeSort fun a b => a ≤ b).eraseReps

def sortedRows (xs : List Nat) : List Nat :=
  (xs.mergeSort fun a b => a ≤ b).eraseReps

namespace Entry

variable {α : Type}

/-- The order of entries in a store: by row, then by column. -/
def before (a b : Entry α) : Bool :=
  a.row < b.row || (a.row == b.row && a.col ≤ b.col)

def samePlace (a b : Entry α) : Bool :=
  a.row == b.row && a.col == b.col

def reversed (e : Entry α) : Entry α :=
  ⟨e.col, e.row, e.weight⟩

/-- Both directions of every edge, first all as given, then all others; a loop has one. -/
def symmetric (es : List (Entry α)) : List (Entry α) :=
  es ++ (es.filter fun e => e.row != e.col).map reversed

variable [Scalar α]

/-- Neighbouring entries of one place become one, with the sum of their weights. -/
def mergeRuns : List (Entry α) → List (Entry α)
  | [] => []
  | [a] => [a]
  | a :: b :: rest =>
      if a.samePlace b then mergeRuns (⟨a.row, a.col, a.weight + b.weight⟩ :: rest)
      else a :: mergeRuns (b :: rest)
termination_by es => es.length

/-- The entries of a store: in order, one for each place, none of weight zero. -/
def normalize (es : List (Entry α)) : List (Entry α) :=
  (mergeRuns (es.mergeSort before)).filter fun e => !Scalar.isZero e.weight

end Entry

namespace Store

variable {α : Type}

/-- Where each of `n` rows from `row` on starts, and where the last one ends; entries before
`offset` belong to earlier rows. -/
def rowStarts (row offset : Nat) (es : List (Entry α)) : Nat → List Nat
  | 0 => [offset]
  | n + 1 =>
      let own := es.takeWhile fun e => e.row == row
      offset :: rowStarts (row + 1) (offset + own.length) (es.drop own.length) n

/-- The store with the given labels and entries, which have to be in order. -/
def ofEntries (labels : Array Int) (es : List (Entry α)) : Store α where
  pointers := (rowStarts 0 0 es labels.size).toArray
  edges := (es.map Entry.col).toArray
  weights := (es.map Entry.weight).toArray
  labels := labels

/-- The number of rows. -/
def order (s : Store α) : Nat :=
  s.pointers.size - 1

def entryCount (s : Store α) : Nat :=
  s.edges.size

/-- The positions of the entries of a row. -/
def span (s : Store α) (row : Nat) : Nat × Nat :=
  (s.pointers.getD row 0, s.pointers.getD (row + 1) 0)

/-- The number of entries of a row. -/
def degree (s : Store α) (row : Nat) : Nat :=
  (s.span row).2 - (s.span row).1

/-- The entry at a position: its column and its weight. -/
def entryAt? (s : Store α) (k : Nat) : Option (Nat × α) :=
  match s.edges[k]?, s.weights[k]? with
  | some c, some w => some (c, w)
  | _, _ => none

/-- The entries of a row, in ascending order of their columns. -/
def rowEntries (s : Store α) (row : Nat) : List (Nat × α) :=
  (List.range' (s.span row).1 (s.degree row)).filterMap s.entryAt?

/-- A store given by its arrays, with one label for each row. -/
def ofArrays (pointers edges : Array Nat) (weights : Array α) (labels : Array Int) :
    Except Fault (Store α) :=
  if (labels.size : Int) = pointers.size - 1 then .ok ⟨pointers, edges, weights, labels⟩
  else .error (.labelCount (pointers.size - 1) labels.size)

/-- Rows and entries that lie within the arrays. -/
def audit (s : Store α) (rows : Array Nat) : Except Fault Unit :=
  if rows.any fun r => decide (s.pointers.size ≤ r + 1) then .error .indexOutside
  else if rows.all fun r => s.span r == (0, 0) || (s.span r).1 == (s.span r).2 then .ok ()
  else if rows.any fun r => decide ((s.span r).2 < (s.span r).1) then .error .lengthMismatch
  else if rows.any fun r => decide (min s.edges.size s.weights.size < (s.span r).2) then
    .error .indexOutside
  else .ok ()

/-- Bytes of a store in which every number takes eight. -/
def footprint (order entries : Nat) : Nat :=
  8 * (order + 1 + 2 * entries + order)

/-- A number of bytes in the largest unit that it reaches, with two places. -/
def footprintText (bytes : Nat) : String :=
  let inUnit (shift : Nat) (unit : String) :=
    Decimal.Ratio.fixed 2 ⟨bytes, Nat.pow 2 shift⟩ ++ " " ++ unit
  if Nat.pow 2 30 ≤ bytes then inUnit 30 "GB"
  else if Nat.pow 2 20 ≤ bytes then inUnit 20 "MB"
  else if Nat.pow 2 10 ≤ bytes then inUnit 10 "KB"
  else Decimal.digitText bytes ++ " bytes"

/-- Bytes that the arrays hold. -/
def memory (s : Store α) : Nat :=
  8 * (s.pointers.size + s.edges.size + s.weights.size + s.labels.size)

end Store

end GraphClustering
