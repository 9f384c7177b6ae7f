import GraphClustering.Number

/-! # What can go wrong while a graph is read or clustered -/

namespace GraphClustering

/-- The cause of a failure; `message` gives it words where there is something to add. -/
inductive Fault where
  /-- A search window that leaves its array. -/
  | windowOutside (lo hi : Int) (length : Nat)
  /-- A position that an array does not have. -/
  | indexOutside
  /-- A step of length zero. -/
  | zeroStep
  /-- Arrays that should have equal lengths. -/
  | lengthMismatch
  /-- Fewer than no workers. -/
  | negativeWorkers
  /-- A value of a kind that is no number. -/
  | notNumeric
  /-- A text, or a number that is not finite, where a number is needed. -/
  | unreadable
  /-- A number beyond the range of its type. -/
  | tooLarge
  /-- Vertex ids whose common element type is not an integer type. -/
  | idType (name : String)
  /-- Vertex ids that the graph does not have. -/
  | unknownVertices (ids : List Int)
  /-- Vertices that are not part of the graph they are compared with. -/
  | notContained
  /-- A store with the wrong number of labels. -/
  | labelCount (expected : Int) (received : Nat)
  /-- A power iteration that did not settle in time. -/
  | notConverged (limit : Number)
  /-- A power iteration from the zero vector. -/
  | zeroStart
  /-- A seed below zero. -/
  | negativeSeed
  /-- A cluster that is not a child of the one that should absorb it. -/
  | notChild
  /-- A guarded view below the minimum size. -/
  | undersized (order : Nat) (minimum : Number)
  /-- A way to visit the tree that is not provided. -/
  | unsupportedSweep (mode : String)

namespace Fault

def listText (ids : List Int) : String :=
  "[" ++ ", ".intercalate (ids.map Number.intText) ++ "]"

def message : Fault → Option String
  | .windowOutside lo hi n =>
      some ("search window [" ++ Number.intText lo ++ ", " ++ Number.intText hi ++
        "] outside array of length " ++ Decimal.digitText n)
  | .idType name => some ("vertex ids must be integers; got dtype " ++ name)
  | .unknownVertices ids =>
      some (Decimal.digitText ids.length ++ " vertex ids are not part of the graph, e.g. " ++
        listText (ids.take 5))
  | .notContained =>
      some "relative weights require the vertices to be a subset of the supergraph"
  | .labelCount expected received =>
      some ("expected " ++ Number.intText expected ++ " vertex labels; received " ++
        Decimal.digitText received)
  | .notConverged limit =>
      some ("power iteration did not converge within " ++ limit.text ++ " iterations")
  | .zeroStart => some "power iteration needs a non-zero start vector"
  | .notChild => some "can only assimilate a direct child"
  | .undersized order minimum =>
      some ("consistency guard returned " ++ Decimal.digitText order ++
        " vertices, below the minimum cluster size " ++ minimum.text)
  | .unsupportedSweep mode => some ("unsupported traversal mode " ++ mode)
  | .indexOutside | .zeroStep | .lengthMismatch | .negativeWorkers | .notNumeric
  | .unreadable | .tooLarge | .negativeSeed => none

end Fault

end GraphClustering
