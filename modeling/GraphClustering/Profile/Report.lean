import GraphClustering.Decimal.Rounded
import GraphClustering.Json.Writer
import GraphClustering.Profile.Ranking

/-! # Reports of where the time went -/

namespace GraphClustering.Profile

abbrev Metadata := List (String × Json)

/-- A part of an operation, with its duration in milliseconds. -/
structure Phase where
  name : String
  duration : Float
  metadata : Metadata

structure Report where
  operation : String
  duration : Float
  phases : List Phase
  metadata : Metadata

namespace Phase

def detailText (m : Metadata) : String :=
  ", ".intercalate (m.map fun f => f.1 ++ "=" ++ f.2.plain)

def text (p : Phase) : String :=
  p.name ++ ": " ++ Decimal.fixed 2 p.duration ++ "ms" ++
    (if p.metadata.isEmpty then "" else " (" ++ detailText p.metadata ++ ")")

end Phase

namespace Report

def addPhase (r : Report) (p : Phase) : Report :=
  { r with phases := r.phases ++ [p] }

/-- Adds to the sum under a name; a new name goes to the end. -/
def addShare (name : String) (x : Float) : List (String × Float) → List (String × Float)
  | [] => [(name, 0 + x)]
  | s :: rest => if s.1 == name then (name, s.2 + x) :: rest else s :: addShare name x rest

/-- The percentage of the duration that the phases of each name took. -/
def shares (r : Report) : List (String × Float) :=
  if r.duration == 0 then []
  else r.phases.foldl (fun s p => addShare p.name (p.duration / r.duration * 100) s) []

def shareText (s : String × Float) : String :=
  "  [" ++ Decimal.padLeft 5 ' ' (Decimal.fixed 1 s.2) ++ "%] " ++ s.1

/-- The report as text, the largest shares first. -/
def text (r : Report) : String :=
  let head := ["PERFORMANCE REPORT: " ++ r.operation,
    "Total Duration: " ++ Decimal.fixed 2 r.duration ++ "ms (" ++
      Decimal.fixed 3 (r.duration / 1000) ++ "s)"]
  let details := r.metadata.map fun f => "  " ++ f.1 ++ ": " ++ f.2.plain
  let ranked := sortDescending (fun (a b : String × Float) => a.2 < b.2) r.shares
  "\n".intercalate (head ++ details ++ ranked.map shareText)

end Report

end GraphClustering.Profile
