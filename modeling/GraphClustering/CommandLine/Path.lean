/-! # Paths -/

namespace GraphClustering.CommandLine

/-- A path in parts; parts that are empty or a single dot do not count. -/
structure Path where
  /-- One slash, two, or nothing for a path that is relative. -/
  root : String
  parts : List String
deriving DecidableEq, Repr

namespace Path

def rootOf : List Char → String
  | '/' :: '/' :: '/' :: _ => "/"
  | '/' :: '/' :: _ => "//"
  | '/' :: _ => "/"
  | _ => ""

def ofText (s : String) : Path :=
  ⟨rootOf s.toList, (s.splitOn "/").filter fun part => part != "" && part != "."⟩

def text (p : Path) : String :=
  let s := p.root ++ "/".intercalate p.parts
  if s.isEmpty then "." else s

/-- The last part. -/
def name (p : Path) : String :=
  p.parts.getLastD ""

/-- A name before its last point, and the rest, unless one of them has nothing but the point. -/
def splitName (name : String) : String × String :=
  let letters := name.toList.reverse
  let after := letters.takeWhile fun c => c != '.'
  let stem := (letters.drop (after.length + 1)).reverse
  if after.isEmpty || stem.isEmpty then (name, "")
  else (String.ofList stem, "." ++ String.ofList after.reverse)

/-- The end of the name from its last point. -/
def suffix (p : Path) : String :=
  (splitName p.name).2

/-- Another suffix, or one more if there is none. -/
def withSuffix (p : Path) (suffix : String) : Path :=
  { p with parts := p.parts.dropLast ++ [(splitName p.name).1 ++ suffix] }

def parent (p : Path) : Path :=
  { p with parts := p.parts.dropLast }

/-- The parts without steps upwards. -/
def resolve (p : Path) : Path :=
  { p with parts := (p.parts.foldl (fun done part =>
      if part == ".." then done.drop 1 else part :: done) []).reverse }

end Path

end GraphClustering.CommandLine
