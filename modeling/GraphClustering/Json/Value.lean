import GraphClustering.Number

/-! # Documents: nested values with whole and real numbers kept apart -/

namespace GraphClustering

inductive Json where
  | null
  | bool (b : Bool)
  | int (z : Int)
  | real (x : Float)
  | str (s : String)
  | arr (items : List Json)
  | obj (fields : List (String × Json))

namespace Json

instance : Inhabited Json := ⟨.null⟩

/-- A later field of the same name takes the place of the earlier one. -/
def putField (name : String) (value : Json) : List (String × Json) → List (String × Json)
  | [] => [(name, value)]
  | f :: rest => if f.1 == name then (name, value) :: rest else f :: putField name value rest

def field? (name : String) : Json → Option Json
  | .obj fields => (fields.find? fun f => f.1 == name).map Prod.snd
  | _ => none

def isNull : Json → Bool
  | .null => true
  | _ => false

def nat (n : Nat) : Json :=
  .int n

def number? : Json → Option Number
  | .bool b => some (.flag b)
  | .int z => some (.int z)
  | .real x => some (.real x)
  | _ => none

end Json

end GraphClustering
