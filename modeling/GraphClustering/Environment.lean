/-! # Variables of the environment -/

namespace GraphClustering

abbrev Environment := List (String × String)

namespace Environment

def value? (env : Environment) (name : String) : Option String :=
  (env.find? fun v => v.1 == name).map Prod.snd

/-- A variable that is set to something. -/
def filled? (env : Environment) (name : String) : Option String :=
  (env.value? name).filter fun s => !s.isEmpty

/-- A variable that says yes. -/
def flag (env : Environment) (name : String) : Bool :=
  match env.value? name with
  | some s => s.toLower == "true" || s == "1"
  | none => false

end Environment

end GraphClustering
