import GraphClustering.Number

/-! # Settings of a clustering run -/

namespace GraphClustering

/-- The settings that are numbers, in the order in which they are read and checked. -/
inductive Setting where
  | minClusterSize
  | minClusterLikelihood
  | minAncestorOverlap
  | trailSize
  | convergenceThreshold
  | maxIterations
  | numWorkers
  | randomSeed
  | maxPostprocessingPasses
deriving DecidableEq, Repr

namespace Setting

def all : List Setting :=
  [minClusterSize, minClusterLikelihood, minAncestorOverlap, trailSize, convergenceThreshold,
    maxIterations, numWorkers, randomSeed, maxPostprocessingPasses]

def name : Setting → String
  | minClusterSize => "min_cluster_size"
  | minClusterLikelihood => "min_cluster_likelihood"
  | minAncestorOverlap => "min_ancestor_overlap"
  | trailSize => "trail_size"
  | convergenceThreshold => "convergence_threshold"
  | maxIterations => "max_iterations"
  | numWorkers => "num_workers"
  | randomSeed => "random_seed"
  | maxPostprocessingPasses => "max_postprocessing_passes"

/-- Whether a device may be used. -/
def deviceName : String := "allow_gpu"

/-- By what vertices are scored. -/
def metricName : String := "consistency_metric"

/-- The settings that are no numbers; any value of them is taken, and none is checked. -/
def others : List String := [deviceName, metricName]

def ofName? (s : String) : Option Setting :=
  all.find? fun f => f.name == s

theorem mem_all (f : Setting) : f ∈ all := by
  cases f <;> decide

theorem ofName?_name (f : Setting) : ofName? f.name = some f := by
  cases f <;> decide

/-- What a value has to satisfy. -/
inductive Rule where
  | atLeastOne
  | unit
  | positiveUnit
  | any
deriving DecidableEq, Repr

/-- Refuses numbers outside the range; a value that is not a number is never below one. -/
def Rule.refuses (r : Rule) (x : Number) : Bool :=
  match r with
  | .atLeastOne => x.less (.int 1)
  | .unit => !(Number.atMost (.int 0) x && x.atMost (.int 1))
  | .positiveUnit => !(Number.less (.int 0) x && x.atMost (.int 1))
  | .any => false

def rule : Setting → Rule
  | minClusterLikelihood | minAncestorOverlap => .unit
  | convergenceThreshold => .positiveUnit
  | randomSeed => .any
  | _ => .atLeastOne

end Setting

/-- A value offered for a setting. -/
inductive Offer where
  | number (n : Number)
  /-- Nothing, which only the number of workers may be. -/
  | nothing
  /-- A value that is no number. -/
  | other

/-- Why settings are refused. -/
inductive SettingsFault where
  | outOfRange (setting : Setting) (received : Number)
  | notNumeric (setting : Setting)
  | unknown (name : String)
  /-- A variable of the environment that cannot be read. -/
  | unreadable (name kind raw : String)
  /-- Settings put together from the environment that are out of range. -/
  | invalid (setting : Setting) (received : Number)

namespace SettingsFault

def rangeText : Setting.Rule → String
  | .unit => " must lie in [0, 1]"
  | .positiveUnit => " must lie in (0, 1]"
  | .atLeastOne | .any => " must be >= 1"

def outOfRangeText (f : Setting) (received : Number) : String :=
  f.name ++ rangeText f.rule ++ "; received " ++ received.text

def message : SettingsFault → Option String
  | .outOfRange f received => some (outOfRangeText f received)
  | .invalid f received => some ("Invalid clustering settings: " ++ outOfRangeText f received)
  | .unreadable name kind raw =>
      some (name ++ " must be " ++ kind ++ "; received '" ++ raw ++ "'.")
  | .notNumeric _ | .unknown _ => none

end SettingsFault

structure Settings where
  minClusterSize : Number
  minClusterLikelihood : Number
  minAncestorOverlap : Number
  trailSize : Number
  convergenceThreshold : Number
  maxIterations : Number
  numWorkers : Option Number
  randomSeed : Option Number
  maxPostprocessingPasses : Number
  allowDevice : Bool

namespace Settings

/-- Values for all settings. -/
abbrev Draft := Setting → Offer

/-- The value of each setting unless another one is given. -/
def defaults : Draft
  | .minClusterSize => .number (.int 50)
  | .minClusterLikelihood => .number (.real 0.1)
  | .minAncestorOverlap => .number (.real 0.4)
  | .trailSize => .number (.int 25)
  | .convergenceThreshold => .number (.real 0.95)
  | .maxIterations => .number (.int 10000)
  | .numWorkers => .nothing
  | .randomSeed => .number (.int 42)
  | .maxPostprocessingPasses => .number (.int 100)

def Draft.set (d : Draft) (f : Setting) (v : Offer) : Draft :=
  fun g => if g = f then v else d g

/-- Checks one value. -/
def checkOne (d : Draft) (f : Setting) : Except SettingsFault Unit :=
  match f, d f with
  | f, .number x => if f.rule.refuses x then .error (.outOfRange f x) else .ok ()
  | .numWorkers, .nothing => .ok ()
  | .randomSeed, _ => .ok ()
  | f, _ => .error (.notNumeric f)

def Draft.number? (d : Draft) (f : Setting) : Option Number :=
  match d f with
  | .number x => some x
  | _ => none

def Draft.number (d : Draft) (f : Setting) : Number :=
  (d.number? f).getD (.int 0)

/-- The settings of a draft whose values pass, checked in order. -/
def ofDraft (d : Draft) (allowDevice : Bool) : Except SettingsFault Settings := do
  Setting.all.forM (checkOne d)
  .ok {
    minClusterSize := d.number .minClusterSize
    minClusterLikelihood := d.number .minClusterLikelihood
    minAncestorOverlap := d.number .minAncestorOverlap
    trailSize := d.number .trailSize
    convergenceThreshold := d.number .convergenceThreshold
    maxIterations := d.number .maxIterations
    numWorkers := d.number? .numWorkers
    randomSeed := d.number? .randomSeed
    maxPostprocessingPasses := d.number .maxPostprocessingPasses
    allowDevice := allowDevice }

/-- A draft with named values in place of those of the draft. What is named but no number is not
in it. -/
def Draft.override (d : Draft) : List (String × Offer) → Except SettingsFault Draft
  | [] => .ok d
  | (name, v) :: rest =>
      match Setting.ofName? name with
      | some f => (d.set f v).override rest
      | none => if name ∈ Setting.others then d.override rest else .error (.unknown name)

/-- Settings by name, the others at their defaults. -/
def ofValues (values : List (String × Offer)) (allowDevice : Bool) :
    Except SettingsFault Settings := do
  ofDraft (← defaults.override values) allowDevice

end Settings

end GraphClustering
