import GraphClustering.Environment
import GraphClustering.Settings.Basic

/-! # Settings from the environment

Every setting has a variable. All variables are read first, whether or not a value is given that
takes precedence; what is left is at its default. -/

namespace GraphClustering.Settings

def variableName : Setting → String
  | .minClusterSize => "SPECTREE_MIN_CLUSTER_SIZE"
  | .minClusterLikelihood => "SPECTREE_MIN_CLUSTER_LIKELIHOOD"
  | .minAncestorOverlap => "SPECTREE_MIN_ANCESTOR_OVERLAP"
  | .trailSize => "SPECTREE_TRAIL_SIZE"
  | .convergenceThreshold => "SPECTREE_CONVERGENCE_THRESHOLD"
  | .maxIterations => "SPECTREE_MAX_ITERATIONS"
  | .numWorkers => "SPECTREE_NUM_WORKERS"
  | .randomSeed => "SPECTREE_RANDOM_SEED"
  | .maxPostprocessingPasses => "SPECTREE_MAX_POSTPROCESSING_PASSES"

/-- The settings that are written as real numbers; the others are whole numbers. -/
def isReal : Setting → Bool
  | .minClusterLikelihood | .minAncestorOverlap | .convergenceThreshold => true
  | _ => false

def scan (f : Setting) (raw : String) : Option Number :=
  if isReal f then (Decimal.scanFloat raw.toList).map .real
  else (Decimal.scanInt raw.toList).map .int

def kindText (f : Setting) : String :=
  if isReal f then "a number" else "an integer"

/-- The value of a setting in the environment; an empty variable counts as unset. -/
def fromVariable (env : Environment) (f : Setting) : Except SettingsFault Offer :=
  match env.filled? (variableName f) with
  | none => .ok (defaults f)
  | some raw => match scan f raw with
      | some x => .ok (.number x)
      | none => .error (.unreadable (variableName f) (kindText f) raw)

def environmentDraft (env : Environment) : List Setting → Except SettingsFault Draft
  | [] => .ok defaults
  | f :: rest => do
      let v ← fromVariable env f
      let d ← environmentDraft env rest
      .ok (d.set f v)

/-- A value out of range is reported as one of the settings put together. -/
def asInvalid : SettingsFault → SettingsFault
  | .outOfRange f x => .invalid f x
  | e => e

def isSomething : Offer → Bool
  | .nothing => false
  | _ => true

/-- The settings of an environment with the values given by name taking precedence; nothing is
no value. -/
def fromEnvironment (env : Environment) (values : List (String × Offer)) (allowDevice : Bool) :
    Except SettingsFault Settings := do
  let d ← environmentDraft env Setting.all
  let d ← d.override (values.filter fun v => isSomething v.2)
  (ofDraft d allowDevice).mapError asInvalid

end GraphClustering.Settings
