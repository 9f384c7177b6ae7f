import GraphClustering.CommandLine.Path
import GraphClustering.Settings.FromEnvironment

/-! # Options of the command line -/

namespace GraphClustering.CommandLine

/-- What is chosen on the command line. -/
structure Options where
  edges : Path
  output : Option Path
  separator : Option String
  source : String
  target : String
  weight : String
  settings : List (Setting × Number)
  device : Bool
  digestSize : Int
  noProfile : Bool
  logFile : Option Path
  verbose : Bool

namespace Options

def initial : Options where
  edges := .ofText ""
  output := none
  separator := none
  source := "source"
  target := "target"
  weight := "weight"
  settings := []
  device := false
  digestSize := 10
  noProfile := false
  logFile := none
  verbose := false

/-- The value of a setting; of several the last counts. -/
def setting? (o : Options) (f : Setting) : Option Number :=
  (o.settings.find? fun s => s.1 = f).map Prod.snd

end Options

inductive Flag where
  | help
  | output
  | separator
  | source
  | target
  | weight
  | setting (f : Setting)
  | device
  | digestSize
  | noProfile
  | logFile
  | verbose
deriving DecidableEq, Repr

namespace Flag

/-- The settings that the command line can change. -/
def settings : List Setting :=
  Setting.all.filter fun f => f ≠ .maxPostprocessingPasses

def dashed (s : String) : String :=
  "--" ++ String.ofList (s.toList.map fun c => if c == '_' then '-' else c)

def name : Flag → String
  | help => "--help"
  | output => "--output"
  | separator => "--sep"
  | source => "--source-col"
  | target => "--target-col"
  | weight => "--weight-col"
  | setting f => dashed f.name
  | device => "--gpu"
  | digestSize => "--digest-size"
  | noProfile => "--no-profile"
  | logFile => "--log-file"
  | verbose => "--verbose"

def all : List Flag :=
  [help, output, separator, source, target, weight] ++ settings.map setting ++
    [device, digestSize, noProfile, logFile, verbose]

def takesValue : Flag → Bool
  | help | device | noProfile | verbose => false
  | _ => true

/-- Options with the value of a flag, if it can be read. -/
def apply (o : Options) (value : String) : Flag → Option Options
  | output => some { o with output := some (.ofText value) }
  | separator => some { o with separator := some value }
  | source => some { o with source := value }
  | target => some { o with target := value }
  | weight => some { o with weight := value }
  | setting f => (Settings.scan f value).map fun n => { o with settings := (f, n) :: o.settings }
  | digestSize => (Decimal.scanInt value.toList).map fun z => { o with digestSize := z }
  | logFile => some { o with logFile := some (.ofText value) }
  | device => some { o with device := true }
  | noProfile => some { o with noProfile := true }
  | verbose => some { o with verbose := true }
  | help => some o

end Flag

end GraphClustering.CommandLine
