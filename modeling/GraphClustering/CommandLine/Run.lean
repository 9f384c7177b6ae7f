import GraphClustering.Cluster.Digest
import GraphClustering.Cluster.Document
import GraphClustering.Cluster.Recursive
import GraphClustering.CommandLine.Arguments
import GraphClustering.CommandLine.Folder
import GraphClustering.Log.Level
import GraphClustering.Table.Read

/-! # A run of the command line

Settings come first, then the table of edges, the graph, its clusters and the file with the tree;
messages tell how far the run has come. -/

namespace GraphClustering.CommandLine

open Log (Level)

/-- What breaks off a run without an exit code. -/
inductive RunFault where
  | settings (e : SettingsFault)
  | file (e : FileFault)
  /-- A kind of table that cannot be read. -/
  | unsupportedTable
  | separator (e : Table.SeparatorFault)
  | table (e : Table.TableFault)
  | weight (e : Fault)
  | clustering (e : Fault)

/-- How a run ends. -/
inductive Exit where
  | code (n : Nat)
  /-- The arguments were not taken. -/
  | stopped (s : Stop)
  | failed (e : RunFault)

/-- What a run leaves behind. -/
structure Outcome where
  exit : Exit
  /-- The number of profiled operations. -/
  profiled : Nat
  messages : List (Level × String)
  folder : Folder

/-- The state of a run: messages, files and profiled operations. -/
structure Session where
  messages : List (Level × String)
  folder : Folder
  profiled : Nat

def Session.say (s : Session) (level : Level) (message : String) : Session :=
  { s with messages := s.messages ++ [(level, message)] }

def Session.finish (s : Session) (exit : Exit) : Outcome :=
  ⟨exit, s.profiled, s.messages, s.folder⟩

/-- The table in a file, with a separator for the suffix of its name unless one is given. -/
def loadEdges (folder : Folder) (path : Path) (separator : Option String) :
    Except RunFault Frame := do
  let suffix := path.suffix.toLower
  if suffix == ".parquet" then .error .unsupportedTable
  let breaks := separator == some "\n"
  if breaks then .error (.separator .lineBreak)
  let text ← (folder.read path).mapError .file
  let sep ← match separator with
    | none => .ok (Table.Separator.ofSuffix suffix)
    | some s => (Table.Separator.ofText s).mapError .separator
  (Table.read sep text).mapError .table

namespace Options

/-- The settings of the environment with those of the options taking precedence. -/
def toSettings (o : Options) (env : Environment) : Except SettingsFault Settings :=
  Settings.fromEnvironment env (o.settings.reverse.map fun s => (s.1.name, .number s.2)) o.device

def outputPath (o : Options) : Path :=
  o.output.getD (o.edges.withSuffix ".clusters.json")

end Options

def count (n : Nat) : String :=
  Decimal.digitText n

/-- The message about a cluster below the root. -/
def digestMessage (i : Nat) (d : Digest Float) : String :=
  "Cluster " ++ count i ++ ": " ++ count d.size ++ " vertices, top " ++
    ", ".intercalate (d.vertices.map fun v => Number.intText v.vertex)

/-- The messages about the clusters below the root, up to the first that has no digest. -/
def digestMessages (graph : View Float) (f : Forest) (limit : Int) :
    Nat → List ClusterId → Session → Session × Option Fault
  | _, [], s => (s, none)
  | i, c :: rest, s =>
      match Digest.ofCluster graph f c limit with
      | .ok d => digestMessages graph f limit (i + 1) rest (s.say Level.info (digestMessage i d))
      | .error e => (s, some e)

/-- Saves the tree and tells about its clusters. -/
def conclude (o : Options) (graph : View Float) (f : Forest) (s : Session) : Outcome :=
  match s.folder.write o.outputPath (TreeDocument.ofForest f 0).fileText with
  | .error e => s.finish (.failed (.file e))
  | .ok folder =>
      let s := { s with folder := folder }
      let kept := (f.remainder 0).length
      let s := s.say Level.info ("Root keeps " ++ count kept ++ " vertices in its remainder")
      match digestMessages graph f o.digestSize 0 (f.children 0) s with
      | (s, none) => s.finish (.code 0)
      | (s, some e) => s.finish (.failed (.clustering e))

/-- A failure with a message and an exit code of its own. -/
def giveUp (s : Session) (message : Option String) : Outcome :=
  (s.say Level.error ("Clustering failed: " ++ message.getD "")).finish (.code 1)

/-- Clusters a graph; the attempt is profiled even if it fails. -/
def clusterGraph (o : Options) (settings : Settings) (graph : View Float) (s : Session) : Outcome :=
  let s := { s with profiled := if o.noProfile then 0 else 1 }
  match (settings.clustering Metric.relativeWeight graph).run graph with
  | .ok p => conclude o graph p.forest s
  | .error (.undersized order minimum) => giveUp s (Fault.undersized order minimum).message
  | .error e => s.finish (.failed (.clustering e))

/-- Builds the graph of a table and clusters it. -/
def clusterTable (o : Options) (settings : Settings) (edges : Frame) (s : Session) : Outcome :=
  let s := s.say Level.info
    ("Loaded " ++ count edges.height ++ " edges from " ++ o.edges.text)
  let workers := settings.numWorkers.bind Number.toInt?
  match edges.graph Cell.toFloat o.source o.target (some o.weight) none workers with
  | .ok graph => clusterGraph o settings graph s
  | .error (.weight e) => s.finish (.failed (.weight e))
  | .error e => giveUp s e.message

def runOptions (env : Environment) (o : Options) (s : Session) : Outcome :=
  match o.toSettings env with
  | .error e => match e.message with
      | some m => (s.say Level.error m).finish (.code 2)
      | none => s.finish (.failed (.settings e))
  | .ok settings =>
      match loadEdges s.folder o.edges o.separator with
      | .error e => s.finish (.failed e)
      | .ok edges => clusterTable o settings edges s

/-- Opens the log file, if there is one. -/
def openLog (o : Options) (folder : Folder) : Except FileFault Folder :=
  match o.logFile with
  | none => .ok folder
  | some path => folder.open? path

/-- The run for given arguments. -/
def run (folder : Folder) (env : Environment) (args : List String) : Outcome :=
  match Options.ofArguments args with
  | .error stop => ⟨.stopped stop, 0, [], folder⟩
  | .ok o => match openLog o folder with
      | .error e => ⟨.failed (.file e), 0, [], folder⟩
      | .ok folder => runOptions env o ⟨[], folder, 0⟩

end GraphClustering.CommandLine
