import GraphClustering.Log.Record

/-! # Where log records go

Everything is written to the log file. The console shows warnings, and the progress of a run. -/

namespace GraphClustering.Log

/-- What of the less severe records the console shows. -/
structure ConsoleRule where
  allowed : List String
  verbose : Bool

namespace ConsoleRule

/-- The loggers that tell about the progress of a run. -/
def progressLoggers : List String :=
  ["spectree.clustering.recursive", "spectree.clustering.export", "spectree.graph.builder",
    "spectree.performance_profiler", "cluster_graph"]

/-- A logger is inside another one if its name goes on after a dot. -/
def isWithin (logger name : String) : Bool :=
  logger == name || (name ++ ".").toList.isPrefixOf logger.toList

def passes (rule : ConsoleRule) (logger : String) (level : Level) : Bool :=
  if Level.warning ≤ level then true
  else if level < Level.info then rule.verbose
  else rule.allowed.any (isWithin logger)

end ConsoleRule

inductive Target where
  | console
  | file
deriving DecidableEq, Repr

/-- A target with the records that it takes. -/
structure Sink where
  target : Target
  level : Level
  rule : Option ConsoleRule

namespace Sink

def takes (s : Sink) (r : LogRecord) : Bool :=
  s.level ≤ r.level && s.rule.all fun rule => rule.passes r.logger r.level

def line (s : Sink) (r : LogRecord) : Except TemplateFault String :=
  match s.target with
  | .console => LogLayout.console.painted r
  | .file => LogLayout.file.render r

end Sink

structure LogSetup where
  consoleLevel : Level
  fileLevel : Level
  quiet : Bool
  verbose : Bool
  toFile : Bool

def LogSetup.sinks (s : LogSetup) : List Sink :=
  (if s.quiet then [] else
    [⟨.console, s.consoleLevel, some ⟨ConsoleRule.progressLoggers, s.verbose⟩⟩]) ++
  (if s.toFile then [⟨.file, s.fileLevel, none⟩] else [])

/-- The sinks, and what has been written. -/
structure Journal where
  sinks : List Sink
  console : String
  file : String

namespace Journal

def empty : Journal := ⟨[], "", ""⟩

/-- A line for a target; a record that cannot be shown leaves none. -/
def append (j : Journal) (target : Target) (line : Except TemplateFault String) : Journal :=
  match line, target with
  | .ok s, .console => { j with console := j.console ++ s ++ "\n" }
  | .ok s, .file => { j with file := j.file ++ s ++ "\n" }
  | .error _, _ => j

/-- Records below the debugging level are dropped. Without any sink the console shows the bare
messages of warnings. -/
def write (j : Journal) (r : LogRecord) : Journal :=
  if r.level < Level.debug then j
  else if j.sinks.isEmpty then
    if Level.warning ≤ r.level then j.append .console (LogLayout.bare.render r) else j
  else (j.sinks.filter fun s => s.takes r).foldl (fun j s => j.append s.target (s.line r)) j

/-- The record that tells of a new set of sinks. -/
def notice (time : String) : LogRecord :=
  ⟨"spectree.logging_utils", Level.debug, "Colored and filtered logging initialized.", [], 0, time⟩

/-- Puts new sinks in place of all others. -/
def setUp (j : Journal) (s : LogSetup) (time : String) : Journal :=
  write { j with sinks := s.sinks } (notice time)

end Journal

end GraphClustering.Log
