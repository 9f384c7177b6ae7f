import GraphClustering.CommandLine.Run
import GraphClustering.Log.Journal
import Std.Time.Format

/-! # The program

Reads the variables and the one file that a run can ask for, and writes what the run leaves: its
files, its messages and its exit code. -/

namespace GraphClustering.CommandLine

open Log

def usage : String :=
  "usage: cluster_graph [options] edges\n\noptions:\n" ++
    String.join (Flag.all.map fun f =>
      "  " ++ f.name ++ (if f.takesValue then " VALUE" else "") ++ "\n")

def FileFault.text : FileFault → String
  | .missing => "no such file"
  | .isFolder => "the path is that of a folder"
  | .notFolder => "a part of the path is no folder"
  | .isFile => "a folder cannot be made where a file is"

def RunFault.text : RunFault → String
  | .settings e => e.message.getD "a setting is no number"
  | .file e => e.text
  | .unsupportedTable => "tables of this kind cannot be read"
  | .separator .empty => "the separator is empty"
  | .separator .lineBreak => "a line break is no separator"
  | .table .empty => "the table is empty"
  | .table .malformed => "a row of the table is too long, or a quote is not closed"
  | .weight e | .clustering e => e.message.getD "a value is out of range"

def Exit.status : Exit → UInt32
  | .code n => UInt32.ofNat n
  | .stopped s => UInt32.ofNat s.code
  | .failed _ => 1

def readEnvironment : IO Environment :=
  (Setting.all.map Settings.variableName).filterMapM fun name => do
    return (← IO.getEnv name).map fun value => (name, value)

/-- The file of edges; one that cannot be read is left out. -/
def readFolder (path : Path) : IO Folder := do
  try
    let text ← IO.FS.readFile path.text
    return [(path.resolve, text)]
  catch _ => return []

/-- Writes the files that the run made, apart from the log. -/
def saveFiles (before after : Folder) (log : Option Path) : IO Unit :=
  (after.filter fun f => before.text? f.1 != some f.2 && log.map Path.resolve != some f.1).forM
    fun f => do
      IO.FS.createDirAll f.1.parent.text
      IO.FS.writeFile f.1.text f.2

/-- The journal of the messages of a run. -/
def journalOf (o : Options) (messages : List (Level × String)) (time : String) : Journal :=
  let setup : LogSetup := {
    consoleLevel := if o.verbose then Level.debug else Level.info
    fileLevel := Level.debug
    quiet := false
    verbose := o.verbose
    toFile := o.logFile.isSome }
  (messages.map fun m => (⟨"cluster_graph", m.1, m.2, [], 0, time⟩ : LogRecord)).foldl
    Journal.write (Journal.empty.setUp setup time)

def saveLog (o : Options) (text : String) : IO Unit :=
  match o.logFile with
  | none => return
  | some path => do
      IO.FS.createDirAll path.parent.text
      let file ← IO.FS.Handle.mk path.text .append
      file.putStr text

/-- A run with options, with the exit code that it ends with. -/
def perform (o : Options) (args : List String) : IO UInt32 := do
  let before ← readFolder o.edges
  let outcome := run before (← readEnvironment) args
  let time := (← Std.Time.PlainDateTime.now).format "uuuu-MM-dd HH:mm:ss"
  let journal := journalOf o outcome.messages time
  saveFiles before outcome.folder o.logFile
  saveLog o journal.file
  IO.eprint journal.console
  match outcome.exit with
  | .failed e => IO.eprintln ("error: " ++ e.text)
  | _ => pure ()
  return outcome.exit.status

end GraphClustering.CommandLine

open GraphClustering.CommandLine in
def main (args : List String) : IO UInt32 :=
  match Options.ofArguments args with
  | .ok o => perform o args
  | .error .help => do
      IO.print usage
      return 0
  | .error .misuse => do
      IO.eprint usage
      return 2
