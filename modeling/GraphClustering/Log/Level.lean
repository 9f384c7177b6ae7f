import GraphClustering.Number

/-! # Severities -/

namespace GraphClustering.Log

/-- Greater levels are more severe; some have names and colours. -/
abbrev Level := Int

namespace Level

def debug : Level := 10
def info : Level := 20
def warning : Level := 30
def error : Level := 40
def critical : Level := 50

def name (l : Level) : String :=
  if l = critical then "CRITICAL"
  else if l = error then "ERROR"
  else if l = warning then "WARNING"
  else if l = info then "INFO"
  else if l = debug then "DEBUG"
  else if l = 0 then "NOTSET"
  else "Level " ++ Number.intText l

/-- The escape sequence of a colour or a weight on a terminal. -/
def sequence (code : String) : String :=
  "\x1b[" ++ code ++ "m"

/-- The colour of a level with a name. -/
def colour? (l : Level) : Option String :=
  if l = debug then some (sequence "36")
  else if l = info then some (sequence "32")
  else if l = warning then some (sequence "33")
  else if l = error then some (sequence "31")
  else if l = critical then some (sequence "1" ++ sequence "31")
  else none

/-- A line in the colour of its level. -/
def paint (l : Level) (line : String) : String :=
  match l.colour? with
  | some c => c ++ line ++ sequence "0"
  | none => line

end Level

end GraphClustering.Log
