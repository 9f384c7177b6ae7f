import GraphClustering.Log.Level
import GraphClustering.Log.Template

/-! # Log records and the lines that show them -/

namespace GraphClustering.Log

structure LogRecord where
  logger : String
  level : Level
  template : String
  values : List Json
  line : Nat
  time : String

namespace LogRecord

/-- A single document that is not empty is a record of named values. -/
def namedValues (r : LogRecord) : Template.Values :=
  match r.values with
  | [.obj (f :: fs)] => .fields (f :: fs)
  | vs => .items vs

/-- The template with its values; without values it is taken as it is. -/
def message (r : LogRecord) : Except TemplateFault String :=
  if r.values.isEmpty then .ok r.template else fill r.template r.namedValues

/-- What a layout can show of a record. -/
def fields (r : LogRecord) (message : String) : List (String × Json) :=
  [("name", .str r.logger), ("msg", .str r.template), ("levelname", .str r.level.name),
    ("levelno", .int r.level), ("lineno", .nat r.line), ("funcName", .null), ("exc_info", .null),
    ("exc_text", .null), ("stack_info", .null), ("taskName", .null),
    ("threadName", .str "MainThread"), ("processName", .str "MainProcess"),
    ("message", .str message), ("asctime", .str r.time)]

end LogRecord

/-- A template over the fields of a record. -/
structure LogLayout where
  template : String

namespace LogLayout

def isNameChar (c : Char) : Bool :=
  c.isAlphanum || c == '_' || (0x80 ≤ c.toNat && Text.isPrintable c)

/-- A star or digits may stand here. -/
def dropExtent : List Char → List Char
  | '*' :: rest => rest
  | s => s.dropWhile fun c => (Text.digit? c).isSome

def dropPrecision (s : List Char) : List Char :=
  match s with
  | '.' :: rest =>
      let after := dropExtent rest
      if after.length < rest.length then after else s
  | _ => s

def startsKind : List Char → Bool
  | c :: _ => "diouxefgcrsa%".toList.contains c.toLower
  | [] => false

/-- A directive with a name stands at the front. -/
def startsField : List Char → Bool
  | '%' :: '(' :: rest =>
      let (name, rest) := rest.span isNameChar
      match rest with
      | ')' :: rest =>
          let rest := rest.dropWhile fun c => "#0+ -".toList.contains c
          !name.isEmpty && startsKind (dropPrecision (dropExtent rest))
      | _ => false
  | _ => false

def hasField : List Char → Bool
  | [] => false
  | c :: rest => startsField (c :: rest) || hasField rest

/-- A layout has to show some field; an empty one shows the message. -/
def ofText? (s : String) : Option LogLayout :=
  if s.isEmpty then some ⟨"%(message)s"⟩
  else if hasField s.toList then some ⟨s⟩ else none

def render (l : LogLayout) (r : LogRecord) : Except TemplateFault String := do
  let m ← r.message
  match fill l.template (.fields (r.fields m)) with
  | .error (.missingField _) => .error .malformed
  | shown => shown

/-- A line in the colour of its level. -/
def painted (l : LogLayout) (r : LogRecord) : Except TemplateFault String :=
  (l.render r).map r.level.paint

def bare : LogLayout := ⟨"%(message)s"⟩

def console : LogLayout := ⟨"%(asctime)s [%(levelname)s] %(name)s: %(message)s"⟩

def file : LogLayout := ⟨"%(asctime)s [%(levelname)s] %(name)s:%(lineno)d: %(message)s"⟩

end LogLayout

end GraphClustering.Log
