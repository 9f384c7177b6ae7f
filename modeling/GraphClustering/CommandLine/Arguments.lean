import GraphClustering.CommandLine.Options
import GraphClustering.Text.Digit

/-! # Reading the arguments

Long options may be shortened as long as they stay unambiguous. After a double dash everything is
a value. Exactly one value has to be left over, the path of the edges. -/

namespace GraphClustering.CommandLine

/-- An argument: a value, an option with or without a value attached, an option that is not known,
or the double dash. -/
inductive Argument where
  | value (s : String)
  | option (flag : Flag) (attached : Option String)
  | unknown
  | dashes
deriving DecidableEq, Repr

/-- Why there are no options. -/
inductive Stop where
  | help
  | misuse
deriving DecidableEq, Repr

def Stop.code : Stop → Nat
  | help => 0
  | misuse => 2

namespace Argument

/-- A text before its first equals sign, and what follows it. -/
def splitAttached (s : List Char) : List Char × Option String :=
  let (name, rest) := s.span fun c => c != '='
  match rest with
  | _ :: after => (name, some (String.ofList after))
  | [] => (name, none)

/-- Digits, perhaps with a point before the last of them. -/
def isNegativeNumber : List Char → Bool
  | '-' :: s =>
      let isDigit (c : Char) : Bool := (Text.digit? c).isSome
      let (before, rest) := s.span isDigit
      match rest with
      | [] => !before.isEmpty
      | '.' :: after => !after.isEmpty && after.all isDigit
      | _ => false
  | _ => false

/-- The flags whose names start in a certain way. -/
def matching (start : List Char) : List Flag :=
  Flag.all.filter fun f => start.isPrefixOf f.name.toList

/-- What starts with a dash and is no option. -/
def ofStray (s : List Char) : Argument :=
  if isNegativeNumber s || s.contains ' ' then .value (String.ofList s) else .unknown

/-- A long option by its name or an unambiguous beginning of it. -/
def ofLong (s : List Char) : Except Stop Argument :=
  let (name, attached) := splitAttached s
  match Flag.all.find? fun f => f.name.toList = name with
  | some f => .ok (.option f attached)
  | none => match matching name with
      | [] => .ok (ofStray s)
      | [f] => .ok (.option f attached)
      | _ => .error .misuse

/-- The only short option asks for help, any number of times in a row; nothing may be attached to
it. Other letters after it do not count. -/
def ofShort (s : List Char) : Argument :=
  match s with
  | 'h' :: rest => match rest.dropWhile fun c => c == 'h' with
      | '=' :: after | '-' :: after => .option .help (some (String.ofList after))
      | _ => .option .help none
  | _ => ofStray ('-' :: s)

def ofText (s : String) : Except Stop Argument :=
  match s.toList with
  | '-' :: '-' :: rest => ofLong ('-' :: '-' :: rest)
  | ['-'] => .ok (.value s)
  | '-' :: rest => .ok (ofShort rest)
  | _ => .ok (.value s)

/-- Everything is a value after the first double dash. -/
def ofTexts : List String → Except Stop (List Argument)
  | [] => .ok []
  | s :: rest =>
      if s == "--" then .ok (.dashes :: rest.map .value)
      else do
        let a ← ofText s
        .ok (a :: (← ofTexts rest))

end Argument

namespace Options

/-- What has been read: the options, whether the edges are among them, and whether something was
left over. -/
structure Draft where
  options : Options
  hasEdges : Bool
  leftOver : Bool

def Draft.value (d : Draft) (s : String) : Draft :=
  if d.hasEdges then { d with leftOver := true }
  else { d with options := { d.options with edges := .ofText s }, hasEdges := true }

def Draft.flag (d : Draft) (f : Flag) (value : String) : Except Stop Draft :=
  match f.apply d.options value with
  | some o => .ok { d with options := o }
  | none => .error .misuse

/-- Reads arguments from left to right. The double dash may stand beside the path of the edges and
nowhere else. -/
def gather (d : Draft) : List Argument → Except Stop Draft
  | [] => .ok d
  | .value s :: .dashes :: rest =>
      gather (if d.hasEdges then { d with leftOver := true } else d.value s) rest
  | .value s :: rest => gather (d.value s) rest
  | .dashes :: .value s :: rest => gather (d.value s) rest
  | .dashes :: rest => gather { d with leftOver := true } rest
  | .unknown :: rest => gather { d with leftOver := true } rest
  | .option .help none :: _ => .error .help
  | .option f (some value) :: rest =>
      if f.takesValue then do gather (← d.flag f value) rest else .error .misuse
  | .option f none :: .value s :: rest =>
      if f.takesValue then do gather (← d.flag f s) rest
      else do gather (← d.flag f "") (.value s :: rest)
  | .option f none :: rest =>
      if f.takesValue then .error .misuse else do gather (← d.flag f "") rest
termination_by args => args.length

/-- The options that the arguments say. -/
def ofArguments (args : List String) : Except Stop Options := do
  let d ← gather ⟨initial, false, false⟩ (← Argument.ofTexts args)
  if d.hasEdges && !d.leftOver then .ok d.options else .error .misuse

end Options

end GraphClustering.CommandLine
