import GraphClustering.Json.Value
import GraphClustering.Text.Quoted

/-! # Writing documents

`compact` and `pretty` write the interchange form in ASCII; `literal` and `plain` write a value
the way messages show it. -/

namespace GraphClustering.Json

def unitEscape (n : Nat) : String :=
  "\\u" ++ Text.hexDigits 4 n

def escapeChar (c : Char) : String :=
  match c with
  | '"' => "\\\""
  | '\\' => "\\\\"
  | '\n' => "\\n"
  | '\r' => "\\r"
  | '\t' => "\\t"
  | '\x08' => "\\b"
  | '\x0c' => "\\f"
  | c =>
      let n := c.toNat
      if 0x20 ≤ n ∧ n < 0x7f then String.singleton c
      else if n < 0x10000 then unitEscape n
      else unitEscape (0xd800 + (n - 0x10000) / 0x400) ++
        unitEscape (0xdc00 + (n - 0x10000) % 0x400)

def stringText (s : String) : String :=
  "\"" ++ String.join (s.toList.map escapeChar) ++ "\""

def realText (x : Float) : String :=
  if x.isNaN then "NaN"
  else if x.isInf then (if x < 0 then "-Infinity" else "Infinity")
  else Decimal.text x

mutual

/-- A value on one line. -/
def compact : Json → String
  | .null => "null"
  | .bool b => if b then "true" else "false"
  | .int z => Number.intText z
  | .real x => realText x
  | .str s => stringText s
  | .arr items => "[" ++ ",".intercalate (compactItems items) ++ "]"
  | .obj fields => "\x7b" ++ ",".intercalate (compactFields fields) ++ "\x7d"

def compactItems : List Json → List String
  | [] => []
  | v :: rest => compact v :: compactItems rest

def compactFields : List (String × Json) → List String
  | [] => []
  | (name, v) :: rest => (stringText name ++ ":" ++ compact v) :: compactFields rest

end

def newline (depth : Nat) : String :=
  "\n" ++ String.ofList (List.replicate (2 * depth) ' ')

/-- Brackets around items on lines of their own; nothing stands between the brackets if there
are none. -/
def block (depth : Nat) (left right : String) (items : List String) : String :=
  if items.isEmpty then left ++ right
  else left ++ newline (depth + 1) ++ ("," ++ newline (depth + 1)).intercalate items ++
    newline depth ++ right

mutual

/-- A value on several lines, two more spaces at each level. -/
def pretty (depth : Nat) : Json → String
  | .null => "null"
  | .bool b => if b then "true" else "false"
  | .int z => Number.intText z
  | .real x => realText x
  | .str s => stringText s
  | .arr items => block depth "[" "]" (prettyItems (depth + 1) items)
  | .obj fields => block depth "\x7b" "\x7d" (prettyFields (depth + 1) fields)

def prettyItems (depth : Nat) : List Json → List String
  | [] => []
  | v :: rest => pretty depth v :: prettyItems depth rest

def prettyFields (depth : Nat) : List (String × Json) → List String
  | [] => []
  | (name, v) :: rest =>
      (stringText name ++ ": " ++ pretty depth v) :: prettyFields depth rest

end

mutual

/-- A value as messages quote it. -/
def literal : Json → String
  | .null => "None"
  | .bool b => Number.flagText b
  | .int z => Number.intText z
  | .real x => Decimal.text x
  | .str s => Text.quoted s
  | .arr items => "[" ++ ", ".intercalate (literalItems items) ++ "]"
  | .obj fields => "\x7b" ++ ", ".intercalate (literalFields fields) ++ "\x7d"

def literalItems : List Json → List String
  | [] => []
  | v :: rest => literal v :: literalItems rest

def literalFields : List (String × Json) → List String
  | [] => []
  | (name, v) :: rest => (Text.quoted name ++ ": " ++ literal v) :: literalFields rest

end

/-- A value as messages name it: text stands without quotes. -/
def plain : Json → String
  | .str s => s
  | v => v.literal

end GraphClustering.Json
