import GraphClustering.Text.Printable

/-! # Text in quotes, with escapes for what cannot be shown -/

namespace GraphClustering.Text

def hexDigits (width n : Nat) : String :=
  let ds := Nat.toDigits 16 n
  String.ofList (List.replicate (width - ds.length) '0' ++ ds)

/-- Single quotes, unless the text holds those and no double ones. -/
def quoteFor (s : List Char) : Char :=
  if s.contains '\'' && !s.contains '"' then '"' else '\''

def escapeChar (quote c : Char) : String :=
  if c == quote || c == '\\' then String.ofList ['\\', c]
  else if c == '\n' then "\\n"
  else if c == '\r' then "\\r"
  else if c == '\t' then "\\t"
  else if isPrintable c then String.singleton c
  else if c.toNat < 0x100 then "\\x" ++ hexDigits 2 c.toNat
  else if c.toNat < 0x10000 then "\\u" ++ hexDigits 4 c.toNat
  else "\\U" ++ hexDigits 8 c.toNat

def quoted (s : String) : String :=
  let cs := s.toList
  let quote := String.singleton (quoteFor cs)
  quote ++ String.join (cs.map (escapeChar (quoteFor cs))) ++ quote

end GraphClustering.Text
