/-! # What stands between the fields of a row -/

namespace GraphClustering.Table

inductive Separator where
  | letter (c : Char)
  /-- Blanks and tabs, any number of them. -/
  | blanks
  /-- Several letters. -/
  | letters (s : List Char)
deriving DecidableEq, Repr

/-- Why a text is no separator. -/
inductive SeparatorFault where
  | empty
  | lineBreak
deriving DecidableEq, Repr

namespace Separator

/-- The letters that a backslash stands for together with the next one. -/
def unescape : List Char → List Char
  | '\\' :: 't' :: rest => '\t' :: unescape rest
  | '\\' :: c :: rest => (if c.isAlphanum then ['\\', c] else [c]) ++ unescape rest
  | c :: rest => c :: unescape rest
  | [] => []

def ofText (s : String) : Except SeparatorFault Separator :=
  match s.toList with
  | [] => .error .empty
  | ['\n'] => .error .lineBreak
  | [c] => .ok (.letter c)
  | ['\\', 's', '+'] => .ok .blanks
  | cs => .ok (.letters (unescape cs))

/-- The separator of a file without a separator given, by the suffix of its name. -/
def ofSuffix (suffix : String) : Separator :=
  .letter (if suffix == ".tsv" || suffix == ".tab" then '\t' else ',')

end Separator

end GraphClustering.Table
