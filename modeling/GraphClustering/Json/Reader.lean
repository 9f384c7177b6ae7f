import GraphClustering.Json.Value

/-! # Reading documents

The grammar is strict, save that `NaN`, `Infinity` and `-Infinity` are numbers and that a name
may occur twice in an object. -/

namespace GraphClustering.Json

open Decimal

inductive ReadFault where
  | malformed
  /-- A whole number with more digits than are read. -/
  | integerTooLong
deriving DecidableEq, Repr

def skipBlanks (s : List Char) : List Char :=
  s.dropWhile fun c => c == ' ' || c == '\t' || c == '\n' || c == '\r'

def hexValue? (c : Char) : Option Nat :=
  if '0' ≤ c ∧ c ≤ '9' then some (c.toNat - 48)
  else if 'a' ≤ c ∧ c ≤ 'f' then some (c.toNat - 87)
  else if 'A' ≤ c ∧ c ≤ 'F' then some (c.toNat - 55)
  else none

def hexUnit? (a b c d : Char) : Option Nat := do
  let a ← hexValue? a
  let b ← hexValue? b
  let c ← hexValue? c
  let d ← hexValue? d
  some (((a * 16 + b) * 16 + c) * 16 + d)

/-- The character that an escape of one letter stands for. -/
def escaped? : Char → Option Nat
  | '"' => some 34
  | '\\' => some 92
  | '/' => some 47
  | 'b' => some 8
  | 'f' => some 12
  | 'n' => some 10
  | 'r' => some 13
  | 't' => some 9
  | _ => none

/-- The code points up to the closing quote, and what follows it. -/
def stringBody : List Char → Except ReadFault (List Nat × List Char)
  | [] => .error .malformed
  | '"' :: rest => .ok ([], rest)
  | '\\' :: 'u' :: a :: b :: c :: d :: rest =>
      match hexUnit? a b c d with
      | some n => (stringBody rest).map fun r => (n :: r.1, r.2)
      | none => .error .malformed
  | '\\' :: c :: rest =>
      match escaped? c with
      | some n => (stringBody rest).map fun r => (n :: r.1, r.2)
      | none => .error .malformed
  | c :: rest =>
      if c.toNat < 32 || c == '\\' then .error .malformed
      else (stringBody rest).map fun r => (c.toNat :: r.1, r.2)

/-- Joins surrogate pairs; a surrogate that stands alone becomes the replacement character. -/
def joinSurrogates : List Nat → List Char
  | [] => []
  | [n] => [if 0xd800 ≤ n ∧ n < 0xe000 then Char.ofNat 0xfffd else Char.ofNat n]
  | n :: m :: rest =>
      if 0xd800 ≤ n ∧ n < 0xdc00 ∧ 0xdc00 ≤ m ∧ m < 0xe000 then
        Char.ofNat (0x10000 + (n - 0xd800) * 0x400 + (m - 0xdc00)) :: joinSurrogates rest
      else if 0xd800 ≤ n ∧ n < 0xe000 then Char.ofNat 0xfffd :: joinSurrogates (m :: rest)
      else Char.ofNat n :: joinSurrogates (m :: rest)

def asciiDigits : List Char → List Nat × List Char
  | [] => ([], [])
  | c :: rest =>
      if '0' ≤ c ∧ c ≤ '9' then
        let r := asciiDigits rest
        ((c.toNat - 48) :: r.1, r.2)
      else ([], c :: rest)

/-- The whole part has no leading zero. -/
def wholePart : List Char → List Nat × List Char
  | '0' :: rest => ([0], rest)
  | s => asciiDigits s

/-- A point followed by at least one digit. -/
def fractionPart : List Char → List Nat × List Char
  | '.' :: rest =>
      let r := asciiDigits rest
      if r.1.isEmpty then ([], '.' :: rest) else r
  | s => ([], s)

/-- A letter `e`, a sign and at least one digit. -/
def exponentPart : List Char → Option Int × List Char
  | e :: rest =>
      if e == 'e' || e == 'E' then
        let (negative, digits) := sign rest
        let r := asciiDigits digits
        if r.1.isEmpty then (none, e :: rest)
        else
          let n : Int := ofDigits r.1
          (some (if negative then -n else n), r.2)
      else (none, e :: rest)
  | [] => (none, [])

def number (negative : Bool) (s : List Char) : Except ReadFault (Json × List Char) :=
  let (whole, s₁) := wholePart s
  if whole.isEmpty then .error .malformed else
    let (part, s₂) := fractionPart s₁
    let (exponent, s₃) := exponentPart s₂
    if part.isEmpty && exponent.isNone then
      if digitLimit < whole.length then .error .integerTooLong
      else
        let n : Int := ofDigits whole
        .ok (.int (if negative then -n else n), s₃)
    else
      let m := ofDigits (whole ++ part)
      .ok (.real (ofScientific negative m (exponent.getD 0 - part.length)), s₃)

/-- The rest of the text after a given word, if it starts with that word. -/
def afterWord (word : String) (s : List Char) : Option (List Char) :=
  if word.toList.isPrefixOf s then some (s.drop word.length) else none

/-- The values that are words. -/
def words : List (String × Json) :=
  [("null", .null), ("true", .bool true), ("false", .bool false), ("NaN", .real notANumber),
    ("Infinity", .real (infinity false)), ("-Infinity", .real (infinity true))]

def word? (s : List Char) : Option (Json × List Char) :=
  words.findSome? fun w => (afterWord w.1 s).map fun rest => (w.2, rest)

def scalar (s : List Char) : Except ReadFault (Json × List Char) :=
  match word? s with
  | some r => .ok r
  | none =>
      match s with
      | '-' :: rest => number true rest
      | s => number false s

mutual

/-- A value at the front; `fuel` bounds the calls, two for every character read. -/
def value : Nat → List Char → Except ReadFault (Json × List Char)
  | 0, _ => .error .malformed
  | fuel + 1, s =>
      match s with
      | '"' :: rest => do
          let (body, rest) ← stringBody rest
          .ok (.str (String.ofList (joinSurrogates body)), rest)
      | '[' :: rest =>
          match skipBlanks rest with
          | ']' :: rest => .ok (.arr [], rest)
          | rest => do
              let (items, rest) ← items fuel rest
              .ok (.arr items, rest)
      | '\x7b' :: rest =>
          match skipBlanks rest with
          | '\x7d' :: rest => .ok (.obj [], rest)
          | rest => do
              let (fields, rest) ← fields fuel [] rest
              .ok (.obj fields, rest)
      | s => scalar s

/-- The items of an array up to its end. -/
def items : Nat → List Char → Except ReadFault (List Json × List Char)
  | 0, _ => .error .malformed
  | fuel + 1, s => do
      let (first, rest) ← value fuel s
      match skipBlanks rest with
      | ',' :: rest =>
          let (others, rest) ← items fuel (skipBlanks rest)
          .ok (first :: others, rest)
      | ']' :: rest => .ok ([first], rest)
      | _ => .error .malformed

/-- The fields of an object up to its end, added to those read before. -/
def fields : Nat → List (String × Json) → List Char →
    Except ReadFault (List (String × Json) × List Char)
  | 0, _, _ => .error .malformed
  | fuel + 1, known, s =>
      match s with
      | '"' :: rest => do
          let (body, rest) ← stringBody rest
          let name := String.ofList (joinSurrogates body)
          match skipBlanks rest with
          | ':' :: rest =>
              let (v, rest) ← value fuel (skipBlanks rest)
              let known := putField name v known
              match skipBlanks rest with
              | ',' :: rest => fields fuel known (skipBlanks rest)
              | '\x7d' :: rest => .ok (known, rest)
              | _ => .error .malformed
          | _ => .error .malformed
      | _ => .error .malformed

end

/-- A text holds one value and nothing else but blanks. -/
def read (text : String) : Except ReadFault Json := do
  let s := text.toList
  let (v, rest) ← value (2 * s.length + 2) (skipBlanks s)
  if (skipBlanks rest).isEmpty then .ok v else .error .malformed

end GraphClustering.Json
