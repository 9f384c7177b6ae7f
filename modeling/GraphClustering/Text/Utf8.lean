/-! # Bytes read as text

Bytes that are not well-formed become the replacement character: one for each longest run that
could have begun a character. -/

namespace GraphClustering.Text

def replacement : Char := Char.ofNat 0xfffd

/-- A character begun: its value so far, the bytes it still needs and the range of the next. -/
structure Begun where
  value : Nat
  needed : Nat
  low : Nat
  high : Nat

/-- What a byte yields between characters: characters, or the beginning of one. -/
def firstByte (b : Nat) : List Char × Option Begun :=
  if b < 0x80 then ([Char.ofNat b], none)
  else if 0xc2 ≤ b ∧ b ≤ 0xdf then ([], some ⟨b - 0xc0, 1, 0x80, 0xbf⟩)
  else if b = 0xe0 then ([], some ⟨0, 2, 0xa0, 0xbf⟩)
  else if b = 0xed then ([], some ⟨0xd, 2, 0x80, 0x9f⟩)
  else if 0xe1 ≤ b ∧ b ≤ 0xef then ([], some ⟨b - 0xe0, 2, 0x80, 0xbf⟩)
  else if b = 0xf0 then ([], some ⟨0, 3, 0x90, 0xbf⟩)
  else if 0xf1 ≤ b ∧ b ≤ 0xf3 then ([], some ⟨b - 0xf0, 3, 0x80, 0xbf⟩)
  else if b = 0xf4 then ([], some ⟨4, 3, 0x80, 0x8f⟩)
  else ([replacement], none)

def nextByte (begun : Option Begun) (b : Nat) : List Char × Option Begun :=
  match begun with
  | none => firstByte b
  | some s =>
      if s.low ≤ b ∧ b ≤ s.high then
        let value := s.value * 64 + (b - 0x80)
        if s.needed = 1 then ([Char.ofNat value], none)
        else ([], some ⟨value, s.needed - 1, 0x80, 0xbf⟩)
      else
        let r := firstByte b
        (replacement :: r.1, r.2)

def decodeFrom (begun : Option Begun) : List Nat → List Char
  | [] => if begun.isSome then [replacement] else []
  | b :: rest =>
      let r := nextByte begun b
      r.1 ++ decodeFrom r.2 rest

def decodeUtf8 (bytes : List Nat) : String :=
  String.ofList (decodeFrom none bytes)

end GraphClustering.Text
