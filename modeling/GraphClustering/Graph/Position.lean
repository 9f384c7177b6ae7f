import GraphClustering.Fault

/-! # Positions counted from either end of an array -/

namespace GraphClustering.Position

/-- A position below zero counts from the end. -/
def resolve? (n : Nat) (i : Int) : Option Nat :=
  if 0 ≤ i then (if i.toNat < n then some i.toNat else none)
  else if 0 ≤ i + n then some (i + n).toNat else none

def resolve (n : Nat) (i : Int) : Except Fault Nat :=
  match resolve? n i with
  | some k => .ok k
  | none => .error .indexOutside

theorem resolve?_lt {n : Nat} {i : Int} {k : Nat} (h : resolve? n i = some k) : k < n := by
  unfold resolve? at h
  split at h
  · split at h
    · rename_i inside
      exact Option.some.inj h ▸ inside
    · cases h
  · split at h
    · cases h
      omega
    · cases h

theorem resolve?_ofNat {n k : Nat} (h : k < n) : resolve? n k = some k := by
  simp [resolve?, h]

/-- The end of a slice: counted from the end if negative, and kept within the array. -/
def clamp (n : Nat) (i : Int) : Nat :=
  if 0 ≤ i then min i.toNat n else (i + n).toNat

theorem clamp_le (n : Nat) (i : Int) : clamp n i ≤ n := by
  unfold clamp; split <;> omega

theorem clamp_ofNat {n k : Nat} (h : k ≤ n) : clamp n k = k := by
  simp [clamp, h]

end GraphClustering.Position
