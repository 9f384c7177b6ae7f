import GraphClustering.Spectral.Capability
import GraphClustering.Spectral.RowBlocks

/-! # Products on a device, with the processor to fall back on -/

namespace GraphClustering

/-- Where the products of a matrix are computed. A matrix on a device keeps to it until a product
fails there; then it is lost to the device, also if nothing can take its place. What is asked for
to take its place is kept with it: the workers, and the processors of the machine. -/
inductive Multiplier (α : Type) where
  | processor (blocks : RowBlocks α)
  | device (matrix : Matrix α) (workers : Option Int) (processors : Option Nat)
  | lost (matrix : Matrix α) (workers : Option Int) (processors : Option Nat)

namespace Multiplier

variable {α : Type}

def backend : Multiplier α → String
  | .processor _ => "cpu"
  | .device .. | .lost .. => "gpu"

def bounds : Multiplier α → List (Int × Int)
  | .processor b => b.bounds
  | .device .. | .lost .. => []

def onProcessor (m : Matrix α) (workers : Option Int) (processors : Option Nat) :
    Except Fault (Multiplier α) :=
  (RowBlocks.ofMatrix m workers RowBlocks.defaultRows processors).map .processor

/-- The device if it is usable and takes the matrix, the processor otherwise. -/
def choose (c : Capability) (device : Option Device) (m : Matrix α) (workers : Option Int)
    (processors : Option Nat := some 8) : Except Fault (Multiplier α) :=
  match c.usable, device with
  | true, some d =>
      if d.uploadFails then onProcessor m workers processors
      else .ok (.device m workers processors)
  | _, _ => onProcessor m workers processors

/-- What a device answers to the products that it is asked for, by their number; none stands for
a failure. -/
abbrev Answers (α : Type) := Nat → Matrix α → Array α → Option (Array α)

/-- A call: the product, the multiplier to go on with, and the number of the product that the
device is asked for next. -/
structure Call (α : Type) where
  product : Except Fault (Array α)
  next : Multiplier α
  asked : Nat

variable [Scalar α]

/-- The answers of a device on which some products fail, by their number; one with a vector of
the wrong length always does. -/
def failing (fails : Nat → Bool) : Answers α := fun k m x =>
  if fails k then none else (m.mulVec x).toOption

/-- The product without the device. -/
def fallBack (m : Matrix α) (workers : Option Int) (processors : Option Nat) (x : Array α)
    (asked : Nat) : Call α :=
  match RowBlocks.ofMatrix m workers RowBlocks.defaultRows processors with
  | .ok b => ⟨b.mulVec x, .processor b, asked⟩
  | .error e => ⟨.error e, .lost m workers processors, asked⟩

/-- The product with a vector. -/
def apply (answers : Answers α) (asked : Nat) (m : Multiplier α) (x : Array α) : Call α :=
  match m with
  | .processor b => ⟨b.mulVec x, m, asked⟩
  | .device matrix workers processors =>
      match answers asked matrix x with
      | some y => ⟨.ok y, m, asked + 1⟩
      | none => fallBack matrix workers processors x (asked + 1)
  | .lost matrix workers processors => fallBack matrix workers processors x asked

/-- The products with several vectors in turn. -/
def calls (answers : Answers α) (asked : Nat) (m : Multiplier α) : List (Array α) → List (Call α)
  | [] => []
  | x :: xs =>
      let c := apply answers asked m x
      c :: calls answers c.asked c.next xs

/-- The products with several vectors in turn, each with the backend after it. Products on the
device are counted from `asked` on, and `fails` tells which of them fail. -/
def run (fails : Nat → Bool) (asked : Nat) (m : Multiplier α) (xs : List (Array α)) :
    List (String × Except Fault (Array α)) :=
  (calls (failing fails) asked m xs).map fun c => (c.next.backend, c.product)

end Multiplier

/-- The products that fail on a device, counted from one. -/
def Device.fails (d : Device) (k : Nat) : Bool :=
  d.failAt == some k

end GraphClustering
