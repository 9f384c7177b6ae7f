import GraphClustering.Environment
import GraphClustering.Number
import GraphClustering.Text.Utf8

/-! # Whether products may run on a graphics device -/

namespace GraphClustering

/-- A device as its library describes it; a machine without the library has none. -/
structure Device where
  count : Int
  /-- The bytes of the name of the first device. -/
  name : List Nat
  queryFails : Bool
  uploadFails : Bool
  /-- The product that fails, counted from one. -/
  failAt : Option Nat

structure Capability where
  library : Bool
  count : Int
  name : Option String
  enabled : Bool

namespace Capability

def usable (c : Capability) : Bool :=
  c.enabled && c.library && decide (0 < c.count)

def text (c : Capability) : String :=
  if c.usable then
    "GPU enabled (" ++ c.name.getD "None" ++ ", " ++ Number.intText c.count ++ " device(s))"
  else if c.enabled && !c.library then "GPU requested but CuPy unavailable"
  else if c.enabled then "GPU requested but no CUDA device found"
  else "GPU disabled (CPU mode)"

def disabled : Capability := ⟨false, 0, none, false⟩

/-- What a query finds out; the name is asked for only if there are devices, and an empty name
is none. -/
def probe : Option Device → Capability
  | none => ⟨false, 0, none, true⟩
  | some d =>
      if d.queryFails then ⟨true, 0, none, true⟩
      else
        let name := Text.decodeUtf8 d.name
        ⟨true, d.count, if d.count = 0 || name.isEmpty then none else some name, true⟩

/-- A device is used on request only, and never against the veto. -/
def requested (env : Environment) (allowed : Bool) : Bool :=
  (allowed || env.flag "SPECTREE_USE_GPU") && !env.flag "SPECTREE_FORCE_CPU"

def detect (env : Environment) (device : Option Device) (allowed : Bool) : Capability :=
  if requested env allowed then probe device else disabled

/-- The last capability found, with the request it was found for. -/
abbrev Cache := Option (Capability × Bool)

/-- The cached capability, if it was found for the same request and no other is asked for. -/
def cached (cache : Cache) (env : Environment) (device : Option Device)
    (allowed refresh : Bool) : Capability × Cache :=
  match cache with
  | some (c, forAllowed) =>
      if refresh || forAllowed != allowed then
        let found := detect env device allowed
        (found, some (found, allowed))
      else (c, cache)
  | none =>
      let found := detect env device allowed
      (found, some (found, allowed))

end Capability

end GraphClustering
