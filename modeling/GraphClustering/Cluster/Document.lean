import GraphClustering.Cluster.Forest
import GraphClustering.Graph.Ids
import GraphClustering.Json.Reader
import GraphClustering.Json.Writer

/-! # Trees of clusters as documents

The clusters of a tree are numbered in the order of the walk and listed one after the other, each
with the number of its parent. Reading needs no more than numbers, parents and remainders. -/

namespace GraphClustering

/-- A cluster in a document. -/
structure ListedCluster where
  id : Nat
  parent : Option Nat
  depth : Nat
  remainder : List Int
  children : List Nat

/-- A tree as a list of its clusters. -/
structure TreeDocument where
  vertexCount : Nat
  clusters : List ListedCluster

namespace TreeDocument

def version : Int := 1

/-- The number of a cluster in the walk from the top. -/
def numberIn (walk : List ClusterId) (c : ClusterId) : Nat :=
  walk.idxOf c

def entry (f : Forest) (top : ClusterId) (walk : List ClusterId) (c : ClusterId) :
    ListedCluster where
  id := numberIn walk c
  parent := if c = top then none else (f.parent c).map (numberIn walk)
  depth := f.depth c - f.depth top
  remainder := f.remainder c
  children := (f.children c).map (numberIn walk)

/-- The document of the tree below a cluster. -/
def ofForest (f : Forest) (top : ClusterId) : TreeDocument :=
  let walk := f.walk top
  ⟨(f.aggregate top).length, walk.map (entry f top walk)⟩

def entryJson (e : ListedCluster) : Json :=
  .obj [("id", .nat e.id), ("parent", (e.parent.map Json.nat).getD .null),
    ("depth", .nat e.depth), ("remainder", .arr (e.remainder.map .int)),
    ("children", .arr (e.children.map Json.nat))]

def toJson (d : TreeDocument) : Json :=
  .obj [("version", .int version), ("num_clusters", .nat d.clusters.length),
    ("num_vertices", .nat d.vertexCount), ("clusters", .arr (d.clusters.map entryJson))]

/-- The text of a document in a file. -/
def fileText (d : TreeDocument) : String :=
  d.toJson.pretty 0

end TreeDocument

/-- Why a document is not a tree. -/
inductive ImportFault where
  | notAnObject
  | unsupportedVersion (version : Json)
  | missingField
  | wrongKind
  | ids (fault : Fault)
  | moreThanOneRoot
  | unknownParent (id parent : Json)
  | noRoot
  /-- A text that is no document. -/
  | unreadable (fault : Json.ReadFault)

namespace ImportFault

def message : ImportFault → Option String
  | .unsupportedVersion v => some ("Unsupported cluster tree format version: " ++ v.literal)
  | .moreThanOneRoot => some "cluster tree has more than one root"
  | .unknownParent id parent =>
      some ("cluster " ++ id.plain ++ " references unknown parent " ++ parent.plain)
  | .noRoot => some "cluster tree has no root"
  | .ids fault => fault.message
  | .notAnObject | .missingField | .wrongKind | .unreadable _ => none

end ImportFault

namespace TreeDocument

/-- What names a cluster: a number, a text or nothing. -/
inductive Key where
  | nothing
  | number (n : Number)
  | text (s : String)

/-- Numbers are equal as quantities. -/
def Key.same : Key → Key → Bool
  | .nothing, .nothing => true
  | .number a, .number b => a.same b
  | .text a, .text b => a == b
  | _, _ => false

def Key.ofJson : Json → Except ImportFault Key
  | .null => .ok .nothing
  | .str s => .ok (.text s)
  | .arr _ | .obj _ => .error .wrongKind
  | v => match v.number? with
      | some n => .ok (.number n)
      | none => .error .wrongKind

/-- The tree read so far: its root, and which cluster each name stands for, latest first. -/
structure Reading where
  forest : Forest
  root : Option ClusterId
  known : List (Key × ClusterId)

def field (name : String) : Json → Except ImportFault Json
  | .obj fields => match Json.field? name (.obj fields) with
      | some v => .ok v
      | none => .error .missingField
  | _ => .error .wrongKind

def cell : Json → Cell
  | .bool b => .flag b
  | .int z => .int z
  | .real x => .real x
  | .str s => .text s
  | _ => .missing

/-- The members of a value, as cells. -/
def members : Json → Except ImportFault (List Cell)
  | .arr items => .ok (items.map cell)
  | .str s => .ok (s.toList.map fun c => .text (String.singleton c))
  | .obj fields => .ok (fields.map fun f => .text f.1)
  | _ => .error .wrongKind

/-- The cluster of an entry: the root, or a child of a cluster read before. -/
def place (r : Reading) (e : Json) :
    Except ImportFault (Forest × ClusterId × Option ClusterId) := do
  let parent ← field "parent" e
  match parent with
  | .null =>
      if r.root.isSome then .error .moreThanOneRoot
      else
        let (f, c) := r.forest.spawn none
        .ok (f, c, some c)
  | _ =>
      let key ← Key.ofJson parent
      match r.known.find? fun k => k.1.same key with
      | none => .error (.unknownParent (← field "id" e) parent)
      | some k =>
          let (f, c) := r.forest.spawn (some k.2)
          .ok (f, c, r.root)

/-- Reads an entry: its parent first, then its remainder, then its name. -/
def readEntry (r : Reading) (e : Json) : Except ImportFault Reading := do
  let (f, c, root) ← place r e
  let cells ← members (← field "remainder" e)
  let ids ← (vertexIds cells).mapError .ids
  let key ← Key.ofJson (← field "id" e)
  .ok ⟨f.addToRemainder c ids, root, (key, c) :: r.known⟩

def isVersion (v : Json) : Bool :=
  match v.number? with
  | some n => n.same (.int version)
  | none => false

/-- The entries of a document; only a list has any that can be read. -/
def entries : Json → Except ImportFault (List Json)
  | .arr items => .ok items
  | .str s => if s.isEmpty then .ok [] else .error .wrongKind
  | .obj fields => if fields.isEmpty then .ok [] else .error .wrongKind
  | _ => .error .wrongKind

/-- The tree of a document, as a forest with its root. -/
def parse (payload : Json) : Except ImportFault (Forest × ClusterId) :=
  match payload with
  | .obj _ => do
      let v := (payload.field? "version").getD .null
      if !isVersion v then .error (.unsupportedVersion v)
      else
        let es ← entries (← field "clusters" payload)
        let r ← es.foldlM readEntry ⟨.empty, none, []⟩
        match r.root with
        | some root => .ok (r.forest, root)
        | none => .error .noRoot
  | _ => .error .notAnObject

/-- The tree of the text of a file. -/
def parseText (text : String) : Except ImportFault (Forest × ClusterId) :=
  match Json.read text with
  | .ok payload => parse payload
  | .error e => .error (.unreadable e)

end TreeDocument

end GraphClustering
