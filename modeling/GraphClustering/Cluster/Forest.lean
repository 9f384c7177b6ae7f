import GraphClustering.Fault

/-! # Forests of clusters

A cluster has a parent or is a root, keeps its children in the order in which they came, and owns
a remainder: the vertices that belong to it and to none of its children. Clusters are numbered in
the order in which they are made, and a number keeps its meaning while the tree is rewired. -/

namespace GraphClustering

abbrev ClusterId := Nat

structure Cluster where
  parent : Option ClusterId
  children : List ClusterId
  remainder : List Int

instance : Inhabited Cluster := ⟨⟨none, [], []⟩⟩

structure Forest where
  clusters : Array Cluster

namespace Forest

def empty : Forest := ⟨#[]⟩

def size (f : Forest) : Nat :=
  f.clusters.size

def cluster (f : Forest) (c : ClusterId) : Cluster :=
  f.clusters.getD c default

def parent (f : Forest) (c : ClusterId) : Option ClusterId :=
  (f.cluster c).parent

def children (f : Forest) (c : ClusterId) : List ClusterId :=
  (f.cluster c).children

def remainder (f : Forest) (c : ClusterId) : List Int :=
  (f.cluster c).remainder

def isRoot (f : Forest) (c : ClusterId) : Bool :=
  (f.parent c).isNone

def modify (f : Forest) (c : ClusterId) (g : Cluster → Cluster) : Forest :=
  ⟨f.clusters.modify c g⟩

/-! ## Remainders -/

def addToRemainder (f : Forest) (c : ClusterId) (ids : List Int) : Forest :=
  f.modify c fun k => { k with remainder := k.remainder ++ ids }

def setRemainder (f : Forest) (c : ClusterId) (ids : List Int) : Forest :=
  f.modify c fun k => { k with remainder := ids }

def removeFromRemainder (f : Forest) (c : ClusterId) (ids : List Int) : Forest :=
  f.modify c fun k => { k with remainder := k.remainder.filter fun v => !ids.contains v }

/-! ## Structure -/

/-- Appends a child unless it is there already. -/
def insertChild (cs : List ClusterId) (c : ClusterId) : List ClusterId :=
  if cs.contains c then cs else cs ++ [c]

def dropChild (f : Forest) (p c : ClusterId) : Forest :=
  f.modify p fun k => { k with children := k.children.erase c }

def link (f : Forest) (p c : ClusterId) : Forest :=
  (f.modify c fun k => { k with parent := some p }).modify p fun k =>
    { k with children := insertChild k.children c }

/-- A new cluster, the last child of its parent if it has one. -/
def spawn (f : Forest) (parent : Option ClusterId) : Forest × ClusterId :=
  let c := f.size
  let grown : Forest := ⟨f.clusters.push ⟨parent, [], []⟩⟩
  match parent with
  | none => (grown, c)
  | some p => (grown.modify p fun k => { k with children := insertChild k.children c }, c)

/-- Makes a cluster the last child of another one; a child keeps its place. -/
def addChild (f : Forest) (p c : ClusterId) : Forest :=
  match f.parent c with
  | none => f.link p c
  | some q => if q = p then f.link p c else (f.dropChild q c).link p c

def addChildren (f : Forest) (p : ClusterId) (cs : List ClusterId) : Forest :=
  cs.foldl (fun f c => f.addChild p c) f

/-- Makes a cluster a root. -/
def detach (f : Forest) (c : ClusterId) : Forest :=
  match f.parent c with
  | none => f
  | some p => (f.dropChild p c).modify c fun k => { k with parent := none }

def reparent (f : Forest) (c p : ClusterId) : Forest :=
  (f.detach c).addChild p c

/-- A cluster takes over the children of a child, its remainder if asked to, and drops it. -/
def absorb (f : Forest) (p c : ClusterId) (withRemainder : Bool) : Forest :=
  let moved := (f.detach c).addChildren p (f.children c)
  let moved := if withRemainder then moved.addToRemainder p (moved.remainder c) else moved
  moved.setRemainder c []

def assimilate (f : Forest) (p c : ClusterId) (withRemainder : Bool) : Except Fault Forest :=
  if f.parent c = some p then .ok (f.absorb p c withRemainder) else .error .notChild

/-! ## Ancestors -/

/-- The ancestors of a cluster, its parent first, at most `fuel` of them. -/
def ancestorsWithin (f : Forest) : Nat → ClusterId → List ClusterId
  | 0, _ => []
  | fuel + 1, c => match f.parent c with
      | none => []
      | some p => p :: f.ancestorsWithin fuel p

/-- The ancestors of a cluster, its parent first. No path is longer than the forest. -/
def ancestors (f : Forest) (c : ClusterId) : List ClusterId :=
  f.ancestorsWithin f.size c

def root (f : Forest) (c : ClusterId) : ClusterId :=
  (f.ancestors c).getLastD c

/-- The number of ancestors; a root has depth zero. -/
def depth (f : Forest) (c : ClusterId) : Nat :=
  (f.ancestors c).length

/-! ## Descendants -/

/-- Visits the clusters of a stack and their descendants, at most `fuel` of them. -/
def walkFrom (f : Forest) : Nat → List ClusterId → List ClusterId
  | 0, _ => []
  | _ + 1, [] => []
  | fuel + 1, c :: stack => c :: f.walkFrom fuel (f.children c ++ stack)

/-- A cluster and its descendants, parents first and children in order. No cluster is met twice,
so there are at most as many as in the forest. -/
def walk (f : Forest) (c : ClusterId) : List ClusterId :=
  f.walkFrom f.size [c]

/-- The vertices of a cluster and of its descendants. -/
def aggregate (f : Forest) (c : ClusterId) : List Int :=
  (f.walk c).flatMap f.remainder

def text (f : Forest) (c : ClusterId) : String :=
  "Cluster(depth=" ++ Decimal.digitText (f.depth c) ++ ", remainder=" ++
    Decimal.digitText (f.remainder c).length ++ ", children=" ++
    Decimal.digitText (f.children c).length ++ ")"

end Forest

end GraphClustering
