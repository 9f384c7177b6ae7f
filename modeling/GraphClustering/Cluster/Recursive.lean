import GraphClustering.Cluster.Postprocessing
import GraphClustering.Graph.Components
import GraphClustering.Spectral.Bisection

/-! # Recursive clustering

A queue of tasks is worked off from the front. A task is a view and the cluster that it feeds; it
is either cut into connected components or, if it is connected, split in two. Parts that are too
small end in the remainder of the cluster, the others become clusters below it. -/

namespace GraphClustering

/-- How a view came about: as the whole graph, as a component, or as one side of a split. -/
inductive Stage where
  | whole
  | component
  | spectral
deriving DecidableEq, Repr

def Stage.name : Stage → String
  | whole => "root"
  | component => "component"
  | spectral => "spectral"

structure Task (α : Type) where
  view : View α
  stage : Stage
  cluster : ClusterId

/-- The clusters made so far, the tasks to do, and how many tasks were done in either way. -/
structure Progress (α : Type) where
  forest : Forest
  queue : List (Task α)
  bisections : Nat
  decompositions : Nat

structure Clustering (α : Type) where
  guard : Guard α
  minOverlap : α
  /-- The limit on sweeps and rounds of postprocessing. -/
  passLimit : Number
  bisector : Bisector α

namespace Clustering

variable {α : Type}

def minSize (k : Clustering α) : Number :=
  k.guard.minSize

/-- Fewer vertices than a cluster needs. -/
def isSmall (k : Clustering α) (v : View α) : Bool :=
  Number.less (.int v.order) k.minSize

/-- Just as many vertices as a cluster needs. -/
def isMinimal (k : Clustering α) (v : View α) : Bool :=
  Number.same (.int v.order) k.minSize

/-- More vertices than a cluster needs. -/
def isLarge (k : Clustering α) (v : View α) : Bool :=
  k.minSize.less (.int v.order)

def toRemainder (p : Progress α) (c : ClusterId) (ids : List Int) : Progress α :=
  { p with forest := p.forest.addToRemainder c ids }

/-- A child that owns the vertices of a view and is not divided further. -/
def addTerminal (p : Progress α) (parent : ClusterId) (v : View α) : Progress α :=
  let (f, c) := p.forest.spawn (some parent)
  { p with forest := f.addToRemainder c v.vertexList }

/-- A child with a task to divide the view. -/
def enqueue (p : Progress α) (stage : Stage) (parent : ClusterId) (v : View α) : Progress α :=
  let (f, c) := p.forest.spawn (some parent)
  { p with forest := f, queue := p.queue ++ [⟨v, stage, c⟩] }

/-- What becomes of a component of a task's view. -/
def placeComponent (k : Clustering α) (t : Task α) (p : Progress α) (v : View α) : Progress α :=
  if v.order = t.view.order then { p with queue := p.queue ++ [{ t with stage := .component }] }
  else if k.isSmall v then toRemainder p t.cluster v.vertexList
  else if k.isMinimal v then addTerminal p t.cluster v
  else enqueue p .component t.cluster v

def decompose (k : Clustering α) (t : Task α) (p : Progress α) : Progress α :=
  t.view.components.foldl (k.placeComponent t) { p with decompositions := p.decompositions + 1 }

/-- What becomes of a guarded part. -/
def placeConsistent (k : Clustering α) (c : ClusterId) (p : Progress α) (v : View α) :
    Except Fault (Progress α) :=
  if k.isLarge v then .ok (enqueue p .spectral c v)
  else if k.isMinimal v then .ok (addTerminal p c v)
  else .error (.undersized v.order k.minSize)

variable [Scalar α]

/-- What becomes of one side of a split; a side that is the whole view cannot be split further. -/
def placePart (k : Clustering α) (t : Task α) (p : Progress α) (v : View α) :
    Except Fault (Progress α) :=
  if k.isSmall v || v.order == t.view.order then .ok (toRemainder p t.cluster v.vertexList)
  else do
    let guarded ← k.guard.ensure v
    let p := toRemainder p t.cluster guarded.dropped
    match guarded.kept with
    | some kept => k.placeConsistent t.cluster p kept
    | none => .ok p

/-- A view without a split becomes a cluster of its own if it is large enough. -/
def placeUnsettled (k : Clustering α) (t : Task α) (p : Progress α) : Progress α :=
  if k.minSize.atMost (.int t.view.order) then addTerminal p t.cluster t.view
  else toRemainder p t.cluster t.view.vertexList

def bisect (k : Clustering α) (t : Task α) (p : Progress α) : Except Fault (Progress α) := do
  let p := { p with bisections := p.bisections + 1 }
  match ← k.bisector t.view with
  | .unsettled => .ok (k.placeUnsettled t p)
  | .signs positive => (Bisection.parts t.view positive).foldlM (k.placePart t) p

def perform (k : Clustering α) (t : Task α) (p : Progress α) : Except Fault (Progress α) :=
  match t.stage with
  | .component => k.bisect t p
  | .whole | .spectral => .ok (k.decompose t p)

/-- Works off the queue, at most `fuel` tasks. -/
def drain (k : Clustering α) : Nat → Progress α → Except Fault (Progress α)
  | 0, p => .ok p
  | fuel + 1, p => match p.queue with
      | [] => .ok p
      | t :: rest => do k.drain fuel (← k.perform t { p with queue := rest })

/-- The number of tasks that suffices for a view of the given order. -/
def taskBound (order : Nat) : Nat :=
  4 * order + 1

/-- A new root with a task for a view. -/
def start (v : View α) (stage : Stage) : Progress α :=
  let (f, c) := Forest.empty.spawn none
  ⟨f, [⟨v, stage, c⟩], 0, 0⟩

/-- The clusters of a view before postprocessing. -/
def queuePhase (k : Clustering α) (v : View α) (stage : Stage) : Except Fault (Progress α) :=
  k.drain (taskBound v.order) (start v stage)

/-- The clusters of a view, below the first cluster. -/
def run (k : Clustering α) (v : View α) : Except Fault (Progress α) := do
  let p ← k.queuePhase v .whole
  let r := Postprocessing.run (Postprocessing.passes k.guard k.minOverlap) k.passLimit 0 p.forest
  r.2.map fun _ => { p with forest := r.1 }

end Clustering

/-- Clustering by binary64 weights with the given settings. -/
def Settings.clustering (s : Settings) (metric : Metric Float) (graph : View Float) :
    Clustering Float where
  guard := ⟨metric, graph, s.minClusterSize, (s.minClusterLikelihood.toFloat?).getD 0⟩
  minOverlap := (s.minAncestorOverlap.toFloat?).getD 0
  passLimit := s.maxPostprocessingPasses
  bisector := Bisection.spectral s

end GraphClustering
