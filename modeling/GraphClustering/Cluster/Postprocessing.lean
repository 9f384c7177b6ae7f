import GraphClustering.Cluster.Consistency
import GraphClustering.Cluster.Forest
import GraphClustering.Spectral.Matrix

/-! # Tidying a tree of clusters

Three rules change the tree around a cluster: an only child is merged into its parent, vertices
that do not fit are handed to the parent, and a cluster that has little to do with its parent
moves up. Each rule is swept over the tree from the deepest clusters up until a sweep changes
nothing, and all of them again until none changes anything. -/

namespace GraphClustering

/-- A change of the tree around a cluster; it tells whether anything changed. -/
abbrev TreeRule := Forest → ClusterId → Except Fault (Forest × Bool)

namespace TreeRule

variable {α : Type}

/-- The view of a graph on the vertices of a cluster and its descendants. -/
def aggregateView (graph : View α) (f : Forest) (c : ClusterId) : Except Fault (View α) :=
  graph.induced (f.aggregate c)

/-- Merges an only child into its parent. -/
def collapse : TreeRule := fun f c =>
  match f.parent c with
  | none => .ok (f, false)
  | some p =>
      if (f.children p).length = 1 then
        (f.assimilate p c true).map fun f => (f, true)
      else .ok (f, false)

/-- Hands the vertices that the guard drops to the parent, and all that is left of a cluster that
the guard gives up. -/
def evict [Scalar α] (g : Guard α) : TreeRule := fun f c =>
  match f.parent c with
  | none => .ok (f, false)
  | some p => do
      let guarded ← g.ensure (← aggregateView g.graph f c)
      if guarded.kept.isSome && guarded.dropped.isEmpty then .ok (f, false)
      else
        let f := (f.walk c).foldl (fun f d => f.removeFromRemainder d guarded.dropped) f
        let f ← if guarded.kept.isSome then .ok f else f.assimilate p c false
        .ok (f.addToRemainder p guarded.dropped, true)

/-- The weight inside a view as a share of the weight of its vertices inside an ancestor. -/
def overlap [Scalar α] (graph v : View α) (f : Forest) (ancestor : ClusterId) :
    Except Fault α := do
  let above ← aggregateView graph f ancestor
  let places := (above.localIds v.vertexList).filterMap id
  let weights ← above.weights
  let total := Vector.pairwiseSum (places.filterMap fun i => weights[i]?)
  if Scalar.isZero total then .ok 0
  else
    let own ← v.weights
    .ok (Vector.pairwiseSum own.toList / total)

/-- The first of the ancestors that is a root or overlaps enough. -/
def landing [Scalar α] (graph v : View α) (minOverlap : α) (f : Forest) :
    List ClusterId → Except Fault (Option ClusterId)
  | [] => .ok none
  | a :: rest =>
      if f.isRoot a then .ok (some a)
      else do
        let x ← overlap graph v f a
        if Scalar.less x minOverlap then landing graph v minOverlap f rest else .ok (some a)

/-- Moves a cluster up to the next ancestor that it overlaps enough. -/
def climb [Scalar α] (graph : View α) (minOverlap : α) : TreeRule := fun f c =>
  match f.parent c with
  | none => .ok (f, false)
  | some p =>
      if f.isRoot p then .ok (f, false)
      else do
        let v ← aggregateView graph f c
        match ← landing graph v minOverlap f (f.ancestors c) with
        | none => .ok (f, false)
        | some a => if a = p then .ok (f, false) else .ok (f.reparent c a, true)

end TreeRule

namespace Postprocessing

/-- A rule to sweep over the tree, or a rule that wants the tree to be visited another way. -/
inductive Pass where
  | bottomUp (rule : TreeRule)
  | unsupported (mode : String)

/-- Deepest clusters first, otherwise in the order of the walk. -/
def sweepOrder (f : Forest) (root : ClusterId) : List ClusterId :=
  (f.walk root).mergeSort fun a b => f.depth b ≤ f.depth a

/-- Applies a rule to clusters in turn, leaving out those no longer under the root. The tree is
what it was before the failure if a rule fails. -/
def sweepOver (rule : TreeRule) (root : ClusterId) :
    List ClusterId → Forest → Bool → Forest × Except Fault Bool
  | [], f, changed => (f, .ok changed)
  | c :: rest, f, changed =>
      if f.root c = root then
        match rule f c with
        | .ok (f, b) => sweepOver rule root rest f (changed || b)
        | .error e => (f, .error e)
      else sweepOver rule root rest f changed

def sweep (rule : TreeRule) (root : ClusterId) (f : Forest) : Forest × Except Fault Bool :=
  sweepOver rule root (sweepOrder f root) f false

/-- Repeats a step until it changes nothing, at most `fuel` times; tells whether any changed
anything. -/
def untilSettled (step : Forest → Forest × Except Fault Bool) :
    Nat → Forest → Bool → Forest × Except Fault Bool
  | 0, f, changed => (f, .ok changed)
  | fuel + 1, f, changed =>
      match step f with
      | (f, .ok true) => untilSettled step fuel f true
      | (f, .ok false) => (f, .ok changed)
      | (f, .error e) => (f, .error e)

def applyPass (limit : Nat) (root : ClusterId) (p : Pass) (f : Forest) :
    Forest × Except Fault Bool :=
  match p with
  | .bottomUp rule => untilSettled (sweep rule root) limit f false
  | .unsupported mode => (f, .error (.unsupportedSweep mode))

/-- All passes in turn. -/
def round (limit : Nat) (root : ClusterId) :
    List Pass → Forest → Bool → Forest × Except Fault Bool
  | [], f, changed => (f, .ok changed)
  | p :: rest, f, changed =>
      match applyPass limit root p f with
      | (f, .ok b) => round limit root rest f (changed || b)
      | (f, .error e) => (f, .error e)

/-- Rounds until one changes nothing, and whether any changed the tree. The limit on rounds and
sweeps has to be a whole number. -/
def run (passes : List Pass) (limit : Number) (root : ClusterId) (f : Forest) :
    Forest × Except Fault Bool :=
  match limit.toInt? with
  | none => (f, .error .notNumeric)
  | some n => untilSettled (fun f => round n.toNat root passes f false) n.toNat f false

/-- The three rules: collapse, evict, climb. -/
def passes {α : Type} [Scalar α] (g : Guard α) (minOverlap : α) : List Pass :=
  [.bottomUp TreeRule.collapse, .bottomUp (TreeRule.evict g),
    .bottomUp (TreeRule.climb g.graph minOverlap)]

end Postprocessing

end GraphClustering
