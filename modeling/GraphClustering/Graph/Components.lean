import GraphClustering.Graph.View

/-! # Connected components of a view -/

namespace GraphClustering.View

variable {α : Type}

/-- Visits every vertex that can be reached from the frontier. The frontier is a queue of visited
vertices; `members` are the vertices visited so far, latest first. Each step takes one vertex off
the queue and no vertex enters it twice, so the order of the view is fuel enough. -/
def grow (v : View α) : Nat → List Nat → Array Bool → List Nat → Array Bool × List Nat
  | 0, _, visited, members => (visited, members)
  | _ + 1, [], visited, members => (visited, members)
  | fuel + 1, i :: frontier, visited, members =>
      let fresh := (v.neighbourIds i).filter fun j => !visited.getD j true
      grow v fuel (frontier ++ fresh)
        (fresh.foldl (fun marks j => marks.setIfInBounds j true) visited) (fresh.reverse ++ members)

/-- The state of a search for components: the visited vertices, and the components found so far
as lists of local ids, latest first. -/
structure Search where
  visited : Array Bool
  found : List (List Nat)

/-- A vertex not visited yet starts a component. -/
def visit (v : View α) (s : Search) (i : Nat) : Search :=
  if s.visited.getD i true then s
  else
    let r := v.grow (v.order + 1) [i] (s.visited.setIfInBounds i true) [i]
    ⟨r.1, r.2.reverse :: s.found⟩

/-- The local ids of each component, by ascending least id. -/
def componentIds (v : View α) : List (List Nat) :=
  ((List.range v.order).foldl v.visit ⟨Array.replicate v.order false, []⟩).found.reverse

/-- The maximal connected parts of a view. -/
def components (v : View α) : List (View α) :=
  v.componentIds.map v.restrict

end GraphClustering.View
