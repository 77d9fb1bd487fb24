import WeightedGraph.Adjacency
import WeightedGraph.IndexSet
import WeightedGraph.Search.Steps

/-!
Breadth-first search.

* `BreadthState`: the vertices found so far and those of them that wait to be visited.
* `Visit`: a visited vertex and the vertices that were first found from it.
* `Adjacency.breadthNext`: visits the vertex that has waited longest. A vertex counts as found when
  it starts to wait, so none waits twice.
* `Adjacency.breadthOrder`: the vertices that can be reached from a vertex in the order in which they
  are visited.
-/

namespace WeightedGraph

/-- The state of a breadth-first search. -/
structure BreadthState where
  /-- The vertices found so far. -/
  found : IndexSet
  /-- The vertices found and not yet visited, the next one first. -/
  queue : List Vertex

/-- One step of a breadth-first search. -/
structure Visit where
  /-- The vertex that is visited. -/
  vertex : Vertex
  /-- The vertices that this visit was the first to find. -/
  found : List Vertex

/-- The state in which a search begins; a start that is no vertex leaves nothing to visit. -/
def BreadthState.start (size : Nat) (start : Vertex) : BreadthState :=
  if start < size then ⟨(IndexSet.empty size).insert start, [start]⟩
  else ⟨IndexSet.empty size, []⟩

namespace Adjacency

variable {W : Type}

/-- Visits the first vertex of the queue and lets the neighbours that it finds wait. -/
def breadthNext (g : Adjacency W) (s : BreadthState) :
    Except GraphError (Option (Visit × BreadthState)) :=
  match s.queue with
  | [] => .ok none
  | v :: rest => do
      let neighbours ← g.neighbours v
      let (found, new) := s.found.insertNew neighbours
      return some (⟨v, new⟩, ⟨found, rest ++ new⟩)

/-- The visits from a state until nothing waits. Each visits another vertex, so there are no more
than vertices. -/
def breadthVisits (g : Adjacency W) (s : BreadthState) :
    Except GraphError (List Visit × BreadthState) :=
  takeSteps g.breadthNext g.size s

/-- The vertices reached from `start` in the order of their visits. -/
def breadthOrder (g : Adjacency W) (start : Vertex) : Except GraphError (List Vertex) := do
  let (visits, _) ← g.breadthVisits (BreadthState.start g.size start)
  return visits.map Visit.vertex

end Adjacency

end WeightedGraph
