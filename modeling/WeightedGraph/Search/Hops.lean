import WeightedGraph.Search.Breadth
import WeightedGraph.Search.Predecessors

/-!
Distances and paths by the number of entries on the way.

* `Adjacency.hopCounts`: the number of entries on the shortest way from a vertex to each vertex.
* `Adjacency.hopPath?`: a way with the fewest entries between two vertices. The search ends when it
  is about to visit the second one.

Both read off what a breadth-first search reports: a vertex that is first found from another lies one
entry further away, and the other one is before it on its path.
-/

namespace WeightedGraph

/-- The table in which every vertex that a visit found lies one entry behind the visited one. -/
def recordLevel (levels : Array (Option Nat)) (visit : Visit) : Array (Option Nat) :=
  let next := (levels.getD visit.vertex none).map (· + 1)
  visit.found.foldl (fun levels v => levels.setIfInBounds v next) levels

/-- The table in which the visited vertex is before every vertex that the visit found. -/
def recordPredecessor (t : Predecessors) (visit : Visit) : Predecessors :=
  visit.found.foldl (fun t v => t.set v visit.vertex) t

namespace Adjacency

variable {W : Type}

/-- The least number of entries from `start` to each vertex, `none` where no way leads. -/
def hopCounts (g : Adjacency W) (start : Vertex) :
    Except GraphError (Array (Option Nat)) := do
  let (visits, _) ← g.breadthVisits (BreadthState.start g.size start)
  return visits.foldl recordLevel ((Array.replicate g.size none).setIfInBounds start (some 0))

/-- A step of the search that ends before it visits `goal`. -/
def breadthNextBefore (g : Adjacency W) (goal : Vertex) (s : BreadthState) :
    Except GraphError (Option (Visit × BreadthState)) :=
  if s.queue.head? = some goal then .ok none else g.breadthNext s

/-- A path with the fewest entries from `start` to `goal`, if a way leads there. -/
def hopPath? (g : Adjacency W) (start goal : Vertex) :
    Except GraphError (Option (List Vertex)) := do
  if goal < g.size then
    let (visits, s) ←
      takeSteps (g.breadthNextBefore goal) g.size (BreadthState.start g.size start)
    return if s.queue.head? = some goal then
      some ((visits.foldl recordPredecessor (Predecessors.none g.size)).pathTo goal)
    else none
  else
    return none

end Adjacency

end WeightedGraph
