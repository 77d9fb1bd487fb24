import WeightedGraph.Adjacency
import WeightedGraph.IndexSet
import WeightedGraph.Search.Steps

/-!
Depth-first search, with a stack and by recursion.

* `DepthState`, `Adjacency.depthNext`: the search with a stack. A vertex may wait several times and
  is visited at the first of them.
* `Adjacency.depthOrder`: the vertices that can be reached from a vertex in the order of that search.
* `DepthRecord`, `Adjacency.descend`: the search by recursion, which fails below a given depth.
* `Adjacency.recursiveDepthOrder`: the vertices in the order of the recursive search; the start has
  depth `1`.
-/

namespace WeightedGraph

/-- The state of a depth-first search with a stack. -/
structure DepthState where
  /-- The vertices visited so far. -/
  visited : IndexSet
  /-- The vertices that wait, the next one first; some may have been visited since. -/
  stack : List Vertex

/-- The state in which a search begins; a start that is no vertex leaves nothing to visit. -/
def DepthState.start (size : Nat) (start : Vertex) : DepthState where
  visited := IndexSet.empty size
  stack := if start < size then [start] else []

/-- What a recursive search has done so far. -/
structure DepthRecord where
  /-- The vertices visited so far. -/
  visited : IndexSet
  /-- The same vertices, the last one first. -/
  order : List Vertex

/-- The record with one visit more. -/
def DepthRecord.mark (s : DepthRecord) (v : Vertex) : DepthRecord where
  visited := s.visited.insert v
  order := v :: s.order

namespace Adjacency

variable {W : Type}

/-- Visits the first vertex of the stack that has not been visited, and lets its neighbours wait
that have not either, in the order of its entries. -/
def depthNext (g : Adjacency W) (s : DepthState) :
    Except GraphError (Option (Vertex × DepthState)) :=
  match s.stack.dropWhile s.visited.contains with
  | [] => .ok none
  | v :: rest => do
      let neighbours ← g.neighbours v
      let visited := s.visited.insert v
      return some (v, ⟨visited, neighbours.filter (fun u => !visited.contains u) ++ rest⟩)

/-- The vertices reached from `start` in the order of their visits. Each is visited once, so there
are no more visits than vertices. -/
def depthOrder (g : Adjacency W) (start : Vertex) : Except GraphError (List Vertex) := do
  let (order, _) ← takeSteps g.depthNext g.size (DepthState.start g.size start)
  return order

/-- Visits `v`, and from each of its neighbours in turn, unless it has been visited by then, what can
be reached; fails with `limit` where no depth is left. -/
def descend (g : Adjacency W) (limit : Nat) :
    Nat → Vertex → DepthRecord → Except GraphError DepthRecord
  | 0, _, _ => .error (.recursionLimit limit)
  | depth + 1, v, s =>
      (g.row v).foldlM
        (fun s e => do
          if ← s.visited.tryContains e.target then return s
          else g.descend limit depth e.target s)
        (s.mark v)

/-- The vertices reached from `start` in the order of the recursive search, which may go `maxDepth`
deep. -/
def recursiveDepthOrder (g : Adjacency W) (start : Vertex) (maxDepth : Nat) :
    Except GraphError (List Vertex) := do
  if start < g.size then
    let s ← g.descend maxDepth maxDepth start ⟨IndexSet.empty g.size, []⟩
    return s.order.reverse
  else
    return []

end Adjacency

end WeightedGraph
