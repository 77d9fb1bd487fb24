import WeightedGraph.Graph.Basic
import WeightedGraph.Search.Components
import WeightedGraph.Search.Cycle
import WeightedGraph.Search.Depth
import WeightedGraph.Search.Hops
import WeightedGraph.ShortestPath.Search
import WeightedGraph.SpanningForest

/-!
The searches of a graph that was filled with checked edges.

Each of them first checks the vertices that it is given: a search that starts in a vertex refuses a
graph without vertices, then what is no vertex; shortest paths refuse a negative weight next.
-/

namespace WeightedGraph

namespace Graph

variable {W : Type}

/-- The vertices reached from `start`, breadth first. -/
def breadthOrder (g : Graph W) (start : Vertex) : Except GraphError (List Vertex) := do
  g.requireStart start
  g.adjacency.breadthOrder start

/-- The vertices reached from `start`, depth first. -/
def depthOrder (g : Graph W) (start : Vertex) : Except GraphError (List Vertex) := do
  g.requireStart start
  g.adjacency.depthOrder start

/-- The vertices reached from `start`, depth first in the way the settings say. -/
def depthOrderWith (g : Graph W) (settings : Settings) (start : Vertex) :
    Except GraphError (List Vertex) := do
  match settings.depth with
  | .iterative => g.depthOrder start
  | .recursive =>
      g.requireStart start
      g.adjacency.recursiveDepthOrder start settings.recursionLimit

/-- The vertices reached from `start`, depth first by recursion up to the standard limit. -/
def recursiveDepthOrder (g : Graph W) (start : Vertex) : Except GraphError (List Vertex) :=
  g.depthOrderWith { Settings.standard with depth := .recursive } start

/-- The least number of entries from `start` to each vertex. -/
def hopCounts (g : Graph W) (start : Vertex) : Except GraphError (Array (Option Nat)) := do
  g.requireStart start
  g.adjacency.hopCounts start

/-- A path with the fewest entries between two vertices. -/
def hopPath? (g : Graph W) (start goal : Vertex) : Except GraphError (Option (List Vertex)) := do
  g.requireStart start
  g.requireVertex goal
  g.adjacency.hopPath? start goal

/-- The number of connected components. -/
def componentCount (g : Graph W) : Except GraphError Nat :=
  g.adjacency.componentCount

/-- The connected components. -/
def components (g : Graph W) : Except GraphError (List (List Vertex)) :=
  g.adjacency.components

/-- A cycle, if there is one. -/
def cycle? (g : Graph W) : Except GraphError (Option (List Vertex)) :=
  g.adjacency.cycle?

/-- Whether there is a cycle. -/
def isCyclic (g : Graph W) : Except GraphError Bool :=
  g.adjacency.isCyclic

variable [Weight W]

/-- The shortest paths from `source`, with the frontier that the settings say. -/
def shortestPathTreeWith (g : Graph W) (settings : Settings) (source : Vertex) :
    Except GraphError (ShortestPathTree W) := do
  g.requireStart source
  match g.adjacency.negativeEdge? with
  | some (u, v) => throw (.negativeWeight u v)
  | none => g.adjacency.shortestPathTree source settings.frontier

/-- The shortest paths from `source`. -/
def shortestPathTree (g : Graph W) (source : Vertex) : Except GraphError (ShortestPathTree W) :=
  g.shortestPathTreeWith Settings.standard source

/-- The forest of least weight in the graph, where the entries have their turns as `sort` puts
them. -/
def spanningForestBy (sort : List (Edge W) → List (Edge W)) (g : Graph W) :
    Except GraphError (SpanningForest W) :=
  minimumSpanningForestBy sort g.size g.edges

/-- The forest of least weight in the graph, every entry being an edge. -/
def spanningForest (g : Graph W) : Except GraphError (SpanningForest W) :=
  minimumSpanningForest g.size g.edges

end Graph

end WeightedGraph
