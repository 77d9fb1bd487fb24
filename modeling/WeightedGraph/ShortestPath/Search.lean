import WeightedGraph.Settings
import WeightedGraph.ShortestPath.Tables

/-!
Shortest paths from one vertex by settling the nearest vertex again and again.

* `Tables.nearest?`: the vertex to settle next as a scan of all vertices finds it; of equally near
  ones the least.
* `Adjacency.scanRounds`: settles one vertex less than there are, each found by a scan.
* `Candidate.before`, `insertCandidate`: the queue, a list of candidates in the total order of their
  distances and then of their vertices.
* `Adjacency.queueRounds`: settles the vertices as they come out of the queue. A vertex may wait
  several times; it counts the first time.
* `ShortestPathTree`, `Adjacency.shortestPathTree`: the tables at the end, and how they are read.
-/

namespace WeightedGraph

/-! ### Scanning all vertices -/

namespace Tables

variable {W : Type} [Weight W]

/-- The nearer one of a candidate and a vertex that is reached and not settled; the candidate
unless the vertex is nearer. -/
def nearer (t : Tables W) (best : Option (Candidate W)) (v : Vertex) : Option (Candidate W) :=
  if t.settled.contains v then best
  else
    match t.distanceOf v, best with
    | none, _ => best
    | some d, none => some ⟨d, v⟩
    | some d, some b => if Weight.le b.distance d then best else some ⟨d, v⟩

/-- The nearest of the vertices that are reached and not settled. -/
def nearest? (t : Tables W) : Option (Candidate W) :=
  (List.range t.distance.size).foldl t.nearer none

end Tables

namespace Adjacency

variable {W : Type} [Weight W]

/-- Settles the nearest vertex, `rounds` times or until no vertex is left. -/
def scanRounds (g : Adjacency W) : Nat → Tables W → Except GraphError (Tables W)
  | 0, t => .ok t
  | rounds + 1, t =>
      match t.nearest? with
      | none => .ok t
      | some c => do
          let (t, _) ← t.settle g c.vertex
          g.scanRounds rounds t

end Adjacency

/-! ### A queue of candidates -/

section Queue

variable {W : Type} [Weight W]

/-- Whether a candidate comes out of the queue no later than another one. -/
def Candidate.before (a b : Candidate W) : Bool :=
  ((Weight.order a.distance b.distance).then (compare a.vertex b.vertex)).isLE

/-- The queue with a candidate more, at its place. -/
def insertCandidate (queue : List (Candidate W)) (c : Candidate W) : List (Candidate W) :=
  match queue with
  | [] => [c]
  | d :: rest => if c.before d then c :: d :: rest else d :: insertCandidate rest c

/-- Settles the vertices that come out of the queue, at most `fuel` candidates being taken. -/
def Adjacency.queueRounds (g : Adjacency W) :
    Nat → List (Candidate W) → Tables W → Except GraphError (Tables W)
  | 0, _, t => .ok t
  | _ + 1, [], t => .ok t
  | fuel + 1, c :: queue, t =>
      if t.settled.contains c.vertex then g.queueRounds fuel queue t
      else do
        let (t, improved) ← t.settle g c.vertex
        g.queueRounds fuel (improved.foldl insertCandidate queue) t

end Queue

/-! ### Results -/

/-- The shortest paths from a vertex. -/
structure ShortestPathTree (W : Type) where
  /-- Where all paths begin. -/
  source : Vertex
  /-- The distance of each vertex. -/
  distance : Array (Distance W)
  /-- The vertex before each vertex on its path. -/
  predecessor : Predecessors

namespace ShortestPathTree

variable {W : Type}

/-- The distance of a vertex, `none` for what is no vertex. -/
def distance? (p : ShortestPathTree W) (v : Vertex) : Option (Distance W) :=
  p.distance[v]?

/-- Whether a path leads to a vertex. -/
def isReachable (p : ShortestPathTree W) (v : Vertex) : Bool :=
  (p.distance.getD v none).isSome

/-- The number of vertices to which a path leads. -/
def reachableCount (p : ShortestPathTree W) : Nat :=
  p.distance.toList.countP Option.isSome

/-- The vertex before a vertex on its path. -/
def predecessor? (p : ShortestPathTree W) (v : Vertex) : Option Vertex :=
  p.predecessor.get v

/-- The path to a vertex. -/
def pathTo? (p : ShortestPathTree W) (v : Vertex) : Option (List Vertex) :=
  if p.isReachable v then some (p.predecessor.pathTo v) else none

end ShortestPathTree

namespace Adjacency

variable {W : Type} [Weight W]

/-- The tables at the end of a search from `source`. Each entry makes at most one candidate beside
the source, so one more than the number of entries is fuel enough for the queue. -/
def finalTables (g : Adjacency W) (source : Vertex) (frontier : Frontier) :
    Except GraphError (Tables W) :=
  let t := Tables.start g.size source
  match frontier with
  | .scan => g.scanRounds (g.size - 1) t
  | .queue => g.queueRounds (g.edges.length + 1) [⟨0, source⟩] t

/-- The shortest paths from `source`; from what is no vertex no path leads anywhere. -/
def shortestPathTree (g : Adjacency W) (source : Vertex) (frontier : Frontier) :
    Except GraphError (ShortestPathTree W) := do
  let t ← if source < g.size then g.finalTables source frontier else .ok (Tables.start g.size source)
  return ⟨source, t.distance, t.predecessor⟩

end Adjacency

end WeightedGraph
