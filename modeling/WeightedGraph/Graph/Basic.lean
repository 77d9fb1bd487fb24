import WeightedGraph.Adjacency
import WeightedGraph.InPlace

/-!
Graphs that are filled edge by edge, each edge being checked.

* `Graph`: adjacency lists and the number of their entries; `Graph.edgeless` is where each begins.
* `Insertion`: an edge to insert, for one direction or for both.
* `Graph.insertInPlace`: one edge more, or the reason why not; the first endpoint is checked before
  the second, both before the weight. `Graph.atomic_insertInPlace`: a failure changes nothing.
* `Graph.insert`, `Graph.insertAll`: the same with the graph as a result; insertions in turn, past
  those that fail, with the failures.
* `Graph.neighbours`, `Graph.degree`, `Graph.edges`: the lists as they were filled.
* `Graph.same`: equality of two graphs with the weights compared as numbers.
-/

namespace WeightedGraph

/-- A directed multigraph with weights; an undirected edge is an entry in both directions. -/
structure Graph (W : Type) where
  /-- The lists of entries. -/
  adjacency : Adjacency W
  /-- The number of entries in all lists. -/
  entryCount : Nat
  deriving DecidableEq

/-- An edge to insert. -/
structure Insertion (W : Type) where
  /-- The edge. -/
  edge : Edge W
  /-- Whether it leads only from its source to its target. -/
  directed : Bool
  deriving DecidableEq

namespace Graph

variable {W : Type}

/-- The graph of `n` vertices without edges. -/
def edgeless (n : Nat) : Graph W where
  adjacency := Adjacency.edgeless n
  entryCount := 0

/-- The number of vertices. -/
def size (g : Graph W) : Nat :=
  g.adjacency.size

/-- The vertices in increasing order. -/
def vertices (g : Graph W) : List Vertex :=
  List.range g.size

/-- Whether the graph has no vertex. -/
def isEmpty (g : Graph W) : Bool :=
  g.size == 0

/-- Refuses what is no vertex. -/
def requireVertex (g : Graph W) (v : Vertex) : Except GraphError Unit :=
  if v < g.size then .ok () else .error (.invalidVertex v g.size)

/-- Refuses a graph without vertices, and then what is no vertex. -/
def requireStart (g : Graph W) (v : Vertex) : Except GraphError Unit :=
  if g.isEmpty then .error .emptyGraph else g.requireVertex v

/-- The entries of a vertex. -/
def neighbours (g : Graph W) (v : Vertex) : Except GraphError (List (Entry W)) := do
  g.requireVertex v
  return g.adjacency.row v

/-- The number of entries of a vertex. -/
def degree (g : Graph W) (v : Vertex) : Except GraphError Nat := do
  return (← g.neighbours v).length

/-- Every entry as an edge; an undirected edge occurs in both directions. -/
def edges (g : Graph W) : List (Edge W) :=
  g.adjacency.edges

/-! ### Filling a graph -/

/-- The graph with one entry more. -/
def addEntry (g : Graph W) (v : Vertex) (e : Entry W) : Graph W where
  adjacency := g.adjacency.push v e
  entryCount := g.entryCount + 1

variable [Weight W]

/-- Inserts an edge: an entry at its source and, unless it is directed, one at its target. -/
def insertInPlace (i : Insertion W) : InPlace (Graph W) Unit := do
  let ⟨u, v, w⟩ := i.edge
  InPlace.ask (·.requireVertex u)
  InPlace.ask (·.requireVertex v)
  if Weight.isValid w then
    modify (·.addEntry u ⟨v, w⟩)
    if i.directed then return else modify (·.addEntry v ⟨u, w⟩)
  else
    throw (.invalidWeight u v)

/-- The graph with an edge more. -/
def insert (g : Graph W) (i : Insertion W) : Except GraphError (Graph W) := do
  let ((), g) ← InPlace.forget ((insertInPlace i).run g)
  return g

/-- Makes insertions in turn, each in the graph that the one before has left, failed or not. Each
failure is given with its place in the list, counted from `position`. -/
def insertAll (g : Graph W) (insertions : List (Insertion W)) (position : Nat) :
    Graph W × List (Nat × GraphError) :=
  match insertions with
  | [] => (g, [])
  | i :: rest =>
      match (insertInPlace i).run g with
      | .ok () g' => g'.insertAll rest (position + 1)
      | .error e g' =>
          let (g'', failures) := g'.insertAll rest (position + 1)
          (g'', (position, e) :: failures)

/-- Both endpoints and the weight are checked before the first entry, so an insertion that fails
leaves the graph as it was. -/
theorem atomic_insertInPlace (i : Insertion W) : (insertInPlace i).Atomic := by
  refine .ask_bind _ fun _ => .ask_bind _ fun _ => ?_
  split
  · refine InPlace.Succeeds.atomic (.bind (.modify _) fun _ => ?_)
    split
    · exact .pure _
    · exact .modify _
  · exact (InPlace.Reads.throw _).atomic

theorem insert_eq (g : Graph W) (i : Insertion W) : g.insert i =
    g.requireVertex i.edge.source >>= fun _ => g.requireVertex i.edge.target >>= fun _ =>
      if Weight.isValid i.edge.weight then
        let forth := g.addEntry i.edge.source ⟨i.edge.target, i.edge.weight⟩
        .ok (if i.directed then forth
          else forth.addEntry i.edge.target ⟨i.edge.source, i.edge.weight⟩)
      else .error (.invalidWeight i.edge.source i.edge.target) := by
  simp only [insert, insertInPlace, InPlace.forget_ask_bind, bind_assoc]
  refine bind_congr fun _ => bind_congr fun _ => ?_
  split
  · cases i.directed <;> rfl
  · rfl

theorem run_insertInPlace_of_ok {g g' : Graph W} {i : Insertion W} (h : g.insert i = .ok g') :
    (insertInPlace i).run g = .ok () g' := by
  rw [insert] at h
  cases hrun : (insertInPlace i).run g with
  | ok _ t =>
      rw [hrun] at h
      cases h
      rfl
  | error e t =>
      rw [hrun] at h
      cases h

/-- An insertion that fails leaves the graph in which it was made. -/
theorem run_insertInPlace_of_error {g : Graph W} {i : Insertion W} {e : GraphError}
    (h : g.insert i = .error e) : (insertInPlace i).run g = .error e g := by
  rw [insert] at h
  cases hrun : (insertInPlace i).run g with
  | ok _ t =>
      rw [hrun] at h
      cases h
  | error e' t =>
      obtain rfl := atomic_insertInPlace i g e' t hrun
      rw [hrun] at h
      cases h
      rfl

theorem insertAll_cons_of_ok {g g' : Graph W} {i : Insertion W} (h : g.insert i = .ok g')
    (rest : List (Insertion W)) (k : Nat) :
    g.insertAll (i :: rest) k = g'.insertAll rest (k + 1) := by
  rw [insertAll, run_insertInPlace_of_ok h]

/-- The insertions after one that fails are made in the graph as it was. -/
theorem insertAll_cons_of_error {g : Graph W} {i : Insertion W} {e : GraphError}
    (h : g.insert i = .error e) (rest : List (Insertion W)) (k : Nat) :
    g.insertAll (i :: rest) k =
      ((g.insertAll rest (k + 1)).1, (k, e) :: (g.insertAll rest (k + 1)).2) := by
  rw [insertAll, run_insertInPlace_of_error h]

/-- Whether two graphs have the same lists and the same number of entries, the weights compared as
numbers. -/
def same (g h : Graph W) : Bool :=
  g.adjacency.same h.adjacency && g.entryCount == h.entryCount

end Graph

end WeightedGraph
