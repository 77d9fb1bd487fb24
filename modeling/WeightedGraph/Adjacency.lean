import WeightedGraph.Edge
import WeightedGraph.Error

/-!
Adjacency lists, as the searches read them.

* `Entry`: a neighbour and the weight of the way to it.
* `Adjacency`: one list of entries for each vertex; `Adjacency.row` reads one, and is empty outside.
* `Adjacency.WellFormed`: every neighbour is a vertex. A caller's own lists need not be; the store of
  `WeightedGraph.Graph` keeps them so. `Adjacency.forall_mem_row_iff` lets it be decided.
* `Adjacency.push`: one entry more at the end of a list, as `Adjacency.row_push` says.
* `Adjacency.expand`: the entries of a vertex, a fault if one of them leads outside.
* `Adjacency.edges`: every entry as an edge, grouped by the vertex it leaves.
* `Adjacency.negativeEdge?`: the first of them with a negative weight.
-/

namespace WeightedGraph

/-- An entry in the list of a vertex. -/
structure Entry (W : Type) where
  /-- The neighbour that the entry leads to. -/
  target : Vertex
  /-- The weight of the way there. -/
  weight : W
  deriving DecidableEq

/-- Whether two entries lead to the same vertex with numerically equal weights. -/
def Entry.same {W : Type} [Weight W] (e e' : Entry W) : Bool :=
  e.target == e'.target && Weight.same e.weight e'.weight

/-- A list of entries for each vertex. -/
structure Adjacency (W : Type) where
  /-- The lists, by vertex. -/
  rows : Array (List (Entry W))
  deriving DecidableEq

namespace Adjacency

variable {W : Type}

/-- The lists of `n` vertices without entries. -/
def edgeless (n : Nat) : Adjacency W where
  rows := Array.replicate n []

/-- The number of vertices. -/
def size (g : Adjacency W) : Nat :=
  g.rows.size

/-- The entries of a vertex. -/
def row (g : Adjacency W) (v : Vertex) : List (Entry W) :=
  g.rows.getD v []

/-- Every neighbour is a vertex. -/
def WellFormed (g : Adjacency W) : Prop :=
  ∀ v, ∀ e ∈ g.row v, e.target < g.size

theorem row_of_size_le {g : Adjacency W} {v : Vertex} (h : g.size ≤ v) : g.row v = [] := by
  rw [row, Array.getD_eq_getD_getElem?, Array.getElem?_eq_none h]
  rfl

/-- Every entry stands in the list of a vertex. -/
theorem forall_mem_row_iff {g : Adjacency W} {Q : Entry W → Prop} :
    (∀ v, ∀ e ∈ g.row v, Q e) ↔ ∀ v < g.size, ∀ e ∈ g.row v, Q e := by
  refine ⟨fun h v _ => h v, fun h v e he => ?_⟩
  by_cases hv : v < g.size
  · exact h v hv e he
  · rw [row_of_size_le (Nat.le_of_not_lt hv)] at he
    exact absurd he List.not_mem_nil

instance (g : Adjacency W) : Decidable g.WellFormed :=
  decidable_of_iff' _ forall_mem_row_iff

/-- The lists with an entry added at the end of the list of `v`. -/
def push (g : Adjacency W) (v : Vertex) (e : Entry W) : Adjacency W where
  rows := g.rows.modify v (· ++ [e])

theorem size_edgeless (n : Nat) : (edgeless n : Adjacency W).size = n :=
  Array.size_replicate

theorem row_edgeless (n : Nat) (v : Vertex) : (edgeless n : Adjacency W).row v = [] := by
  simp only [row, edgeless, Array.getD_eq_getD_getElem?, Array.getElem?_replicate]
  split <;> rfl

theorem size_push (g : Adjacency W) (v : Vertex) (e : Entry W) : (g.push v e).size = g.size :=
  Array.size_modify

/-- An added entry stands at the end of one list and leaves the others as they are. -/
theorem row_push (g : Adjacency W) (v : Vertex) (e : Entry W) (u : Vertex) :
    (g.push v e).row u = if v = u ∧ v < g.size then g.row u ++ [e] else g.row u := by
  by_cases hu : u < g.rows.size
  · by_cases hvu : v = u
    · simp [row, push, size, hu, hvu, Array.getElem_modify]
    · simp [row, push, hu, hvu, Array.getElem_modify]
  · have hno : ¬ (v = u ∧ v < g.size) := fun h => hu (h.1 ▸ h.2)
    simp [row, push, hu, hno]

/-- The entries of a vertex, all of which have to lead to vertices. -/
def expand (g : Adjacency W) (v : Vertex) : Except GraphError (List (Entry W)) :=
  if (g.row v).all fun e => decide (e.target < g.size) then .ok (g.row v)
  else .error .indexOutOfBounds

/-- Where every neighbour is a vertex no expansion fails. -/
theorem expand_of_wellFormed {g : Adjacency W} (h : g.WellFormed) (v : Vertex) :
    g.expand v = .ok (g.row v) := by
  rw [expand, if_pos]
  exact List.all_eq_true.2 fun e he => decide_eq_true (h v e he)

/-- The neighbours of a vertex, in the order of its entries. -/
def neighbours (g : Adjacency W) (v : Vertex) : Except GraphError (List Vertex) := do
  return (← g.expand v).map Entry.target

/-- Every entry as an edge from the vertex in whose list it stands. -/
def edges (g : Adjacency W) : List (Edge W) :=
  (List.range g.size).flatMap fun v => (g.row v).map fun e => ⟨v, e.target, e.weight⟩

variable [Weight W]

/-- The endpoints of the first edge with a negative weight. -/
def negativeEdge? (g : Adjacency W) : Option (Vertex × Vertex) :=
  (g.edges.find? fun e => Weight.isNegative e.weight).map fun e => (e.source, e.target)

/-- Whether two adjacencies have the same lists, the weights compared as numbers. -/
def same (g h : Adjacency W) : Bool :=
  g.rows.isEqv h.rows fun r r' => r.isEqv r' Entry.same

end Adjacency

end WeightedGraph
