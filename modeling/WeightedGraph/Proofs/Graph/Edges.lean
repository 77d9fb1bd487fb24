import Mathlib
import WeightedGraph.Proofs.Adjacency.Walk
import WeightedGraph.Proofs.EdgeList.Check
import WeightedGraph.Proofs.Graph.Filled

/-!
The edges that a filled graph lists.

* `Insertion.edges`: the edges that an insertion adds to the list, one for each direction.
* `Graph.mem_edges_filled`: after a sequence of insertions the graph lists the edges of those that fit.
* `insertedEdges`: the edges of these insertions as they were given, each of them once.
* `Graph.fits_of_mem_edges_filled`: whatever a filled graph lists passes the check.
-/

namespace WeightedGraph

variable {W : Type}

/-- The edges under which a graph lists an insertion. -/
def Insertion.edges (i : Insertion W) : List (Edge W) :=
  if i.directed then [i.edge] else [i.edge, i.edge.flip]

lemma Insertion.edge_mem_edges (i : Insertion W) : i.edge ∈ i.edges := by
  rw [Insertion.edges]
  split <;> exact List.mem_cons_self

lemma Insertion.eq_or_eq_flip_of_mem_edges {i : Insertion W} {f : Edge W} (h : f ∈ i.edges) :
    f = i.edge ∨ f = i.edge.flip := by
  rw [Insertion.edges] at h
  split at h
  · exact Or.inl (List.mem_singleton.1 h)
  · simpa using h

namespace Adjacency

variable {g : Adjacency W} {v : Vertex} {e : Entry W} {f : Edge W}

lemma mem_edges_push :
    f ∈ (g.push v e).edges ↔ f ∈ g.edges ∨ (v < g.size ∧ f = ⟨v, e.target, e.weight⟩) := by
  obtain ⟨x, y, w⟩ := f
  obtain ⟨y', w'⟩ := e
  simp only [mem_edges, size_push, row_push, Edge.mk.injEq]
  by_cases h : v = x ∧ v < g.size
  · obtain ⟨rfl, hv⟩ := h
    simp [hv]
  · rw [if_neg h]
    grind

end Adjacency

namespace Graph

variable {g g' : Graph W} {f : Edge W}

lemma edges_edgeless (n : Nat) : (edgeless n : Graph W).edges = [] := by
  refine List.eq_nil_iff_forall_not_mem.2 fun f hf => ?_
  have hrow := (Adjacency.mem_edges.1 hf).2
  rw [edgeless, Adjacency.row_edgeless] at hrow
  exact absurd hrow List.not_mem_nil

variable [Weight W]

lemma mem_edges_insert {i : Insertion W} (h : g.insert i = .ok g') :
    f ∈ g'.edges ↔ f ∈ g.edges ∨ f ∈ i.edges := by
  obtain ⟨hu, hv, -, rfl⟩ := insert_eq_ok_iff.1 h
  have hu' : i.edge.source < g.adjacency.size := hu
  have hv' : i.edge.target < g.adjacency.size := hv
  cases hd : i.directed with
  | true => simp [edges, addEntry, Adjacency.mem_edges_push, Insertion.edges, hd, hu']
  | false =>
      simp [edges, addEntry, Adjacency.mem_edges_push, Adjacency.size_push, Insertion.edges, hd,
        hu', hv', Edge.flip, or_assoc]

/-- What a filled graph lists: each insertion adds its edges if it fits, and nothing otherwise. -/
theorem mem_edges_filled {n : Nat} {is : List (Insertion W)} :
    f ∈ (filled n is).edges ↔ ∃ i ∈ is, i.edge.Fits n ∧ f ∈ i.edges := by
  have h : f ∈ (filled n is).edges ↔ ∃ i ∈ fitting n is, f ∈ i.edges := by
    refine filled_induction (Q := fun g js => f ∈ g.edges ↔ ∃ i ∈ js, f ∈ i.edges) ?_
      (fun g i g' js hjs hi => ?_) is
    · simp [edges_edgeless]
    · simp [mem_edges_insert hi, hjs, or_and_right, exists_or]
  simp only [h, mem_fitting, and_assoc]

end Graph

variable [Weight W] {n : Nat} {f : Edge W}

/-- The edges of the insertions that fit, in their order and as they were given. -/
def insertedEdges (n : Nat) (is : List (Insertion W)) : List (Edge W) :=
  (is.map Insertion.edge).filter (Edge.Fits n ·)

lemma mem_insertedEdges {is : List (Insertion W)} :
    f ∈ insertedEdges n is ↔ f.Fits n ∧ ∃ i ∈ is, i.edge = f := by
  rw [insertedEdges, List.mem_filter, List.mem_map, decide_eq_true_iff, and_comm]

lemma Edge.Fits.of_mem_edges {i : Insertion W} (h : i.edge.Fits n) (hf : f ∈ i.edges) :
    f.Fits n := by
  rcases Insertion.eq_or_eq_flip_of_mem_edges hf with rfl | rfl
  · exact h
  · exact ⟨h.2.1, h.1, h.2.2⟩

/-- Every edge that a filled graph lists fits it. -/
lemma Graph.fits_of_mem_edges_filled {is : List (Insertion W)} (h : f ∈ (filled n is).edges) :
    f.Fits n := by
  obtain ⟨i, -, hi, hf⟩ := mem_edges_filled.1 h
  exact hi.of_mem_edges hf

end WeightedGraph
