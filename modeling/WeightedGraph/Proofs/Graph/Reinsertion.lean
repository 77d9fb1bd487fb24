import Mathlib
import WeightedGraph.Proofs.Graph.History

/-!
A filled graph is determined by the edges that it lists.

The list of edges is grouped by the vertex that an edge leaves, whatever the order of the insertions
was. Within a group it keeps the order of the entries, so a graph that is filled again from the list
has the same lists.

* `Adjacency.flatMap_edges_eq_row`: the entries of a vertex are those of the listed edges that leave
  it, in their order. `Adjacency.eq_of_edges_eq`: so the number of vertices and the edges determine
  the lists.
* `Graph.filled_eq_of_adjacency_eq`: filled graphs with the same lists have the same count of
  entries.
* `Graph.insertAll_edges_filled`: the listed edges, inserted one way each into a graph without
  edges, give the graph back.
-/

namespace WeightedGraph

variable {W : Type}

lemma flatMap_range_ite {α : Type} (r : Nat → List α) (x k : Nat) :
    (List.range k).flatMap (fun v => if v = x then r v else []) = if x < k then r x else [] := by
  induction k with
  | zero => rfl
  | succ k ih =>
      rw [List.range_succ, List.flatMap_append, List.flatMap_singleton, ih]
      rcases Nat.lt_trichotomy x k with hlt | rfl | hgt
      · rw [if_pos hlt, if_neg (Nat.ne_of_gt hlt), if_pos (Nat.lt_succ_of_lt hlt), List.append_nil]
      · rw [if_neg (Nat.lt_irrefl x), if_pos rfl, if_pos (Nat.lt_succ_self x), List.nil_append]
      · rw [if_neg (Nat.lt_asymm hgt), if_neg (Nat.ne_of_lt hgt),
          if_neg (Nat.not_lt.2 hgt), List.nil_append]

lemma Insertion.entriesAt_directed (e : Edge W) (x : Vertex) :
    (⟨e, true⟩ : Insertion W).entriesAt x =
      if e.source = x then [⟨e.target, e.weight⟩] else [] := by
  simp [entriesAt]

namespace Adjacency

variable {g h : Adjacency W}

lemma ext_row (hsize : g.size = h.size) (hrow : ∀ v, g.row v = h.row v) : g = h := by
  obtain ⟨rows⟩ := g
  obtain ⟨rows'⟩ := h
  refine congrArg mk (Array.ext hsize fun v hv hv' => ?_)
  simpa [row, hv, hv'] using hrow v

/-- The entries of a vertex are those of the listed edges that leave it. -/
theorem flatMap_edges_eq_row (g : Adjacency W) (x : Vertex) :
    g.edges.flatMap (fun e => (⟨e, true⟩ : Insertion W).entriesAt x) = g.row x := by
  have hgroup : ∀ v, ((g.row v).map fun e => (⟨v, e.target, e.weight⟩ : Edge W)).flatMap
      (fun e => (⟨e, true⟩ : Insertion W).entriesAt x) = if v = x then g.row v else [] := by
    intro v
    simp only [List.flatMap_map, Insertion.entriesAt_directed]
    split <;> simp
  rw [edges, List.flatMap_assoc]
  simp only [hgroup, flatMap_range_ite]
  split
  · rfl
  · next hx => exact (row_of_size_le (Nat.le_of_not_lt hx)).symm

/-- The number of vertices and the edges determine the lists. -/
theorem eq_of_edges_eq (hsize : g.size = h.size) (hedges : g.edges = h.edges) : g = h :=
  ext_row hsize fun x => by rw [← flatMap_edges_eq_row, hedges, flatMap_edges_eq_row]

end Adjacency

namespace Graph

variable [Weight W] {n m : Nat} {is js : List (Insertion W)}

/-- Filled graphs with the same lists have the same count of entries, which is their number. -/
lemma filled_eq_of_adjacency_eq (h : (filled n is).adjacency = (filled m js).adjacency) :
    filled n is = filled m js := by
  have hcount : (filled n is).entryCount = (filled m js).entryCount := by
    rw [← length_edges_filled, ← length_edges_filled, edges, edges, h]
  show mk (filled n is).adjacency (filled n is).entryCount =
    mk (filled m js).adjacency (filled m js).entryCount
  rw [h, hcount]

/-- Insertions that all fit are made without a failure. -/
lemma insertAll_of_fits {g : Graph W} (h : ∀ i ∈ is, i.edge.Fits g.size) (k : Nat) :
    (g.insertAll is k).2 = [] := by
  induction is generalizing g k with
  | nil => rfl
  | cons i is ih =>
      obtain ⟨hi, his⟩ := List.forall_mem_cons.1 h
      obtain ⟨g', hg'⟩ := exists_insert_eq_ok_iff.2 hi
      rw [insertAll_cons_of_ok hg']
      exact ih (size_insert hg' ▸ his) (k + 1)

/-- The edges that a filled graph lists, inserted one way each and in the order of the list, all fit
into a graph without edges and give the same graph again. -/
theorem insertAll_edges_filled (n : Nat) (is : List (Insertion W)) :
    (edgeless n).insertAll ((filled n is).edges.map fun e => ⟨e, true⟩) 0 = (filled n is, []) := by
  set js : List (Insertion W) := (filled n is).edges.map fun e => ⟨e, true⟩ with hjs
  have hfits : ∀ j ∈ js, j.edge.Fits n := by
    intro j hj
    obtain ⟨e, he, rfl⟩ := List.mem_map.1 hj
    exact fits_of_mem_edges_filled he
  have hrow : ∀ x, (filled n js).adjacency.row x = (filled n is).adjacency.row x := by
    intro x
    rw [row_filled, fitting, List.filter_eq_self.2 fun j hj => decide_eq_true (hfits j hj), hjs,
      List.flatMap_map]
    exact Adjacency.flatMap_edges_eq_row _ x
  have hsize : (filled n js).size = (filled n is).size :=
    (size_filled n js).trans (size_filled n is).symm
  have hsame : filled n js = filled n is :=
    filled_eq_of_adjacency_eq (Adjacency.ext_row hsize hrow)
  have hedgeless : (edgeless n : Graph W).size = n := Adjacency.size_edgeless n
  exact Prod.ext hsame (insertAll_of_fits (hedgeless.symm ▸ hfits) 0)

end Graph

end WeightedGraph
