import Mathlib
import WeightedGraph.Graph.Basic
import WeightedGraph.Proofs.EdgeList.Check

/-!
What every graph that was filled edge by edge has in common.

* `Graph.requireStart_eq_ok_iff`: where a search may start.
* `Graph.insert_eq_ok_iff`: when an insertion succeeds and what it adds.
* `Graph.fitting`: the insertions of a sequence that succeed. `Graph.insertAll_induction` says that
  a sequence does what those do, one after another.
* `Graph.filled`: the graphs that arise in this way; `Graph.size_filled`, `Graph.wellFormed_filled`.
  `Graph.filled_concat` is an insertion more, which changes nothing if it fails.
-/

namespace WeightedGraph

namespace Adjacency

variable {W : Type} {g : Adjacency W} {u v : Vertex} {e : Entry W}

lemma lt_size_push (hv : v < g.size) : v < (g.push u e).size :=
  Nat.lt_of_lt_of_eq hv (size_push g u e).symm

lemma wellFormed_edgeless (n : Nat) : (edgeless n : Adjacency W).WellFormed := by
  intro v e he
  rw [row_edgeless] at he
  exact absurd he List.not_mem_nil

lemma WellFormed.push (h : g.WellFormed) (he : e.target < g.size) : (g.push u e).WellFormed := by
  intro v f hf
  rw [size_push]
  rw [row_push] at hf
  split at hf
  · rcases List.mem_append.1 hf with hf | hf
    · exact h v f hf
    · exact List.mem_singleton.1 hf ▸ he
  · exact h v f hf

end Adjacency

namespace Graph

variable {W : Type} {g g' : Graph W}

/-- A search may start in a vertex and nowhere else. -/
lemma requireStart_eq_ok_iff {v : Vertex} : g.requireStart v = .ok () ↔ v < g.size := by
  rw [requireStart]
  split
  · next h =>
      have hsize : g.size = 0 := by simpa [isEmpty] using h
      simp [hsize]
  · by_cases hv : v < g.size <;> simp [requireVertex, hv]

variable [Weight W] {n : Nat} {is js : List (Insertion W)}

/-- An insertion succeeds if both endpoints are vertices and the weight is valid. -/
theorem insert_eq_ok_iff {i : Insertion W} : g.insert i = .ok g' ↔
    i.edge.source < g.size ∧ i.edge.target < g.size ∧ Weight.isValid i.edge.weight = true ∧
      g' = if i.directed then g.addEntry i.edge.source ⟨i.edge.target, i.edge.weight⟩
        else (g.addEntry i.edge.source ⟨i.edge.target, i.edge.weight⟩).addEntry i.edge.target
          ⟨i.edge.source, i.edge.weight⟩ := by
  obtain ⟨⟨u, v, w⟩, directed⟩ := i
  by_cases hu : u < g.size
  · by_cases hv : v < g.size
    · by_cases hw : Weight.isValid w = true
      · simp [insert_eq, requireVertex, hu, hv, hw, bind, Except.bind, eq_comm]
      · simp [insert_eq, requireVertex, hu, hv, hw, bind, Except.bind]
    · simp [insert_eq, requireVertex, hu, hv, bind, Except.bind]
  · simp [insert_eq, requireVertex, hu, bind, Except.bind]

/-- An insertion succeeds just when its edge fits. -/
lemma exists_insert_eq_ok_iff {i : Insertion W} :
    (∃ g', g.insert i = .ok g') ↔ i.edge.Fits g.size := by
  simp only [insert_eq_ok_iff, Edge.Fits, exists_and_left, exists_eq, and_true]

lemma size_insert {i : Insertion W} (h : g.insert i = .ok g') : g'.size = g.size := by
  obtain ⟨-, -, -, rfl⟩ := insert_eq_ok_iff.1 h
  split <;> simp only [addEntry, size, Adjacency.size_push]

lemma wellFormed_insert {i : Insertion W} (hg : g.adjacency.WellFormed)
    (h : g.insert i = .ok g') : g'.adjacency.WellFormed := by
  obtain ⟨hu, hv, -, rfl⟩ := insert_eq_ok_iff.1 h
  have hforth := hg.push (u := i.edge.source) (e := ⟨i.edge.target, i.edge.weight⟩) hv
  split
  · exact hforth
  · exact hforth.push (Adjacency.lt_size_push hu)

/-! ### Insertions in turn -/

/-- The insertions of a sequence that succeed in a graph of `n` vertices. -/
def fitting (n : Nat) (is : List (Insertion W)) : List (Insertion W) :=
  is.filter (·.edge.Fits n)

lemma mem_fitting {i : Insertion W} : i ∈ fitting n is ↔ i ∈ is ∧ i.edge.Fits n := by
  rw [fitting, List.mem_filter, decide_eq_true_iff]

lemma fitting_cons_of_fits {i : Insertion W} (h : i.edge.Fits n) :
    fitting n (i :: is) = i :: fitting n is :=
  List.filter_cons_of_pos (decide_eq_true h)

lemma fitting_cons_of_not_fits {i : Insertion W} (h : ¬ i.edge.Fits n) :
    fitting n (i :: is) = fitting n is :=
  List.filter_cons_of_neg (by simpa using h)

/-- What holds after the insertions `js` and goes over to the graph after one more that succeeds
holds after those of a sequence that fit. -/
theorem insertAll_induction {Q : Graph W → List (Insertion W) → Prop} (h : Q g js)
    (hstep : ∀ g i g' js, Q g js → g.insert i = .ok g' → Q g' (js ++ [i]))
    (is : List (Insertion W)) (k : Nat) : Q (g.insertAll is k).1 (js ++ fitting g.size is) := by
  induction is generalizing g js k with
  | nil =>
      rw [fitting, List.filter_nil, List.append_nil]
      exact h
  | cons i is ih =>
      cases hi : g.insert i with
      | ok g' =>
          have hfits : i.edge.Fits g.size := exists_insert_eq_ok_iff.1 ⟨g', hi⟩
          have hrest := ih (hstep g i g' js h hi) (k + 1)
          rw [size_insert hi, List.append_assoc] at hrest
          rw [fitting_cons_of_fits hfits, insertAll_cons_of_ok hi]
          exact hrest
      | error e =>
          have hfits : ¬ i.edge.Fits g.size := fun h => by
            obtain ⟨g', hg'⟩ := exists_insert_eq_ok_iff.2 h
            cases hi.symm.trans hg'
          rw [fitting_cons_of_not_fits hfits, insertAll_cons_of_error hi]
          exact ih h (k + 1)

/-- The graph of `n` vertices after a sequence of insertions. -/
def filled (n : Nat) (is : List (Insertion W)) : Graph W :=
  ((edgeless n).insertAll is 0).1

/-- The same for a graph that is filled from the beginning. -/
lemma filled_induction {Q : Graph W → List (Insertion W) → Prop} (h : Q (edgeless n) [])
    (hstep : ∀ g i g' js, Q g js → g.insert i = .ok g' → Q g' (js ++ [i]))
    (is : List (Insertion W)) : Q (filled n is) (fitting n is) := by
  have hall := insertAll_induction h hstep is 0
  have hsize : (edgeless n : Graph W).size = n := Adjacency.size_edgeless n
  rwa [hsize] at hall

theorem size_filled (n : Nat) (is : List (Insertion W)) : (filled n is).size = n :=
  filled_induction (Q := fun g _ => g.size = n) (Adjacency.size_edgeless n)
    (fun _ _ _ _ hn hi => (size_insert hi).trans hn) is

/-- Every neighbour in a filled graph is a vertex. -/
theorem wellFormed_filled (n : Nat) (is : List (Insertion W)) :
    (filled n is).adjacency.WellFormed :=
  filled_induction (Q := fun g _ => g.adjacency.WellFormed)
    (Adjacency.wellFormed_edgeless n) (fun _ _ _ _ hg hi => wellFormed_insert hg hi) is

lemma insertAll_append (g : Graph W) (is js : List (Insertion W)) (k : Nat) :
    (g.insertAll (is ++ js) k).1 = ((g.insertAll is k).1.insertAll js (k + is.length)).1 := by
  induction is generalizing g k with
  | nil => rfl
  | cons i is ih =>
      have hk : k + (i :: is).length = k + 1 + is.length := by
        rw [List.length_cons]
        omega
      rw [hk]
      cases hi : g.insert i with
      | ok g' =>
          rw [List.cons_append, insertAll_cons_of_ok hi, insertAll_cons_of_ok hi]
          exact ih g' (k + 1)
      | error e =>
          rw [List.cons_append, insertAll_cons_of_error hi, insertAll_cons_of_error hi]
          exact ih g (k + 1)

/-- An insertion more has its effect if it succeeds, and none otherwise. -/
theorem filled_concat (n : Nat) (is : List (Insertion W)) (i : Insertion W) :
    filled n (is ++ [i]) = ((filled n is).insert i).toOption.getD (filled n is) := by
  rw [filled, filled, insertAll_append]
  cases hi : ((edgeless n).insertAll is 0).1.insert i with
  | ok g' =>
      rw [insertAll_cons_of_ok hi]
      rfl
  | error e =>
      rw [insertAll_cons_of_error hi]
      rfl

end Graph

end WeightedGraph
