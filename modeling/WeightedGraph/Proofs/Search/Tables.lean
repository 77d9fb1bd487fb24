import Mathlib
import WeightedGraph.Search.Hops

/-!
What the visits of a breadth-first search write into tables.

* `getD_replicate`: the table in the beginning.
* `getD_foldl_setIfInBounds`, `size_foldl_setIfInBounds`: one value written at several places of a
  table, which is how every visit writes.
* `getD_recordLevel`, `get_recordPredecessor`: so what a visit found gets the next level and the
  visited vertex before it, and nothing else changes.
-/

namespace WeightedGraph

variable {α : Type}

/-- In a table that is filled with its default nothing else is read. -/
lemma getD_replicate (n : Nat) (a : α) (i : Nat) : (Array.replicate n a).getD i a = a := by
  rw [Array.getD_eq_getD_getElem?, Array.getElem?_replicate]
  split <;> rfl

lemma size_foldl_setIfInBounds (is : List Nat) (t : Array α) (x : α) :
    (is.foldl (fun t i => t.setIfInBounds i x) t).size = t.size := by
  induction is generalizing t with
  | nil => rfl
  | cons i is ih => exact (ih _).trans Array.size_setIfInBounds

/-- Writing one value at several places of a table leaves the other places as they are. -/
lemma getD_foldl_setIfInBounds (is : List Nat) (t : Array α) (x d : α) (j : Nat) :
    (is.foldl (fun t i => t.setIfInBounds i x) t).getD j d =
      if j ∈ is ∧ j < t.size then x else t.getD j d := by
  induction is generalizing t with
  | nil => simp
  | cons i is ih =>
      have hset : (t.setIfInBounds i x).getD j d =
          if j = i ∧ j < t.size then x else t.getD j d := by
        by_cases hj : j < t.size
        · by_cases hij : i = j
          · simp [hj, hij]
          · simp [hj, hij, Ne.symm hij]
        · simp [hj]
      rw [List.foldl_cons, ih, hset, Array.size_setIfInBounds]
      simp only [List.mem_cons]
      grind

lemma size_recordLevel (levels : Array (Option Nat)) (visit : Visit) :
    (recordLevel levels visit).size = levels.size :=
  size_foldl_setIfInBounds ..

/-- Every vertex that a visit found lies one entry behind the visited one. -/
lemma getD_recordLevel (levels : Array (Option Nat)) (visit : Visit) (v : Vertex) :
    (recordLevel levels visit).getD v none =
      if v ∈ visit.found ∧ v < levels.size then (levels.getD visit.vertex none).map (· + 1)
      else levels.getD v none :=
  getD_foldl_setIfInBounds ..

lemma size_recordPredecessor (t : Predecessors) (visit : Visit) :
    (recordPredecessor t visit).size = t.size :=
  size_foldl_setIfInBounds ..

/-- Before every vertex that a visit found stands the visited one. -/
lemma get_recordPredecessor (t : Predecessors) (visit : Visit) (v : Vertex) :
    (recordPredecessor t visit).get v =
      if v ∈ visit.found ∧ v < t.size then some visit.vertex else t.get v :=
  getD_foldl_setIfInBounds ..

end WeightedGraph
