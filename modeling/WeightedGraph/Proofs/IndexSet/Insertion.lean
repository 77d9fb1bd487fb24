import Mathlib
import WeightedGraph.IndexSet

/-!
Insertions into a set of numbers, and what they leave absent.

* `IndexSet.absent`: the numbers below the capacity that are not members. Searches that insert what
  they find end because this set shrinks.
* `IndexSet.insertNew_append`, `IndexSet.contains_insertNew`, `IndexSet.mem_insertNew`,
  `IndexSet.nodup_insertNew`, `IndexSet.insertNew_snd_eq_eraseDups`: which numbers of a list are new,
  and that each of them is collected once, where it first occurs.
* `IndexSet.card_absent_insertNew`: each of them was absent before.
* `IndexSet.IsUnion.insertNew`: the numbers that are new to a union of two sets are those that are
  new to the one, less the members of the other.
-/

namespace WeightedGraph

namespace IndexSet

variable {s : IndexSet} {i : Nat}

/-- The numbers below the capacity that are not members. -/
def absent (s : IndexSet) : Finset Nat :=
  (Finset.range s.capacity).filter fun i => s.contains i = false

lemma mem_absent : i ∈ s.absent ↔ i < s.capacity ∧ s.contains i = false := by
  rw [absent, Finset.mem_filter, Finset.mem_range]

lemma lt_capacity_of_contains (h : s.contains i = true) : i < s.capacity := by
  rw [contains, Bool.and_eq_true] at h
  exact of_decide_eq_true h.1

lemma absent_insert (hi : i < s.capacity) : (s.insert i).absent = s.absent.erase i := by
  ext j
  rw [Finset.mem_erase, mem_absent, mem_absent, capacity_insert, contains_insert,
    Bool.or_eq_false_iff, decide_eq_false_iff_not]
  grind

lemma card_absent_insert (hi : i < s.capacity) (hs : s.contains i = false) :
    (s.insert i).absent.card + 1 = s.absent.card := by
  rw [absent_insert hi]
  exact Finset.card_erase_add_one (mem_absent.2 ⟨hi, hs⟩)

lemma card_absent_empty (n : Nat) : (empty n).absent.card = n := by
  have h : (empty n).absent = Finset.range n := by
    ext i
    rw [mem_absent, contains_empty, Finset.mem_range]
    exact and_iff_left rfl
  rw [h, Finset.card_range]

lemma card_absent_le (s : IndexSet) : s.absent.card ≤ s.capacity := by
  have h := Finset.card_filter_le (Finset.range s.capacity) fun i => s.contains i = false
  rwa [Finset.card_range] at h

/-! ### Inserting a list -/

variable {is js : List Nat} {j : Nat}

lemma insertNew_cons_of_contains (h : s.contains i = true) :
    s.insertNew (i :: is) = s.insertNew is :=
  if_pos h

lemma insertNew_cons_of_not_contains (h : s.contains i = false) :
    s.insertNew (i :: is) =
      (((s.insert i).insertNew is).1, i :: ((s.insert i).insertNew is).2) :=
  if_neg (by simp [h])

lemma insertNew_of_forall_contains (h : ∀ i ∈ is, s.contains i = true) :
    s.insertNew is = (s, []) := by
  induction is with
  | nil => rfl
  | cons i is ih =>
      obtain ⟨hi, his⟩ := List.forall_mem_cons.1 h
      rw [insertNew_cons_of_contains hi, ih his]

lemma capacity_insertNew (s : IndexSet) (is : List Nat) :
    (s.insertNew is).1.capacity = s.capacity := by
  induction is generalizing s with
  | nil => rfl
  | cons i is ih =>
      cases h : s.contains i with
      | true =>
          rw [insertNew_cons_of_contains h]
          exact ih s
      | false =>
          rw [insertNew_cons_of_not_contains h]
          exact (ih _).trans (capacity_insert s i)

/-- The numbers of two lists one after the other. -/
theorem insertNew_append (s : IndexSet) (is js : List Nat) :
    s.insertNew (is ++ js) =
      (((s.insertNew is).1.insertNew js).1,
        (s.insertNew is).2 ++ ((s.insertNew is).1.insertNew js).2) := by
  induction is generalizing s with
  | nil => rfl
  | cons i is ih =>
      cases h : s.contains i with
      | true =>
          rw [List.cons_append, insertNew_cons_of_contains h, insertNew_cons_of_contains h, ih]
      | false =>
          rw [List.cons_append, insertNew_cons_of_not_contains h,
            insertNew_cons_of_not_contains h, ih]
          rfl

lemma contains_insert_iff (hi : i < s.capacity) :
    (s.insert i).contains j = true ↔ s.contains j = true ∨ j = i := by
  rw [contains_insert, Bool.or_eq_true, decide_eq_true_iff, and_iff_left hi, @eq_comm _ i j]

lemma contains_insert_self (hi : i < s.capacity) : (s.insert i).contains i = true :=
  (contains_insert_iff hi).2 (Or.inr rfl)

/-- All numbers of the list become members. -/
theorem contains_insertNew (h : ∀ i ∈ is, i < s.capacity) :
    (s.insertNew is).1.contains j = true ↔ s.contains j = true ∨ j ∈ is := by
  induction is generalizing s with
  | nil => simp [insertNew]
  | cons i is ih =>
      obtain ⟨hi, his⟩ := List.forall_mem_cons.1 h
      cases hc : s.contains i with
      | true =>
          rw [insertNew_cons_of_contains hc, ih his, List.mem_cons]
          grind
      | false =>
          rw [insertNew_cons_of_not_contains hc, ih (by simpa [capacity_insert] using his),
            contains_insert_iff hi, List.mem_cons, or_assoc]

/-- The new numbers are those that were no members. -/
theorem mem_insertNew (h : ∀ i ∈ is, i < s.capacity) :
    j ∈ (s.insertNew is).2 ↔ j ∈ is ∧ s.contains j = false := by
  induction is generalizing s with
  | nil => simp [insertNew]
  | cons i is ih =>
      obtain ⟨hi, his⟩ := List.forall_mem_cons.1 h
      cases hc : s.contains i with
      | true =>
          rw [insertNew_cons_of_contains hc, ih his, List.mem_cons]
          grind
      | false =>
          have hins := contains_insert_iff hi (j := j)
          rw [insertNew_cons_of_not_contains hc, List.mem_cons,
            ih (by simpa [capacity_insert] using his), List.mem_cons]
          grind

/-- Each new number is collected once. -/
theorem nodup_insertNew (h : ∀ i ∈ is, i < s.capacity) : (s.insertNew is).2.Nodup := by
  induction is generalizing s with
  | nil => exact List.nodup_nil
  | cons i is ih =>
      obtain ⟨hi, his⟩ := List.forall_mem_cons.1 h
      cases hc : s.contains i with
      | true =>
          rw [insertNew_cons_of_contains hc]
          exact ih his
      | false =>
          have his' : ∀ k ∈ is, k < (s.insert i).capacity := by simpa [capacity_insert] using his
          rw [insertNew_cons_of_not_contains hc, List.nodup_cons, mem_insertNew his']
          refine ⟨fun hmem => ?_, ih his'⟩
          rw [contains_insert_self hi] at hmem
          exact Bool.false_ne_true hmem.2.symm

/-- The new numbers are those that were no members, each in the place where it first occurs. -/
theorem insertNew_snd_eq_eraseDups (h : ∀ i ∈ is, i < s.capacity) :
    (s.insertNew is).2 = (is.filter fun i => !s.contains i).eraseDups := by
  induction is generalizing s with
  | nil => rfl
  | cons i is ih =>
      obtain ⟨hi, his⟩ := List.forall_mem_cons.1 h
      cases hc : s.contains i with
      | true =>
          rw [insertNew_cons_of_contains hc, List.filter_cons_of_neg (by simp [hc])]
          exact ih his
      | false =>
          rw [insertNew_cons_of_not_contains hc, List.filter_cons_of_pos (by simp [hc]),
            List.eraseDups_cons, ih (by simpa [capacity_insert] using his), List.filter_filter]
          have hrest : ∀ j ∈ is, (!(s.insert i).contains j) = (!j == i && !s.contains j) := by
            intro j _
            rw [contains_insert]
            rcases eq_or_ne j i with rfl | hji
            · simp [hi]
            · simp [hji, hji.symm]
          rw [List.filter_congr hrest]

/-- The new numbers were absent before and are not absent any more. -/
theorem card_absent_insertNew (h : ∀ i ∈ is, i < s.capacity) :
    (s.insertNew is).1.absent.card + (s.insertNew is).2.length = s.absent.card := by
  induction is generalizing s with
  | nil => rfl
  | cons i is ih =>
      obtain ⟨hi, his⟩ := List.forall_mem_cons.1 h
      cases hc : s.contains i with
      | true =>
          rw [insertNew_cons_of_contains hc]
          exact ih his
      | false =>
          have hrest := ih (s := s.insert i) (by simpa [capacity_insert] using his)
          have hcard := card_absent_insert hi hc
          rw [insertNew_cons_of_not_contains hc]
          dsimp only [List.length_cons]
          omega

/-! ### Inserting into a union -/

/-- `t` has the members of `s` and those of `r`. -/
structure IsUnion (s r t : IndexSet) : Prop where
  capacity_eq : t.capacity = s.capacity
  contains_eq : ∀ i, t.contains i = (s.contains i || r.contains i)

namespace IsUnion

variable {r t : IndexSet}

lemma empty_left (r : IndexSet) : IsUnion (empty r.capacity) r r where
  capacity_eq := rfl
  contains_eq i := by rw [contains_empty, Bool.false_or]

lemma insert (h : IsUnion s r t) (i : Nat) : IsUnion (s.insert i) r (t.insert i) where
  capacity_eq := by rw [capacity_insert, capacity_insert, h.capacity_eq]
  contains_eq j := by
    rw [contains_insert, contains_insert, h.contains_eq, h.capacity_eq, Bool.or_right_comm]

/-- The union has the members of `r` already. -/
lemma insert_left (h : IsUnion s r t) (hi : r.contains i = true) : IsUnion (s.insert i) r t where
  capacity_eq := h.capacity_eq.trans (capacity_insert s i).symm
  contains_eq j := by
    rw [contains_insert, h.contains_eq]
    rcases eq_or_ne i j with rfl | hij
    · rw [hi, Bool.or_true, Bool.or_true]
    · rw [decide_eq_false fun hij' => hij hij'.1, Bool.or_false]

/-- New to the union are the numbers that are new to `s`, in the same order, less those of `r`. -/
theorem insertNew (h : IsUnion s r t) (is : List Nat) :
    IsUnion (s.insertNew is).1 r (t.insertNew is).1 ∧
      (t.insertNew is).2 = (s.insertNew is).2.filter fun i => !r.contains i := by
  induction is generalizing s t with
  | nil => exact ⟨h, rfl⟩
  | cons i is ih =>
      have ht := h.contains_eq i
      cases hs : s.contains i with
      | true =>
          rw [hs, Bool.true_or] at ht
          rw [insertNew_cons_of_contains hs, insertNew_cons_of_contains ht]
          exact ih h
      | false =>
          rw [hs, Bool.false_or] at ht
          rw [insertNew_cons_of_not_contains hs]
          cases hr : r.contains i with
          | true =>
              rw [insertNew_cons_of_contains (ht.trans hr), List.filter_cons_of_neg (by simp [hr])]
              exact ih (h.insert_left hr)
          | false =>
              rw [insertNew_cons_of_not_contains (ht.trans hr),
                List.filter_cons_of_pos (by simp [hr])]
              obtain ⟨hunion, hnew⟩ := ih (h.insert i)
              exact ⟨hunion, congrArg (i :: ·) hnew⟩

end IsUnion

end IndexSet

end WeightedGraph
