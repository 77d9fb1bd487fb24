import Mathlib
import WeightedGraph.Weight.Saturating

/-!
The order of bounded integers.

* the instances `Std.TransCmp` and `Std.LawfulEqCmp` for the total order of `Saturating r`: it is a
  linear order, and the numeric comparison is the same one.
* `Saturating.val_add_of_nonneg`: without a negative summand only the upper bound matters.
-/

namespace WeightedGraph

namespace Saturating

variable {r : IntRange} {a b : Saturating r}

lemma val_injective : Function.Injective (Saturating.val (r := r)) := by
  rintro ⟨a, _, _⟩ ⟨b, _, _⟩ rfl
  rfl

lemma order_eq (a b : Saturating r) : Weight.order a b = compare a.val b.val :=
  rfl

lemma compare?_eq (a b : Saturating r) : Weight.compare? a b = some (Weight.order a b) :=
  rfl

instance : Std.TransCmp (Weight.order (W := Saturating r)) where
  eq_swap := by
    intro a b
    rw [order_eq, order_eq]
    exact Std.OrientedCmp.eq_swap
  isLE_trans := by
    intro a b c hab hbc
    rw [order_eq] at hab hbc ⊢
    exact Std.TransCmp.isLE_trans hab hbc

instance : Std.LawfulEqCmp (Weight.order (W := Saturating r)) where
  compare_self := by
    intro a
    rw [order_eq]
    exact Std.ReflCmp.compare_self
  eq_of_compare := by
    intro a b h
    rw [order_eq] at h
    exact val_injective (Std.LawfulEqCmp.eq_of_compare h)

lemma order_isLE_iff : (Weight.order a b).isLE = true ↔ a.val ≤ b.val := by
  rw [order_eq]
  exact Int.isLE_compare

lemma lt_iff : Weight.lt a b = true ↔ a.val < b.val := by
  simp [Weight.lt, compare?_eq, order_eq, Int.compare_eq_lt]

lemma val_add_of_nonneg (ha : 0 ≤ a.val) (hb : 0 ≤ b.val) :
    (a + b).val = min (a.val + b.val) r.hi := by
  have hlo := r.lo_nonpos
  have hhi := r.hi_nonneg
  rw [val_add]
  omega

end Saturating

end WeightedGraph
