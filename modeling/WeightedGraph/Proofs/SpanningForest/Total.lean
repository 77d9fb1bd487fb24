import Mathlib
import WeightedGraph.Proofs.SpanningForest.Minimality

/-!
The total weight of a spanning forest of bounded integers.

The weights are added in their order, so that all negative ones come before the others. As long as
the weights added have one sign, the sum moves in one direction and meets one bound at most.

* `negativeSum`, `nonnegativeSum`: the exact sums of the weights of either sign.
* `Saturating.val_foldl_add_of_nonpos`, `Saturating.val_foldl_add_of_nonneg`: a sum of weights of
  one sign is the exact sum, cut off at one bound.
* `SpanningForest.val_total`: the total loses what the negative weights go below the least integer
  of the range, since the others are added to what is left.
* `SpanningForest.val_total_eq_min_and_iff`: so it is the integer of the range that is nearest to
  the exact sum only under a condition, and `SpanningForest.total_ne_weightSum` shows a
  representable sum that it misses.
-/

namespace WeightedGraph

variable {r : IntRange} {n : Nat} {es : List (Edge (Saturating r))}

/-- The exact sum of the negative weights. -/
def negativeSum (es : List (Edge (Saturating r))) : Int :=
  weightSum (es.filter fun e => e.weight.val < 0)

/-- The exact sum of the weights that are not negative. -/
def nonnegativeSum (es : List (Edge (Saturating r))) : Int :=
  weightSum (es.filter fun e => ¬ e.weight.val < 0)

lemma weightSum_cons (e : Edge (Saturating r)) (es : List (Edge (Saturating r))) :
    weightSum (e :: es) = e.weight.val + weightSum es :=
  List.sum_cons

lemma weightSum_nonpos (h : ∀ e ∈ es, e.weight.val ≤ 0) : weightSum es ≤ 0 := by
  induction es with
  | nil => exact le_rfl
  | cons e es ih =>
      obtain ⟨he, hes⟩ := List.forall_mem_cons.1 h
      rw [weightSum_cons]
      exact add_nonpos he (ih hes)

lemma weightSum_nonneg (h : ∀ e ∈ es, 0 ≤ e.weight.val) : 0 ≤ weightSum es := by
  refine List.sum_nonneg fun z hz => ?_
  obtain ⟨e, he, rfl⟩ := List.mem_map.1 hz
  exact h e he

lemma negativeSum_nonpos (es : List (Edge (Saturating r))) : negativeSum es ≤ 0 :=
  weightSum_nonpos fun _ he => (of_decide_eq_true (List.mem_filter.1 he).2).le

lemma nonnegativeSum_nonneg (es : List (Edge (Saturating r))) : 0 ≤ nonnegativeSum es :=
  weightSum_nonneg fun _ he => Int.not_lt.1 (of_decide_eq_true (List.mem_filter.1 he).2)

/-- Where some weight is negative, the range holds negative integers. -/
lemma lo_neg_of_negativeSum_neg (h : negativeSum es < 0) : r.lo < 0 := by
  by_contra hlo
  have hnone : (es.filter fun e => e.weight.val < 0) = [] := by
    refine List.filter_eq_nil_iff.2 fun e _ hneg => hlo ?_
    exact e.weight.lo_le.trans_lt (of_decide_eq_true hneg)
  rw [negativeSum, hnone] at h
  exact lt_irrefl _ h

/-- Every weight has one sign. -/
lemma negativeSum_add_nonnegativeSum (es : List (Edge (Saturating r))) :
    negativeSum es + nonnegativeSum es = weightSum es := by
  induction es with
  | nil => rfl
  | cons e es ih =>
      rw [negativeSum, nonnegativeSum] at ih ⊢
      by_cases he : e.weight.val < 0
      · rw [List.filter_cons_of_pos (by simpa using he), List.filter_cons_of_neg (by simpa using he),
          weightSum_cons, weightSum_cons]
        omega
      · rw [List.filter_cons_of_neg (by simpa using he), List.filter_cons_of_pos (by simpa using he),
          weightSum_cons, weightSum_cons]
        omega

/-! ### Sums of one sign -/

namespace Saturating

variable {a : Saturating r}

/-- A sum of weights that are not positive can only leave the range below. -/
theorem val_foldl_add_of_nonpos (h : ∀ e ∈ es, e.weight.val ≤ 0) :
    (es.foldl (fun a e => a + e.weight) a).val = max r.lo (a.val + weightSum es) := by
  induction es generalizing a with
  | nil =>
      have hlo := a.lo_le
      show a.val = max r.lo (a.val + 0)
      omega
  | cons e es ih =>
      obtain ⟨he, hes⟩ := List.forall_mem_cons.1 h
      have hsum := weightSum_nonpos hes
      have hhi := a.le_hi
      rw [List.foldl_cons, ih hes, val_add, weightSum_cons]
      omega

/-- A sum of weights that are not negative can only leave the range above. -/
theorem val_foldl_add_of_nonneg (h : ∀ e ∈ es, 0 ≤ e.weight.val) :
    (es.foldl (fun a e => a + e.weight) a).val = min r.hi (a.val + weightSum es) := by
  induction es generalizing a with
  | nil =>
      have hhi := a.le_hi
      show a.val = min r.hi (a.val + 0)
      omega
  | cons e es ih =>
      obtain ⟨he, hes⟩ := List.forall_mem_cons.1 h
      have hsum := weightSum_nonneg hes
      have hlo := a.lo_le
      have hle := r.lo_nonpos.trans r.hi_nonneg
      rw [List.foldl_cons, ih hes, val_add, weightSum_cons]
      omega

end Saturating

/-! ### The total of a forest -/

/-- In a list whose weights do not decrease the negative ones come first. -/
lemma filter_append_filter_of_sorted
    (h : es.Pairwise fun e f => e.weight.val ≤ f.weight.val) :
    (es.filter fun e => e.weight.val < 0) ++ (es.filter fun e => ¬ e.weight.val < 0) = es := by
  induction es with
  | nil => rfl
  | cons e es ih =>
      obtain ⟨hhead, htail⟩ := List.pairwise_cons.1 h
      by_cases he : e.weight.val < 0
      · rw [List.filter_cons_of_pos (by simpa using he), List.filter_cons_of_neg (by simpa using he),
          List.cons_append, ih htail]
      · -- no later weight is negative either
        have hnone : ∀ f ∈ e :: es, ¬ f.weight.val < 0 := by
          intro f hf
          rcases List.mem_cons.1 hf with rfl | hf
          · exact he
          · have hef := hhead f hf
            omega
        rw [List.filter_eq_nil_iff.2 fun f hf => by simpa using hnone f hf,
          List.filter_eq_self.2 fun f hf => by simpa using hnone f hf, List.nil_append]

namespace SpanningForest

variable {f : SpanningForest (Saturating r)}

/-- The total of weights that do not decrease: the negative ones are added first and cut off below,
and the rest is added to what this leaves and cut off above. -/
theorem val_total (h : f.accepted.Pairwise fun e e' => e.weight.val ≤ e'.weight.val) :
    f.total.val =
      min r.hi (max r.lo (negativeSum f.accepted) + nonnegativeSum f.accepted) := by
  rw [total]
  conv_lhs => rw [← filter_append_filter_of_sorted h]
  rw [List.foldl_append, Saturating.val_foldl_add_of_nonneg, Saturating.val_foldl_add_of_nonpos,
    Saturating.val_zero, Int.zero_add]
  · rfl
  · exact fun _ he => (of_decide_eq_true (List.mem_filter.1 he).2).le
  · exact fun _ he => Int.not_lt.1 (of_decide_eq_true (List.mem_filter.1 he).2)

end SpanningForest

/-- What the total of a result is, and when it is the integer of the range that is nearest to the
exact sum: the negative weights alone must not go below the range, unless there are no others or the
exact sum exceeds the range anyway. Without negative weights this always holds. -/
theorem SpanningForest.val_total_eq_min_and_iff
    {sort : List (Edge (Saturating r)) → List (Edge (Saturating r))} (hsort : SortsByWeight sort)
    {f : SpanningForest (Saturating r)} (h : minimumSpanningForestBy sort n es = .ok f) :
    f.total.val =
        min r.hi (max r.lo (negativeSum f.accepted) + nonnegativeSum f.accepted) ∧
      (f.total = Saturating.clamp r (weightSum f.accepted) ↔
        r.lo ≤ negativeSum f.accepted ∨ nonnegativeSum f.accepted = 0 ∨
          r.hi ≤ weightSum f.accepted) := by
  obtain ⟨-, -, -, hgreedy⟩ := greedy_of_eq_ok hsort h
  have htotal := val_total (((hsort.pairwise es).imp Saturating.order_isLE_iff.1).sublist
    hgreedy.sublist)
  refine ⟨htotal, ?_⟩
  have hneg := negativeSum_nonpos f.accepted
  have hnonneg := nonnegativeSum_nonneg f.accepted
  have hsum := negativeSum_add_nonnegativeSum f.accepted
  have hclamp : (Saturating.clamp r (weightSum f.accepted)).val =
      max r.lo (min (weightSum f.accepted) r.hi) := rfl
  have hrange : negativeSum f.accepted < r.lo → r.lo < 0 := fun hlt =>
    lo_neg_of_negativeSum_neg (hlt.trans_le r.lo_nonpos)
  have hhi := r.hi_nonneg
  have hlo := r.lo_nonpos
  rw [← Saturating.val_injective.eq_iff, htotal, hclamp]
  by_cases hneglo : r.lo ≤ negativeSum f.accepted
  · rw [max_eq_right hneglo]
    omega
  · rw [max_eq_left (Int.not_le.1 hneglo).le]
    have hlo' := hrange (Int.not_le.1 hneglo)
    omega

/-- Weights of either sign whose negative ones stay in the range: the condition holds, although the
others exceed the range by themselves. -/
theorem SpanningForest.val_total_eq_min_and_iff_mixed :
    let edge (u v : Vertex) (w : Int) : Edge (Saturating (IntRange.signed 32)) :=
      ⟨u, v, Saturating.clamp _ w⟩
    let es := [edge 0 1 2147483647, edge 1 2 (-5), edge 2 3 4]
    let f : SpanningForest (Saturating (IntRange.signed 32)) :=
      ⟨4, [edge 1 2 (-5), edge 2 3 4, edge 0 1 2147483647]⟩
    minimumSpanningForest 4 es = .ok f ∧ (IntRange.signed 32).lo ≤ negativeSum f.accepted ∧
      f.total = Saturating.clamp _ (weightSum f.accepted) := by
  intro edge es f
  have h : minimumSpanningForest 4 es = .ok f := by cbv
  have hlo : (IntRange.signed 32).lo ≤ negativeSum f.accepted := by decide
  exact ⟨h, hlo, (val_total_eq_min_and_iff sortsByWeight_sortByWeight h).2.2 (Or.inl hlo)⟩

/-- The sum of the three weights is the least integer of the range, and the total is one more: the
sum of the first two is cut off before the third is added. -/
theorem SpanningForest.total_ne_weightSum :
    let edge (u v : Vertex) (w : Int) : Edge (Saturating (IntRange.signed 32)) :=
      ⟨u, v, Saturating.clamp _ w⟩
    let es := [edge 0 1 (-2147483648), edge 1 2 (-1), edge 2 3 1]
    ∃ f : SpanningForest (Saturating (IntRange.signed 32)), minimumSpanningForest 4 es = .ok f ∧
      weightSum f.accepted = (IntRange.signed 32).lo ∧
      f.total.val = (IntRange.signed 32).lo + 1 := by
  intro edge es
  exact ⟨⟨4, es⟩, by cbv, by decide, by decide⟩

end WeightedGraph
