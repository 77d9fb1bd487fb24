import Mathlib
import WeightedGraph.Weight.Binary

/-!
Binary numbers on which the two comparisons agree.

The total order tells the two zeros apart and places every NaN; the numeric comparison does neither.
On all other numbers they are the same, and a sum that begins with such a number and goes on with
finite ones leads to such a number again, be it that it is rounded to an infinity.

* the instances `Std.TransCmp` and `Std.LawfulEqCmp` for the total order of `Binary f`: it is a
  linear order.
* `Binary.isNaN_add`: a number that is no NaN and a finite one do not add up to a NaN.
* `Binary.IsNegativeZero`: the negative zero. `IsNegativeZero.of_add` says that it is no other sum
  than that of two negative zeros.
* `Binary.Proper`: neither a NaN nor the negative zero. `Proper.compare?_eq` is the agreement of the
  comparisons, `Proper.add` the sum.
-/

namespace WeightedGraph

/-! ### Rounding -/

namespace BinaryFormat

variable {f : BinaryFormat} {m u : Nat}

lemma fractions_pos (f : BinaryFormat) : 0 < f.fractions := by
  rw [fractions, Nat.one_shiftLeft]
  exact Nat.two_pow_pos _

lemma infinity_pos (f : BinaryFormat) : 0 < f.infinity := by
  have hone : 1 < f.exponents := by
    rw [exponents, Nat.one_shiftLeft]
    exact Nat.one_lt_two_pow (Nat.ne_of_gt (Nat.lt_of_succ_lt f.exponentBits_pos))
  exact Nat.mul_pos (Nat.sub_pos_of_lt hone) f.fractions_pos

lemma round_le_infinity (f : BinaryFormat) (u : Nat) : f.round u ≤ f.infinity :=
  Nat.min_le_left _ _

/-- What is no zero is not rounded to zero: every unit below the first exponent is a magnitude. -/
lemma round_pos (hu : 0 < u) : 0 < f.round u := by
  refine Nat.lt_min.2 ⟨f.infinity_pos, ?_⟩
  rcases Nat.eq_zero_or_pos (Nat.log2 u - f.fractionBits) with hshift | hshift
  · simpa [hshift, roundHalfEven, Nat.mod_one] using hu
  · exact Nat.add_pos_left (Nat.mul_pos hshift f.fractions_pos) _

/-- Only the magnitude zero has the value zero. -/
lemma units_pos (hm : 0 < m) : 0 < f.units m := by
  have hsignificand : 0 < f.significand m := by
    rw [significand]
    split
    · exact hm
    · exact Nat.add_pos_left f.fractions_pos _
  rw [units, Nat.shiftLeft_eq]
  exact Nat.mul_pos hsignificand (Nat.two_pow_pos _)

end BinaryFormat

namespace Binary

variable {f : BinaryFormat} {a b : Binary f} {z : Int} {zeroSign : Bool}

/-! ### The total order -/

lemma orderKey_injective : Function.Injective (orderKey (f := f)) := by
  rintro ⟨s, m, hm⟩ ⟨s', m', hm'⟩ h
  cases s <;> cases s' <;> simp [orderKey] at h ⊢ <;> omega

instance : Std.TransCmp (Weight.order (W := Binary f)) :=
  inferInstanceAs (Std.TransCmp (compareOn orderKey))

instance : Std.LawfulEqCmp (Weight.order (W := Binary f)) where
  compare_self := Std.ReflCmp.compare_self
  eq_of_compare {a b} h :=
    have hkey : compare a.orderKey b.orderKey = .eq := h
    orderKey_injective (Std.LawfulEqCmp.eq_of_compare hkey)

/-! ### Sums -/

lemma isNaN_ofUnits (f : BinaryFormat) (zeroSign : Bool) (z : Int) :
    (ofUnits f zeroSign z).isNaN = false :=
  decide_eq_false (Nat.not_lt.2 (f.round_le_infinity _))

lemma not_isNaN_of_isFinite (h : a.isFinite = true) : a.isNaN = false :=
  decide_eq_false (Nat.lt_asymm (of_decide_eq_true h))

lemma not_isInfinite_of_isFinite (h : a.isFinite = true) : a.isInfinite = false :=
  decide_eq_false (Nat.ne_of_lt (of_decide_eq_true h))

/-- A finite number added to a number that is no NaN: an infinity stays, all else is rounded. -/
lemma add_eq_ite (ha : a.isNaN = false) (hb : b.isFinite = true) :
    a + b = if a.isInfinite then a
      else ofUnits f (a.negative && b.negative) (a.value + b.value) := by
  show add a b = _
  simp [add, ha, not_isNaN_of_isFinite hb, not_isInfinite_of_isFinite hb]

/-- A number that is no NaN and a finite one do not add up to a NaN. -/
theorem isNaN_add (ha : a.isNaN = false) (hb : b.isFinite = true) : (a + b).isNaN = false := by
  rw [add_eq_ite ha hb]
  split
  · exact ha
  · exact isNaN_ofUnits ..

/-- The zero with a sign. -/
def IsNegativeZero (a : Binary f) : Prop :=
  a.negative = true ∧ a.magnitude = 0

lemma value_nonpos (h : a.negative = true) : a.value ≤ 0 := by
  rw [value, if_pos h]
  omega

lemma magnitude_eq_zero (h : a.value = 0) : a.magnitude = 0 := by
  by_contra hm
  have hunits := f.units_pos (Nat.pos_of_ne_zero hm)
  rw [value] at h
  split at h <;> omega

/-- What is rounded to the negative zero is zero, with the sign that a zero is to have. -/
lemma IsNegativeZero.of_ofUnits (h : (ofUnits f zeroSign z).IsNegativeZero) :
    z = 0 ∧ zeroSign = true := by
  have hz : z = 0 := by
    by_contra hz
    exact Nat.ne_of_gt (f.round_pos (Int.natAbs_pos.2 hz)) h.2
  exact ⟨hz, by simpa [ofUnits, hz] using h.1⟩

/-- The negative zero is the sum of two negative zeros only. -/
theorem IsNegativeZero.of_add (ha : a.isNaN = false) (hb : b.isFinite = true)
    (h : (a + b).IsNegativeZero) : a.IsNegativeZero ∧ b.IsNegativeZero := by
  rw [add_eq_ite ha hb] at h
  split at h
  · next hinf =>
      exact absurd (h.2.symm.trans (of_decide_eq_true hinf)) (Nat.ne_of_lt f.infinity_pos)
  · obtain ⟨hsum, hsigns⟩ := h.of_ofUnits
    obtain ⟨hna, hnb⟩ := Bool.and_eq_true_iff.1 hsigns
    -- neither summand is positive, so both are zero
    have hva := value_nonpos hna
    have hvb := value_nonpos hnb
    exact ⟨⟨hna, magnitude_eq_zero (by omega)⟩, ⟨hnb, magnitude_eq_zero (by omega)⟩⟩

/-! ### Proper numbers -/

/-- Neither a NaN nor the negative zero. -/
structure Proper (a : Binary f) : Prop where
  isNaN_eq_false : a.isNaN = false
  not_isNegativeZero : ¬ a.IsNegativeZero

namespace Proper

lemma zero : (0 : Binary f).Proper :=
  ⟨decide_eq_false (Nat.not_lt.2 (Nat.zero_le _)), fun h => Bool.false_ne_true h.1⟩

/-- A finite number added to a proper one gives a proper one. -/
lemma add (ha : a.Proper) (hb : b.isFinite = true) : (a + b).Proper :=
  ⟨isNaN_add ha.isNaN_eq_false hb,
    fun h => ha.not_isNegativeZero (h.of_add ha.isNaN_eq_false hb).1⟩

/-- The total order makes room for the negative zero between the negative numbers and the zero. -/
lemma orderKey_eq (ha : a.Proper) :
    a.orderKey = if a.signedMagnitude < 0 then a.signedMagnitude - 1 else a.signedMagnitude := by
  rw [orderKey, signedMagnitude]
  cases hn : a.negative with
  | false => simp
  | true =>
      have hpos : 0 < a.magnitude :=
        Nat.pos_of_ne_zero fun hm => ha.not_isNegativeZero ⟨hn, hm⟩
      simp [hpos]

/-- On proper numbers the numeric comparison is the total order. -/
theorem compare?_eq (ha : a.Proper) (hb : b.Proper) :
    Weight.compare? a b = some (Weight.order a b) := by
  have hlt : a.orderKey < b.orderKey ↔ a.signedMagnitude < b.signedMagnitude := by
    rw [ha.orderKey_eq, hb.orderKey_eq]
    split <;> split <;> omega
  have heq : a.orderKey = b.orderKey ↔ a.signedMagnitude = b.signedMagnitude := by
    rw [ha.orderKey_eq, hb.orderKey_eq]
    split <;> split <;> omega
  show Binary.compare? a b = some (Binary.order a b)
  simp [Binary.compare?, Binary.order, ha.isNaN_eq_false, hb.isNaN_eq_false, compare,
    compareOfLessAndEq, hlt, heq]

end Proper

end Binary

end WeightedGraph
