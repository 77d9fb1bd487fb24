import WeightedGraph.Weight.Basic

/-!
Integers in a range whose sum stays in the range.

* `IntRange`: a range of integers around zero; `IntRange.signed` and `IntRange.unsigned` are the
  ranges of machine integers of a given width.
* `Saturating`: the integers of a range, with the sum moved to the nearest bound where it would
  leave the range.
* `Saturating.clamp`: the integer of the range that is nearest to a given one.
* the instance `Weight (Saturating r)`: every such integer is valid, both comparisons are the
  order of the integers.
-/

namespace WeightedGraph

/-- A range of integers that contains zero. -/
structure IntRange where
  /-- The least integer of the range. -/
  lo : Int
  /-- The greatest integer of the range. -/
  hi : Int
  lo_nonpos : lo ≤ 0
  hi_nonneg : 0 ≤ hi

namespace IntRange

private theorem one_shiftLeft_pos (n : Nat) : 0 < 1 <<< n := by
  rw [Nat.one_shiftLeft]
  exact Nat.two_pow_pos n

/-- The range of the two's complement integers of a width. -/
def signed (bits : Nat) : IntRange where
  lo := -((1 <<< (bits - 1) : Nat) : Int)
  hi := ((1 <<< (bits - 1) : Nat) : Int) - 1
  lo_nonpos := by have := one_shiftLeft_pos (bits - 1); omega
  hi_nonneg := by have := one_shiftLeft_pos (bits - 1); omega

/-- The range of the natural numbers of a width. -/
def unsigned (bits : Nat) : IntRange where
  lo := 0
  hi := ((1 <<< bits : Nat) : Int) - 1
  lo_nonpos := Int.le_refl 0
  hi_nonneg := by have := one_shiftLeft_pos bits; omega

end IntRange

/-- An integer of a range. -/
structure Saturating (r : IntRange) where
  /-- The integer itself. -/
  val : Int
  lo_le : r.lo ≤ val
  le_hi : val ≤ r.hi
  deriving DecidableEq

namespace Saturating

variable {r : IntRange}

/-- The integer of the range that is nearest to `z`. -/
def clamp (r : IntRange) (z : Int) : Saturating r where
  val := max r.lo (min z r.hi)
  lo_le := by omega
  le_hi := by have := r.lo_nonpos; have := r.hi_nonneg; omega

/-- The integer `z`, if it lies in the range. -/
def ofInt? (r : IntRange) (z : Int) : Option (Saturating r) :=
  if h : r.lo ≤ z ∧ z ≤ r.hi then some ⟨z, h.1, h.2⟩ else none

instance : Zero (Saturating r) :=
  ⟨⟨0, r.lo_nonpos, r.hi_nonneg⟩⟩

instance : Add (Saturating r) :=
  ⟨fun a b => clamp r (a.val + b.val)⟩

instance : Weight (Saturating r) where
  isNegative a := decide (a.val < 0)
  isValid _ := true
  order a b := compare a.val b.val
  compare? a b := some (compare a.val b.val)
  text a := toString a.val

theorem val_add (a b : Saturating r) : (a + b).val = max r.lo (min (a.val + b.val) r.hi) :=
  rfl

theorem val_zero : (0 : Saturating r).val = 0 :=
  rfl

end Saturating

end WeightedGraph
