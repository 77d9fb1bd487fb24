import WeightedGraph.Decimal.Shortest
import WeightedGraph.Weight.Basic

/-!
Binary floating-point numbers, as sign and magnitude.

A magnitude is the exponent field followed by the fraction field, read as one natural number. The
finite magnitudes come first and in the order of their values, then infinity, then the NaNs. Every
finite value is a whole number of units, the unit being the least positive value of the format, so
a sum is exact in the integers and is rounded once.

* `BinaryFormat`: the widths of the two fields; `BinaryFormat.single` and `BinaryFormat.double` are
  the formats of four and of eight bytes.
* `BinaryFormat.units`, `BinaryFormat.round`: the value of a magnitude in units, and the magnitude
  nearest to a number of units, an even one at the same distance.
* `Binary`: a number of a format.
* `Binary.add`: the sum rounded to nearest; `Binary.order`: the total order in which the negative
  NaNs come first and the positive ones last; `Binary.compare?`: the numeric comparison.
* `Binary.text`: the shortest decimal that reads back as the same number, without an exponent.
-/

namespace WeightedGraph

/-- The widths of the fields of a binary floating-point format. -/
structure BinaryFormat where
  /-- The width of the fraction field. -/
  fractionBits : Nat
  /-- The width of the exponent field. -/
  exponentBits : Nat
  fractionBits_pos : 0 < fractionBits := by decide
  exponentBits_pos : 1 < exponentBits := by decide

namespace BinaryFormat

/-- The format of four bytes. -/
def single : BinaryFormat where
  fractionBits := 23
  exponentBits := 8

/-- The format of eight bytes. -/
def double : BinaryFormat where
  fractionBits := 52
  exponentBits := 11

variable (f : BinaryFormat)

/-- The number of contents of the fraction field. -/
def fractions : Nat :=
  1 <<< f.fractionBits

/-- The number of contents of the exponent field. -/
def exponents : Nat :=
  1 <<< f.exponentBits

/-- The number of magnitudes. -/
def magnitudes : Nat :=
  f.exponents * f.fractions

/-- The magnitude of infinity: an exponent field of ones and an empty fraction field. -/
def infinity : Nat :=
  (f.exponents - 1) * f.fractions

/-- The fraction bit that marks a quiet NaN. -/
def quietMark : Nat :=
  1 <<< (f.fractionBits - 1)

/-- The number of binary places of the unit, the least positive value of the format. -/
def unitPlaces : Nat :=
  1 <<< (f.exponentBits - 1) + f.fractionBits - 2

/-- The binary places by which the last fraction bit of a finite magnitude stands above the unit. -/
def shift (magnitude : Nat) : Nat :=
  magnitude / f.fractions - 1

/-- The significand of a finite magnitude: the fraction, after a one unless the exponent field is
empty. -/
def significand (magnitude : Nat) : Nat :=
  if magnitude < f.fractions then magnitude else f.fractions + magnitude % f.fractions

/-- The value of a finite magnitude in units. -/
def units (magnitude : Nat) : Nat :=
  f.significand magnitude <<< f.shift magnitude

end BinaryFormat

/-- The quotient of `n` by `2 ^ places`, rounded to nearest, and to even halfway between two
integers. -/
def roundHalfEven (n places : Nat) : Nat :=
  let unit := 1 <<< places
  let quotient := n / unit
  let twice := 2 * (n % unit)
  if unit < twice ∨ (twice = unit ∧ quotient % 2 = 1) then quotient + 1 else quotient

/-- The magnitude whose value is nearest to a number of units, an even one of two equally near;
infinity from halfway above the greatest finite value on. A carry out of the fraction field moves
into the exponent field, as it should. -/
def BinaryFormat.round (f : BinaryFormat) (units : Nat) : Nat :=
  let shift := Nat.log2 units - f.fractionBits
  min f.infinity (shift * f.fractions + roundHalfEven units shift)

/-- A number of a binary floating-point format. -/
structure Binary (f : BinaryFormat) where
  /-- The sign bit. -/
  negative : Bool
  /-- The exponent and the fraction field, read as one number. -/
  magnitude : Nat
  magnitude_lt : magnitude < f.magnitudes
  deriving DecidableEq

namespace Binary

variable {f : BinaryFormat}

private theorem magnitudes_eq (f : BinaryFormat) :
    f.magnitudes = 1 <<< (f.exponentBits + f.fractionBits) := by
  rw [BinaryFormat.magnitudes, BinaryFormat.exponents, BinaryFormat.fractions, Nat.one_shiftLeft,
    Nat.one_shiftLeft, Nat.one_shiftLeft, Nat.pow_add]

private theorem magnitudes_pos (f : BinaryFormat) : 0 < f.magnitudes := by
  rw [magnitudes_eq, Nat.one_shiftLeft]
  exact Nat.two_pow_pos _

/-- The number that a word of the format stands for. -/
def ofBits (f : BinaryFormat) (bits : Nat) : Binary f where
  negative := bits / f.magnitudes % 2 == 1
  magnitude := bits % f.magnitudes
  magnitude_lt := Nat.mod_lt _ (magnitudes_pos f)

/-- The word of a number. -/
def bits (a : Binary f) : Nat :=
  (if a.negative then f.magnitudes else 0) + a.magnitude

/-- Whether a number is neither finite nor infinite. -/
def isNaN (a : Binary f) : Bool :=
  decide (f.infinity < a.magnitude)

/-- Whether a number is one of the two infinities. -/
def isInfinite (a : Binary f) : Bool :=
  decide (a.magnitude = f.infinity)

/-- Whether a number is finite. -/
def isFinite (a : Binary f) : Bool :=
  decide (a.magnitude < f.infinity)

/-- The value of a finite number in units. -/
def value (a : Binary f) : Int :=
  if a.negative then -(f.units a.magnitude : Int) else (f.units a.magnitude : Int)

private theorem infinity_add_fractions (f : BinaryFormat) :
    f.infinity + f.fractions = f.magnitudes := by
  have h : 0 < f.exponents := by
    rw [BinaryFormat.exponents, Nat.one_shiftLeft]
    exact Nat.two_pow_pos _
  rw [BinaryFormat.infinity, BinaryFormat.magnitudes, ← Nat.succ_mul, Nat.succ_eq_add_one,
    Nat.sub_add_cancel h]

private theorem quietMark_lt (f : BinaryFormat) : f.quietMark < f.fractions := by
  have h := f.fractionBits_pos
  rw [BinaryFormat.quietMark, BinaryFormat.fractions, Nat.one_shiftLeft, Nat.one_shiftLeft]
  exact Nat.pow_lt_pow_right (by decide) (by omega)

/-- The number of units `z`, rounded to the format; `zeroSign` is the sign of a zero. -/
def ofUnits (f : BinaryFormat) (zeroSign : Bool) (z : Int) : Binary f where
  negative := if z = 0 then zeroSign else decide (z < 0)
  magnitude := f.round z.natAbs
  magnitude_lt := by
    have hi := infinity_add_fractions f
    have hm := quietMark_lt f
    have hr : f.round z.natAbs ≤ f.infinity := Nat.min_le_left _ _
    omega

/-- The NaN with the mark of a quiet one. -/
def quiet (a : Binary f) : Binary f where
  negative := a.negative
  magnitude := a.magnitude ||| f.quietMark
  magnitude_lt := by
    have hi := infinity_add_fractions f
    have hm := quietMark_lt f
    have ha := a.magnitude_lt
    rw [magnitudes_eq, Nat.one_shiftLeft] at hi ha ⊢
    exact Nat.or_lt_two_pow ha (by omega)

/-- The NaN that an operation without a result gives: negative, with no fraction bit but the mark. -/
def indefinite (f : BinaryFormat) : Binary f where
  negative := true
  magnitude := f.infinity + f.quietMark
  magnitude_lt := by
    have hi := infinity_add_fractions f
    have hm := quietMark_lt f
    omega

/-- The sum, rounded to nearest. A NaN is passed on, the first one of two; opposite infinities have
no sum; two numbers of sum zero give the positive zero unless both are negative. -/
def add (a b : Binary f) : Binary f :=
  if a.isNaN then a.quiet
  else if b.isNaN then b.quiet
  else if a.isInfinite then
    if b.isInfinite && a.negative != b.negative then indefinite f else a
  else if b.isInfinite then b
  else ofUnits f (a.negative && b.negative) (a.value + b.value)

/-- The position of a number in the total order: below zero for the negative ones, by magnitude. -/
def orderKey (a : Binary f) : Int :=
  if a.negative then -(a.magnitude : Int) - 1 else (a.magnitude : Int)

/-- The total order. -/
def order (a b : Binary f) : Ordering :=
  compare a.orderKey b.orderKey

/-- The magnitude with the sign, in which the two zeros agree. -/
def signedMagnitude (a : Binary f) : Int :=
  if a.negative then -(a.magnitude : Int) else (a.magnitude : Int)

/-- The numeric comparison: the zeros are equal and a NaN is unordered. -/
def compare? (a b : Binary f) : Option Ordering :=
  if a.isNaN || b.isNaN then none else some (compare a.signedMagnitude b.signedMagnitude)

/-- The numbers that round to a positive finite magnitude. The gap to the number below is half as
wide where the magnitude is the first of its exponent, and halfway points belong to the even
magnitude. Numerators count a quarter of the unit. -/
def cell (f : BinaryFormat) (magnitude : Nat) : RoundingCell where
  denominator := 1 <<< (f.unitPlaces + 2)
  value := 4 * f.units magnitude
  lower :=
    4 * f.units magnitude -
      (if f.significand magnitude = f.fractions ∧ 0 < f.shift magnitude then 1 else 2) <<<
        f.shift magnitude
  upper := 4 * f.units magnitude + 2 <<< f.shift magnitude
  closed := magnitude % 2 == 0

/-- The text of a magnitude: `NaN`, `inf`, or the shortest decimal that reads back as it. -/
def magnitudeText (f : BinaryFormat) (magnitude : Nat) : String :=
  if f.infinity < magnitude then "NaN"
  else if magnitude = f.infinity then "inf"
  else if magnitude = 0 then "0"
  else ((cell f magnitude).shortest (f.fractionBits + 2)).positional

/-- The text of a number: a sign unless it is a NaN, and the text of its magnitude. -/
def text (a : Binary f) : String :=
  if a.negative && !a.isNaN then "-" ++ magnitudeText f a.magnitude else magnitudeText f a.magnitude

instance : Zero (Binary f) :=
  ⟨⟨false, 0, magnitudes_pos f⟩⟩

instance : Add (Binary f) :=
  ⟨add⟩

instance : Weight (Binary f) where
  isNegative a := !a.isNaN && decide (a.signedMagnitude < 0)
  isValid := isFinite
  order := order
  compare? := compare?
  text := text

end Binary

end WeightedGraph
