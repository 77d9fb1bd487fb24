/-!
Decimal numbers and their positional text.

* `Decimal`: a coefficient and the power of ten that it counts.
* `Decimal.normalize`: the same number without zeros at the end of its coefficient.
* `Decimal.positional`: the number written without an exponent; a number without a fraction has no
  decimal point, one below `1` has a single zero in front of it.
-/

namespace WeightedGraph

/-- The number `coefficient * 10 ^ exponent`. -/
structure Decimal where
  /-- The digits, read as one number. -/
  coefficient : Nat
  /-- The power of ten that the last digit counts. -/
  exponent : Int
  deriving DecidableEq

namespace Decimal

/-- The number of zeros at the end of the coefficient. -/
def zerosAtEnd (d : Decimal) : Nat :=
  ((Nat.toDigits 10 d.coefficient).reverse.takeWhile (· == '0')).length

/-- The same number with a coefficient that does not end in a zero; zero is `0 * 10 ^ 0`. -/
def normalize (d : Decimal) : Decimal :=
  if d.coefficient = 0 then ⟨0, 0⟩
  else ⟨d.coefficient / Nat.pow 10 d.zerosAtEnd, d.exponent + d.zerosAtEnd⟩

/-- The characters of the number without an exponent. -/
def positionalChars (d : Decimal) : List Char :=
  let digits := Nat.toDigits 10 d.coefficient
  match d.exponent with
  | .ofNat zeros => digits ++ List.replicate zeros '0'
  | .negSucc k =>
      let places := k + 1
      if places < digits.length then
        digits.take (digits.length - places) ++ '.' :: digits.drop (digits.length - places)
      else
        '0' :: '.' :: (List.replicate (places - digits.length) '0' ++ digits)

/-- The number written without an exponent, with no zero at the end of a fraction. -/
def positional (d : Decimal) : String :=
  String.ofList (positionalChars (normalize d))

end Decimal

end WeightedGraph
