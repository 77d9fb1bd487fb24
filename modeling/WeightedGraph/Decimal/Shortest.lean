import WeightedGraph.Decimal.Positional

/-!
The decimal with the fewest digits that stands for a number among neighbours.

A number of a finite set stands for every number that is nearer to it than to its neighbours, and
any decimal among those names it. Of the decimals with the fewest digits the nearest to the number
is chosen, and the greater one of two equally near.

* `RoundingCell`: a number with the bounds of the numbers it stands for, over one denominator.
* `RoundingCell.holds`: a multiple of a step lies within the bounds.
* `RoundingCell.nearest?`: the better of the two neighbours of the number on a decimal grid, if one
  of them lies within the bounds.
* `RoundingCell.shortest`: the first grid on which a neighbour does.

One of the two neighbours lies within the bounds as soon as any point of the grid does, so looking
at the neighbours misses no shorter decimal.
-/

namespace WeightedGraph

/-- A positive number `value / denominator` and the bounds of the numbers it stands for. -/
structure RoundingCell where
  /-- The denominator of the number and of the two bounds. -/
  denominator : Nat
  /-- The numerator of the number. -/
  value : Nat
  /-- The numerator of the lower bound. -/
  lower : Nat
  /-- The numerator of the upper bound. -/
  upper : Nat
  /-- Whether the bounds themselves belong to the cell. -/
  closed : Bool

namespace RoundingCell

/-- Whether `k * step` lies in the cell, where `step` is the ratio of the last two arguments. -/
def holds (c : RoundingCell) (k stepNum stepDen : Nat) : Bool :=
  let point := k * stepNum * c.denominator
  if c.closed then
    decide (c.lower * stepDen ≤ point ∧ point ≤ c.upper * stepDen)
  else
    decide (c.lower * stepDen < point ∧ point < c.upper * stepDen)

/-- The neighbour of the value among the multiples of `10 ^ exponent` that lies in the cell; of two
such neighbours the nearer one, and the greater one at the same distance. -/
def nearest? (c : RoundingCell) (exponent : Int) : Option Decimal :=
  let stepNum := Nat.pow 10 exponent.toNat
  let stepDen := Nat.pow 10 (-exponent).toNat
  let value := c.value * stepDen
  let below := value / (stepNum * c.denominator)
  match c.holds below stepNum stepDen, c.holds (below + 1) stepNum stepDen with
  | true, true =>
      if 2 * value < (2 * below + 1) * (stepNum * c.denominator) then
        some ⟨below, exponent⟩
      else
        some ⟨below + 1, exponent⟩
  | true, false => some ⟨below, exponent⟩
  | false, true => some ⟨below + 1, exponent⟩
  | false, false => none

/-- The number of digits before the point of a value from `1` on, and minus the number of zeros
after the point of a smaller one: the least `e` for which the value is below `10 ^ e`. -/
def decimalOrder (c : RoundingCell) : Int :=
  if c.denominator ≤ c.value then
    ((Nat.toDigits 10 (c.value / c.denominator)).length : Int)
  else
    1 - ((Nat.toDigits 10 ((c.denominator - 1) / c.value)).length : Int)

/-- The first hit on the grids of `digits`, `digits + 1`, … digits, at most `fuel` of them; without
one the value rounded down on the last grid. -/
def search (c : RoundingCell) (order : Int) : Nat → Nat → Decimal
  | 0, digits =>
      let exponent := order - digits
      ⟨c.value * Nat.pow 10 (-exponent).toNat / (Nat.pow 10 exponent.toNat * c.denominator), exponent⟩
  | fuel + 1, digits =>
      match c.nearest? (order - digits) with
      | some d => d
      | none => search c order fuel (digits + 1)

/-- The decimal with the fewest digits in the cell, the nearest to the value of these; a cell that
`maxDigits` digits always reach is assumed. -/
def shortest (c : RoundingCell) (maxDigits : Nat) : Decimal :=
  c.search c.decimalOrder maxDigits 1

end RoundingCell

end WeightedGraph
