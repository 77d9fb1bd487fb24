/-!
What the algorithms ask of the numbers on the edges.

* `Weight`: a type with a zero, a sum, a sign test, a validity test, a total order for sorting,
  a numeric comparison that may leave two values unordered, and a decimal text.
* `Weight.lt`, `Weight.le`, `Weight.same`: the three tests of the numeric comparison.
* `Weight.sort`: a list in the total order.

The two comparisons are kept apart because they differ on floating-point numbers: the total order
tells the two zeros apart and places every NaN, the numeric comparison does neither.
-/

namespace WeightedGraph

/-- A type of edge weights. -/
class Weight (W : Type) extends Zero W, Add W where
  /-- Whether a weight lies below zero. -/
  isNegative : W → Bool
  /-- Whether a weight may be stored on an edge. -/
  isValid : W → Bool
  /-- The total order by which edges are sorted and a priority queue is kept. -/
  order : W → W → Ordering
  /-- The numeric comparison, `none` where two weights are unordered. -/
  compare? : W → W → Option Ordering
  /-- The decimal text of a weight. -/
  text : W → String

namespace Weight

variable {W : Type} [Weight W]

/-- Numerically below. -/
def lt (a b : W) : Bool :=
  compare? a b == some .lt

/-- Numerically below or equal. -/
def le (a b : W) : Bool :=
  (compare? a b).any Ordering.isLE

/-- Numerically equal. -/
def same (a b : W) : Bool :=
  compare? a b == some .eq

/-- The weights of a list in the total order, equal ones in their given order. -/
def sort (ws : List W) : List W :=
  ws.mergeSort fun a b => (order a b).isLE

end Weight

end WeightedGraph
