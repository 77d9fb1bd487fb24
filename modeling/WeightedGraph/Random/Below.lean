import WeightedGraph.Random.WordSource

/-!
A random number below a bound, every one of them being equally likely.

* `acceptedLow`: the greatest low half of a product that is accepted.
* `WordSource.below`: a number below `n`. The product of a word and `n` has the number in its high
  half. A word is drawn again when the low half is too great, which leaves the same number of words
  for every result. `WordSource.below_lt` says that it is below `n`.

The generator gives each word once before it repeats, so a word that is accepted comes after at most
as many draws as there are words.
-/

namespace WeightedGraph

/-- The greatest low half of the product of a word and `n` that is accepted: one less than the
greatest product of `n` and a power of two below `2 ^ 64`. -/
def acceptedLow (n : Nat) : Nat :=
  n <<< (63 - Nat.log2 n) - 1

namespace WordSource

/-- Draws words, at most `fuel` of them, until one is accepted. -/
def belowFrom (n : Nat) : Nat → WordSource → Nat × WordSource
  | 0, s => (0, s)
  | fuel + 1, s =>
      let (word, s) := s.draw
      let product := word.toNat * n
      if product % UInt64.size ≤ acceptedLow n then (product / UInt64.size, s)
      else belowFrom n fuel s

/-- A number below `n`, for `n` from `1` to `2 ^ 64 - 1`. -/
def below (n : Nat) (s : WordSource) : Nat × WordSource :=
  belowFrom n (s.script.length + UInt64.size) s

theorem belowFrom_lt {n : Nat} (hn : 0 < n) (fuel : Nat) (s : WordSource) :
    (belowFrom n fuel s).1 < n := by
  induction fuel generalizing s with
  | zero => exact hn
  | succ fuel ih =>
      have hword : s.draw.1.toNat * n < UInt64.size * n :=
        Nat.mul_lt_mul_of_pos_right s.draw.1.toNat_lt hn
      simp only [belowFrom]
      split
      · exact Nat.div_lt_of_lt_mul hword
      · exact ih s.draw.2

/-- The number lies below the bound. -/
theorem below_lt {n : Nat} (hn : 0 < n) (s : WordSource) : (s.below n).1 < n :=
  belowFrom_lt hn _ s

end WordSource

end WeightedGraph
