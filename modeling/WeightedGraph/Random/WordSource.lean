/-!
A source of random words: first the words of a script, then those of a generator.

* `mix`: the word that the generator gives in a state.
* `WordSource`: the rest of the script, the state of the generator and the number of words drawn.
* `WordSource.draw`: the next word.
-/

namespace WeightedGraph

/-- The word of a generator state: shifts and multiplications spread every bit over the word. -/
def mix (state : UInt64) : UInt64 :=
  let z := (state ^^^ (state >>> 30)) * 0xBF58476D1CE4E5B9
  let z := (z ^^^ (z >>> 27)) * 0x94D049BB133111EB
  z ^^^ (z >>> 31)

/-- A source of random words. -/
structure WordSource where
  /-- The words that come first. -/
  script : List UInt64
  /-- The state of the generator that follows. -/
  state : UInt64
  /-- The number of words drawn so far. -/
  drawn : Nat

namespace WordSource

/-- The next word. The generator moves its state on by a fixed odd step before each word. -/
def draw (s : WordSource) : UInt64 × WordSource :=
  match s.script with
  | word :: rest => (word, { s with script := rest, drawn := s.drawn + 1 })
  | [] =>
      let state := s.state + 0x9E3779B97F4A7C15
      (mix state, { s with state := state, drawn := s.drawn + 1 })

end WordSource

end WeightedGraph
