/-!
Searches that give one result at a time.

* `takeSteps`: the results of at most a given number of steps, and the state after them.

A step gives a result and the next state, or says that there is nothing more, or fails; a failure is
the failure of the whole run.
-/

namespace WeightedGraph

/-- The results of at most `count` steps from a state, with the state that is left. -/
def takeSteps {σ α ε : Type} (next : σ → Except ε (Option (α × σ))) :
    Nat → σ → Except ε (List α × σ)
  | 0, s => .ok ([], s)
  | count + 1, s => do
      match ← next s with
      | none => return ([], s)
      | some (a, s') =>
          let (as, s'') ← takeSteps next count s'
          return (a :: as, s'')

end WeightedGraph
