import Mathlib
import WeightedGraph.Search.Steps

/-!
Searches that run to their end.

* `Yields`: the results that a search gives until it says that there is nothing more.
* `takeSteps_of_none`, `takeSteps_of_some`: one step with a count of steps.
* `Yields.takeSteps`: however many steps are allowed, they give the first of these results.
-/

namespace WeightedGraph

variable {σ α ε : Type} {next : σ → Except ε (Option (α × σ))} {s t : σ} {as : List α}

/-- From a state the search gives these results one after another and then nothing more. -/
inductive Yields (next : σ → Except ε (Option (α × σ))) : σ → List α → Prop
  | done {s : σ} : next s = .ok none → Yields next s []
  | step {s s' : σ} {a : α} {as : List α} : next s = .ok (some (a, s')) → Yields next s' as →
      Yields next s (a :: as)

lemma takeSteps_of_none (h : next s = .ok none) (count : Nat) :
    takeSteps next count s = .ok ([], s) := by
  cases count with
  | zero => rfl
  | succ count =>
      rw [takeSteps, h]
      rfl

lemma takeSteps_of_some {s' : σ} {a : α} {count : Nat} (h : next s = .ok (some (a, s')))
    (hrest : takeSteps next count s' = .ok (as, t)) :
    takeSteps next (count + 1) s = .ok (a :: as, t) := by
  rw [takeSteps, h]
  simp only [bind, Except.bind, hrest]
  rfl

namespace Yields

/-- States with the same next step have the same results. -/
lemma congr (h : Yields next s as) (hst : next t = next s) : Yields next t as := by
  cases h with
  | done hs => exact .done (hst.trans hs)
  | step hs hrest => exact .step (hst.trans hs) hrest

/-- A number of steps gives as many results, or all of them if there are fewer. -/
theorem takeSteps (h : Yields next s as) (count : Nat) :
    ∃ s', takeSteps next count s = .ok (as.take count, s') := by
  induction h generalizing count with
  | @done s hs =>
      exact ⟨s, by rw [takeSteps_of_none hs, List.take_nil]⟩
  | @step s s' a as hs _ ih =>
      cases count with
      | zero => exact ⟨s, rfl⟩
      | succ count =>
          obtain ⟨s'', hrest⟩ := ih count
          exact ⟨s'', takeSteps_of_some hs hrest⟩

end Yields

end WeightedGraph
