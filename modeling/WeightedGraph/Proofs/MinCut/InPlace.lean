import Mathlib
import WeightedGraph.InPlace
import WeightedGraph.MinCut

/-!
Minimum cuts with a chooser whose state is updated in place.

A contraction hands the state of its chooser on together with its result, so nothing is left of that
state where there is no result. Here the chooser is asked in place: its state is there after a
failure as well, and tells what had been drawn by then.

* `InPlace.draw`: one question to the chooser.
* `InPlace.minCut`, `InPlace.minCutOfTrials`: the cuts, found in place; `InPlace.forget_minCut` and
  `InPlace.forget_minCutOfTrials` say that they are the same cuts.
* `InPlace.minCut_of_error`, `InPlace.minCutOfTrials_of_error`: a list of edges that does not pass
  the check is refused before anything is drawn.
-/

namespace WeightedGraph

namespace InPlace

variable {W σ : Type} {n trials : Nat} {es : List (Edge W)} {below : Nat → σ → Nat × σ}
  {cause : GraphError}

/-- Asks a chooser for a number below `n`. -/
def draw (below : Nat → σ → Nat × σ) (n : Nat) : InPlace σ Nat := fun s =>
  let (i, s) := below n s
  .ok i s

/-! ### Cuts in place -/

/-- Picks candidates until it is over, at most `fuel` of them. -/
def contract (below : Nat → σ → Nat × σ) : Nat → Contraction W → InPlace σ (Contraction W)
  | 0, c => return c
  | fuel + 1, c =>
      if c.isOver then return c
      else do
        let i ← draw below c.candidates.size
        contract below fuel (← lift (c.pick i))

/-- One contraction and the edges it leaves between its sets. -/
def randomCut (vertexCount : Nat) (edges : List (Edge W)) (below : Nat → σ → Nat × σ) :
    InPlace σ Nat := do
  let c := Contraction.start vertexCount edges
  let c ← contract below (vertexCount - 2 + c.candidates.size) c
  return crossing c.sets edges

/-- The least of `best` and the cuts of at most `trials` contractions; none follows a cut without
edges. -/
def leastCut (vertexCount : Nat) (edges : List (Edge W)) (below : Nat → σ → Nat × σ) :
    Nat → Nat → InPlace σ Nat
  | 0, best => return best
  | trials + 1, best =>
      if best = 0 then return best
      else do
        let cut ← randomCut vertexCount edges below
        leastCut vertexCount edges below trials (min best cut)

/-- The cut that one contraction finds. -/
def minCut [Weight W] (vertexCount : Nat) (edges : List (Edge W)) (below : Nat → σ → Nat × σ) :
    InPlace σ Nat := do
  lift (checkEdges vertexCount edges)
  randomCut vertexCount edges below

/-- The least cut that a number of contractions find, of which there is at least one. -/
def minCutOfTrials [Weight W] (vertexCount : Nat) (edges : List (Edge W)) (trials : Nat)
    (below : Nat → σ → Nat × σ) : InPlace σ Nat := do
  lift (checkEdges vertexCount edges)
  let cut ← randomCut vertexCount edges below
  leastCut vertexCount edges below (trials - 1) cut

/-! ### The state forgotten after a failure -/

lemma forget_contract (below : Nat → σ → Nat × σ) (fuel : Nat) (c : Contraction W) (s : σ) :
    forget ((contract below fuel c).run s) = c.run below fuel s := by
  induction fuel generalizing c s with
  | zero => rfl
  | succ fuel ih =>
      rw [contract, Contraction.run]
      split
      · rfl
      · exact (forget_lift_bind _ _ _).trans (bind_congr fun c' => ih c' _)

lemma forget_randomCut (n : Nat) (es : List (Edge W)) (below : Nat → σ → Nat × σ) (s : σ) :
    forget ((randomCut n es below).run s) = WeightedGraph.randomCut n es below s := by
  rw [randomCut, forget_bind, forget_contract]
  rfl

lemma forget_leastCut (n : Nat) (es : List (Edge W)) (below : Nat → σ → Nat × σ)
    (trials best : Nat) (s : σ) :
    forget ((leastCut n es below trials best).run s) =
      WeightedGraph.leastCut n es below trials best s := by
  induction trials generalizing best s with
  | zero => rfl
  | succ trials ih =>
      rw [leastCut, WeightedGraph.leastCut]
      split
      · rfl
      · rw [forget_bind, forget_randomCut]
        exact bind_congr fun r => ih _ _

variable [Weight W]

theorem forget_minCut (n : Nat) (es : List (Edge W)) (below : Nat → σ → Nat × σ) (s : σ) :
    forget ((minCut n es below).run s) = WeightedGraph.minCut n es below s :=
  (forget_lift_bind _ _ s).trans (bind_congr fun _ => forget_randomCut n es below s)

theorem forget_minCutOfTrials (n : Nat) (es : List (Edge W)) (trials : Nat)
    (below : Nat → σ → Nat × σ) (s : σ) :
    forget ((minCutOfTrials n es trials below).run s) =
      WeightedGraph.minCutOfTrials n es trials below s := by
  refine (forget_lift_bind _ _ s).trans (bind_congr fun _ => ?_)
  rw [forget_bind, forget_randomCut]
  exact bind_congr fun r => forget_leastCut n es below (trials - 1) r.1 r.2

/-! ### Refusals -/

/-- Nothing is drawn for a list of edges that does not pass the check. -/
lemma minCut_of_error (h : checkEdges n es = .error cause) (below : Nat → σ → Nat × σ) (s : σ) :
    (minCut n es below).run s = .error cause s := by
  rw [minCut, h]
  rfl

lemma minCutOfTrials_of_error (h : checkEdges n es = .error cause) (trials : Nat)
    (below : Nat → σ → Nat × σ) (s : σ) :
    (minCutOfTrials n es trials below).run s = .error cause s := by
  rw [minCutOfTrials, h]
  rfl

end InPlace

end WeightedGraph
