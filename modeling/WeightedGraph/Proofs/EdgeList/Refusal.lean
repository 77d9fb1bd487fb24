import Mathlib
import WeightedGraph.Proofs.MinCut.InPlace
import WeightedGraph.Proofs.MinCut.Trials
import WeightedGraph.Proofs.SpanningForest.Greedy
import WeightedGraph.Weight.Binary

/-!
Lists of edges that are refused by all algorithms alike.

* `eq_error_of_refused`: the spanning forest, the cut and the least cut of several trials are refused
  for the one cause that there is, and nothing is drawn before.
* `exists_eq_ok_of_not_refused`: where there is no such cause all three are found.
* `refused_alike`: both together.
-/

namespace WeightedGraph

variable {W σ : Type} [Weight W] {n : Nat} {es : List (Edge W)} {cause : GraphError}
  {sort : List (Edge W) → List (Edge W)} {below : Nat → σ → Nat × σ}

lemma minimumSpanningForestBy_of_error (h : checkEdges n es = .error cause) :
    minimumSpanningForestBy sort n es = .error cause := by
  rw [minimumSpanningForestBy, h]
  rfl

/-- A cause for which a list is refused is what all algorithms answer, and they draw nothing. -/
lemma eq_error_of_refused (h : Refused n es cause) (sort : List (Edge W) → List (Edge W))
    (trials : Nat) (below : Nat → σ → Nat × σ) (s : σ) :
    minimumSpanningForestBy sort n es = .error cause ∧
      minCut n es below s = .error cause ∧
      minCutOfTrials n es trials below s = .error cause ∧
      (InPlace.minCut n es below).run s = .error cause s ∧
      (InPlace.minCutOfTrials n es trials below).run s = .error cause s := by
  have hcheck := checkEdges_eq_error_iff.2 h
  have hcut := InPlace.minCut_of_error hcheck below s
  have htrials := InPlace.minCutOfTrials_of_error hcheck trials below s
  refine ⟨minimumSpanningForestBy_of_error hcheck, ?_, ?_, hcut, htrials⟩
  · rw [← InPlace.forget_minCut, hcut, InPlace.forget]
  · rw [← InPlace.forget_minCutOfTrials, htrials, InPlace.forget]

/-- Without one all of them come to a result. -/
lemma exists_eq_ok_of_not_refused (hsort : ∀ es, (sort es).Perm es)
    (hbelow : ∀ b s, 0 < b → (below b s).1 < b) (h : ∀ cause, ¬ Refused n es cause) (trials : Nat)
    (s : σ) :
    (∃ f, minimumSpanningForestBy sort n es = .ok f) ∧ (∃ r, minCut n es below s = .ok r) ∧
      ∃ r, minCutOfTrials n es trials below s = .ok r := by
  have hcheck := checkEdges_eq_ok_iff_not_refused.2 h
  obtain ⟨acc, hacc, -⟩ := exists_minimumSpanningForestBy_of_perm (hsort es) hcheck
  obtain ⟨cut, s', hcut, -⟩ := exists_minCut_eq_zero_iff hbelow hcheck s
  obtain ⟨r, hr⟩ := exists_leastCut hbelow hcheck (trials - 1) cut s'
  exact ⟨⟨_, hacc⟩, ⟨_, hcut⟩, r, (minCutOfTrials_eq_leastCut hcheck hcut trials).trans hr⟩

/-- The spanning forest, the cut of one contraction and the least cut of several are all refused for
the same cause, with the chooser left as it was, or are all found. They are refused if there is no
vertex, and else for what is wrong with the first edge that does not fit. The chooser is that of the
cuts found in place, which are the same cuts. -/
theorem refused_alike (hsort : ∀ es, (sort es).Perm es)
    (hbelow : ∀ b s, 0 < b → (below b s).1 < b) (n : Nat) (es : List (Edge W)) (trials : Nat)
    (s : σ) :
    (∀ cause, Refused n es cause →
      minimumSpanningForestBy sort n es = .error cause ∧
        minCut n es below s = .error cause ∧
        minCutOfTrials n es trials below s = .error cause ∧
        (InPlace.minCut n es below).run s = .error cause s ∧
        (InPlace.minCutOfTrials n es trials below).run s = .error cause s) ∧
    ((∀ cause, ¬ Refused n es cause) →
      (∃ f, minimumSpanningForestBy sort n es = .ok f) ∧ (∃ r, minCut n es below s = .ok r) ∧
        ∃ r, minCutOfTrials n es trials below s = .ok r) ∧
    minCut n es below s = InPlace.forget ((InPlace.minCut n es below).run s) ∧
    minCutOfTrials n es trials below s =
      InPlace.forget ((InPlace.minCutOfTrials n es trials below).run s) :=
  ⟨fun _ h => eq_error_of_refused h sort trials below s,
    fun h => exists_eq_ok_of_not_refused hsort hbelow h trials s,
    (InPlace.forget_minCut n es below s).symm,
    (InPlace.forget_minCutOfTrials n es trials below s).symm⟩

/-- Four edges of which three do not fit three vertices. Nothing of the first of these fits, and its
source is named. The edge before it passes. -/
theorem refused_alike_first :
    let edge (u v : Vertex) (bits : Nat) : Edge (Binary .single) := ⟨u, v, .ofBits .single bits⟩
    let one := 0x3f800000
    let nan := 0x7fc00000
    let es := [edge 0 1 one, edge 9 7 nan, edge 0 3 one, edge 1 2 nan]
    let tape := [10, 6, 3]
    (∀ es : List (Edge (Binary .single)), (sortByWeight es).Perm es) ∧
      (∀ b tape, 0 < b → (readTape b tape).1 < b) ∧ Refused 3 es (.invalidVertex 9 3) ∧
      minimumSpanningForestBy sortByWeight 3 es = .error (.invalidVertex 9 3) ∧
      (InPlace.minCutOfTrials 3 es 5 readTape).run tape = .error (.invalidVertex 9 3) tape ∧
      (∀ cause, ¬ Refused 3 (es.take 1) cause) ∧
      ∃ r, minCutOfTrials 3 (es.take 1) 5 readTape tape = .ok r := by
  intro edge one nan es tape
  have hsort : ∀ es : List (Edge (Binary .single)), (sortByWeight es).Perm es := fun es =>
    List.mergeSort_perm es _
  have hbelow : ∀ b tape, 0 < b → (readTape b tape).1 < b := fun b tape hb => readTape_lt hb tape
  have hrefused : Refused 3 es (.invalidVertex 9 3) := checkEdges_eq_error_iff.1 (by decide)
  have hnot : ∀ cause, ¬ Refused 3 (es.take 1) cause :=
    checkEdges_eq_ok_iff_not_refused.1 (by decide)
  obtain ⟨herror, -⟩ := refused_alike hsort hbelow 3 es 5 tape
  obtain ⟨-, hok, -⟩ := refused_alike hsort hbelow 3 (es.take 1) 5 tape
  obtain ⟨hforest, -, -, -, htrials⟩ := herror _ hrefused
  exact ⟨hsort, hbelow, hrefused, hforest, htrials, hnot, (hok hnot).2.2⟩

end WeightedGraph
