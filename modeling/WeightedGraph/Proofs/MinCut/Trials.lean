import Mathlib
import WeightedGraph.Proofs.MinCut.Chance

/-!
The least cut of several contractions.

* `leastCut_anti`: more contractions find no greater cut.
* `Trials`: contractions one after another that share a chooser, each of which finds a cut.
  `exists_trials`: so many can be made, and either all of the cuts are without edges or none is.
* `leastCut_zero`, `Trials.leastCut_eq`: the search for the least cut stops where it has found one
  without edges, and makes all of its contractions otherwise.
* `exists_minCutOfTrials_least`: so the search gives the least of the cuts that single contractions
  find, and asks the chooser as often as the first of them does or as all do.
-/

namespace WeightedGraph

open EdgeList

variable {W σ : Type} {n trials trials' best cut : Nat} {cuts : List Nat}
  {es : List (Edge W)} {below : Nat → σ → Nat × σ} {s s' : σ} {r r' : Nat × σ}

/-! ### The search for the least cut -/

/-- Below a cut without edges there is none to search for. -/
lemma leastCut_zero (n : Nat) (es : List (Edge W)) (below : Nat → σ → Nat × σ) (trials : Nat)
    (s : σ) : leastCut n es below trials 0 s = .ok (0, s) := by
  cases trials with
  | zero => rfl
  | succ trials => exact if_pos rfl

lemma leastCut_le (hr : leastCut n es below trials best s = .ok r) : r.1 ≤ best := by
  induction trials generalizing best s with
  | zero =>
      obtain rfl := Except.ok.inj hr
      exact le_rfl
  | succ trials ih =>
      rw [leastCut] at hr
      split at hr
      · obtain rfl := Except.ok.inj hr
        exact le_rfl
      · cases hcut : randomCut n es below s with
        | error e =>
            rw [hcut] at hr
            cases hr
        | ok p =>
            rw [hcut] at hr
            exact (ih hr).trans (min_le_left _ _)

/-- More contractions find no greater cut. -/
lemma leastCut_anti (hle : trials ≤ trials') (hr : leastCut n es below trials best s = .ok r)
    (hr' : leastCut n es below trials' best s = .ok r') : r'.1 ≤ r.1 := by
  induction trials generalizing trials' best s with
  | zero =>
      obtain rfl := Except.ok.inj hr
      exact leastCut_le hr'
  | succ trials ih =>
      obtain ⟨trials', rfl⟩ : ∃ t, trials' = t + 1 := ⟨trials' - 1, by omega⟩
      rw [leastCut] at hr hr'
      split at hr
      · next hbest =>
          rw [if_pos hbest] at hr'
          rw [← Except.ok.inj hr, ← Except.ok.inj hr']
      · next hbest =>
          rw [if_neg hbest] at hr'
          cases hcut : randomCut n es below s with
          | error e =>
              rw [hcut] at hr
              cases hr
          | ok p =>
              rw [hcut] at hr hr'
              exact ih (Nat.le_of_succ_le_succ hle) hr hr'

/-! ### Contractions in a row -/

variable [Weight W]

/-- One contraction after another, each with the chooser as the one before it left it, finds the
cuts. -/
inductive Trials (n : Nat) (es : List (Edge W)) (below : Nat → σ → Nat × σ) :
    σ → List Nat → σ → Prop
  | nil (s : σ) : Trials n es below s [] s
  | cons {s s₁ s' : σ} {cut : Nat} {cuts : List Nat} : minCut n es below s = .ok (cut, s₁) →
      Trials n es below s₁ cuts s' → Trials n es below s (cut :: cuts) s'

/-- A contraction finds a cut, which is without edges just when there is a single vertex or two that
are not connected. -/
lemma exists_minCut_eq_zero_iff (hbelow : ∀ b s, 0 < b → (below b s).1 < b)
    (h : checkEdges n es = .ok ()) (s : σ) :
    ∃ cut s', minCut n es below s = .ok (cut, s') ∧
      (cut = 0 ↔ n = 1 ∨ ∃ u < n, ∃ v < n, ¬ Joined es u v) := by
  obtain ⟨hn, hes⟩ := checkEdges_eq_ok h
  obtain ⟨picks, c, s', hpicks, hends, hc⟩ :=
    Contraction.exists_ends hbelow (Contraction.reaches_start hes) s
  exact ⟨_, s', minCut_eq_of_ends h hends hpicks, hc.crossing_eq_zero_iff hes hends.isOver hn⟩

/-- Whether a cut is without edges does not depend on what is chosen. -/
lemma exists_trials (hbelow : ∀ b s, 0 < b → (below b s).1 < b) (h : checkEdges n es = .ok ())
    (count : Nat) (s : σ) :
    ∃ cuts s', cuts.length = count ∧ Trials n es below s cuts s' ∧
      ∀ cut ∈ cuts, cut = 0 ↔ n = 1 ∨ ∃ u < n, ∃ v < n, ¬ Joined es u v := by
  induction count generalizing s with
  | zero => exact ⟨[], s, rfl, .nil s, by simp⟩
  | succ count ih =>
      obtain ⟨cut, s₁, hcut, hzero⟩ := exists_minCut_eq_zero_iff hbelow h s
      obtain ⟨cuts, s', hlen, htrials, hall⟩ := ih s₁
      exact ⟨cut :: cuts, s', by rw [List.length_cons, hlen], .cons hcut htrials,
        List.forall_mem_cons.2 ⟨hzero, hall⟩⟩

/-! ### Several trials -/

lemma minCut_eq_randomCut (h : checkEdges n es = .ok ()) :
    minCut n es below s = randomCut n es below s := by
  simp only [minCut, h]
  rfl

lemma minCutOfTrials_eq_leastCut (h : checkEdges n es = .ok ())
    (hcut : minCut n es below s = .ok (cut, s')) (trials : Nat) :
    minCutOfTrials n es trials below s = leastCut n es below (trials - 1) cut s' := by
  rw [minCut_eq_randomCut h] at hcut
  simp only [minCutOfTrials, h, hcut]
  rfl

lemma leastCut_succ (hbest : best ≠ 0) (h : checkEdges n es = .ok ())
    (hcut : minCut n es below s = .ok (cut, s')) :
    leastCut n es below (trials + 1) best s = leastCut n es below trials (min best cut) s' := by
  rw [minCut_eq_randomCut h] at hcut
  rw [leastCut, if_neg hbest, hcut]
  rfl

/-- The search for the least cut comes to an end. -/
lemma exists_leastCut (hbelow : ∀ b s, 0 < b → (below b s).1 < b) (h : checkEdges n es = .ok ())
    (trials best : Nat) (s : σ) : ∃ r, leastCut n es below trials best s = .ok r := by
  induction trials generalizing best s with
  | zero => exact ⟨_, rfl⟩
  | succ trials ih =>
      rcases eq_or_ne best 0 with rfl | hbest
      · exact ⟨_, leastCut_zero n es below _ s⟩
      · obtain ⟨cut, s', hcut, -⟩ := exists_minCut_eq_zero_iff hbelow h s
        rw [leastCut_succ hbest h hcut]
        exact ih _ _

/-- As long as every cut has edges the search goes on. -/
lemma Trials.leastCut_eq (htrials : Trials n es below s cuts s') (h : checkEdges n es = .ok ())
    (hcuts : ∀ cut ∈ cuts, cut ≠ 0) (hbest : best ≠ 0) :
    leastCut n es below cuts.length best s = .ok (cuts.foldl min best, s') := by
  induction htrials generalizing best with
  | nil => rfl
  | @cons s s₁ s' cut cuts hcut _ ih =>
      obtain ⟨hne, hcuts⟩ := List.forall_mem_cons.1 hcuts
      rw [List.length_cons, leastCut_succ hbest h hcut]
      exact ih hcuts (by omega)

/-- So many trials, of which there is at least one, give the least of the cuts that as many single
contractions find in a row. They leave the chooser as the first contraction does if there is a single
vertex or two that are not connected, and as the last one does otherwise. With more trials the cut
does not become greater. -/
theorem exists_minCutOfTrials_least (hbelow : ∀ b s, 0 < b → (below b s).1 < b)
    (h : checkEdges n es = .ok ()) :
    (∀ trials s, ∃ cuts s' best s'', cuts.length = max trials 1 ∧ Trials n es below s cuts s' ∧
      cuts.min? = some best ∧ minCutOfTrials n es trials below s = .ok (best, s'') ∧
      ((n = 1 ∨ ∃ u < n, ∃ v < n, ¬ Joined es u v) → minCut n es below s = .ok (best, s'')) ∧
      (¬ (n = 1 ∨ ∃ u < n, ∃ v < n, ¬ Joined es u v) → s'' = s')) ∧
    ∀ trials trials' s r r', 1 ≤ trials → trials ≤ trials' →
      minCutOfTrials n es trials below s = .ok r → minCutOfTrials n es trials' below s = .ok r' →
        r'.1 ≤ r.1 := by
  refine ⟨fun trials s => ?_, fun trials trials' s r r' _ hle hr hr' => ?_⟩
  · have hcount : max trials 1 = trials - 1 + 1 := by omega
    obtain ⟨cuts, s', hlen, htrials, hzero⟩ := exists_trials hbelow h (max trials 1) s
    cases htrials with
    | nil => cases hlen.trans hcount
    | @cons _ s₁ _ cut cuts hcut hrest =>
        obtain ⟨hfirst, hall⟩ := List.forall_mem_cons.1 hzero
        have hrestlen : cuts.length = trials - 1 := Nat.succ.inj (hlen.trans hcount)
        have hleast := minCutOfTrials_eq_leastCut h hcut trials
        by_cases hnone : n = 1 ∨ ∃ u < n, ∃ v < n, ¬ Joined es u v
        · obtain rfl := hfirst.2 hnone
          rw [leastCut_zero] at hleast
          refine ⟨_, s', 0, s₁, hlen, .cons hcut hrest, ?_, hleast, fun _ => hcut,
            fun hsome => absurd hnone hsome⟩
          exact List.min?_eq_some_iff.2 ⟨List.mem_cons_self, fun _ _ => Nat.zero_le _⟩
        · have hne : ∀ cut ∈ cuts, cut ≠ 0 := fun cut hmem hc => hnone ((hall cut hmem).1 hc)
          rw [← hrestlen, hrest.leastCut_eq h hne fun hc => hnone (hfirst.1 hc)] at hleast
          exact ⟨_, s', _, s', hlen, .cons hcut hrest, rfl, hleast, fun hsome => absurd hsome hnone,
            fun _ => rfl⟩
  · obtain ⟨cut, s₁, hcut, -⟩ := exists_minCut_eq_zero_iff hbelow h s
    rw [minCutOfTrials_eq_leastCut h hcut] at hr hr'
    exact leastCut_anti (by omega) hr hr'

/-- A triangle with two sides doubled. The first number of the tape picks the single side, which
leaves four edges across, the second one a double side, which leaves three. -/
theorem exists_minCutOfTrials_least_triangle :
    let edge (u v : Vertex) : Edge (Saturating (IntRange.signed 32)) := ⟨u, v, 0⟩
    let es := [edge 0 1, edge 1 2, edge 2 1, edge 2 0, edge 0 2]
    let tape := [10, 6, 3]
    (∀ b tape, 0 < b → (readTape b tape).1 < b) ∧ checkEdges 3 es = .ok () ∧
      minCutOfTrials 3 es 1 readTape tape = .ok (4, [6, 3]) ∧
      minCutOfTrials 3 es 2 readTape tape = .ok (3, [3]) ∧
      ∃ cuts s' best s'', cuts.length = max 2 1 ∧ Trials 3 es readTape tape cuts s' ∧
        cuts.min? = some best ∧ minCutOfTrials 3 es 2 readTape tape = .ok (best, s'') ∧
        ((3 = 1 ∨ ∃ u < 3, ∃ v < 3, ¬ Joined es u v) →
          minCut 3 es readTape tape = .ok (best, s'')) ∧
        (¬ (3 = 1 ∨ ∃ u < 3, ∃ v < 3, ¬ Joined es u v) → s'' = s') := by
  intro edge es tape
  have hbelow : ∀ b tape, 0 < b → (readTape b tape).1 < b := by
    intro b tape hb
    cases tape with
    | nil => exact hb
    | cons x tape => exact Nat.mod_lt x hb
  have h : checkEdges 3 es = .ok () := by decide
  exact ⟨hbelow, h, by decide, by decide, (exists_minCutOfTrials_least hbelow h).1 2 tape⟩

end WeightedGraph
