import Mathlib
import WeightedGraph.Proofs.MinCut.Contraction

/-!
How likely one trial finds a minimum cut, when every candidate is picked with the same chance.

* `Contraction.average`: the average of a number over all the ways in which a contraction can go on.
* `chance`: the average of `1` for the trials that give a certain cut and `0` for the others.
* `Contraction.Reaches.two_div_le_average`: a contraction that has come down to `r` sets without merging
  across a minimum cut ends with that cut with a chance of at least `2 / (r * (r - 1))`. The induction
  is on the picks that may be left. An edge inside a set is dropped, which changes neither side; of
  the edges between sets at most the fraction `2 / r` leaves the cut, as each set is a side of a cut
  itself.
* `tapes`, `readTape`: sequences of numbers from which the picks are read as remainders. Where every
  bound divides the number of their values the picks are independent and uniform, and `chance` is
  the fraction of the tapes on which the trial gives the cut: `card_finds_div_eq_chance`.
-/

namespace WeightedGraph

open EdgeList

variable {W : Type}

/-! ### Averages -/

/-- A number for a result, and `0` for a failure. -/
def orZero {α : Type} (f : α → ℚ) : Except GraphError α → ℚ
  | .ok a => f a
  | .error _ => 0

namespace Contraction

/-- The average of `f` over the ends of a contraction of at most so many picks, where at each pick
every candidate has the same chance. -/
def average (f : Contraction W → ℚ) : Nat → Contraction W → ℚ
  | 0, c => f c
  | fuel + 1, c =>
      if c.isOver then f c
      else (∑ i : Fin c.candidates.size, orZero (average f fuel) (c.pick i)) / c.candidates.size

variable {f : Contraction W → ℚ} {c : Contraction W}

lemma average_of_isOver (h : c.isOver = true) (fuel : Nat) : c.average f fuel = f c := by
  cases fuel with
  | zero => rfl
  | succ fuel => rw [average, if_pos h]

lemma average_of_not_isOver (h : c.isOver = false) (fuel : Nat) :
    c.average f (fuel + 1) =
      (∑ i : Fin c.candidates.size, orZero (average f fuel) (c.pick i)) / c.candidates.size := by
  rw [average, h, if_neg Bool.false_ne_true]

lemma average_nonneg (hf : ∀ c, 0 ≤ f c) (fuel : Nat) (c : Contraction W) :
    0 ≤ c.average f fuel := by
  induction fuel generalizing c with
  | zero => exact hf c
  | succ fuel ih =>
      rw [average]
      split
      · exact hf c
      · refine div_nonneg (Finset.sum_nonneg fun i _ => ?_) (Nat.cast_nonneg _)
        cases c.pick i with
        | ok c' => exact ih c'
        | error _ => exact le_rfl

/-- A lower bound for what each candidate leads to gives one for the average. -/
lemma sum_map_div_le_average {fuel : Nat} {g : Edge W → ℚ} (hover : c.isOver = false)
    (h : ∀ i (hi : i < c.candidates.size), ∃ c', c.pick i = .ok c' ∧
      g c.candidates[i] ≤ c'.average f fuel) :
    (c.candidates.toList.map g).sum / c.candidates.size ≤ c.average f (fuel + 1) := by
  rw [average_of_not_isOver hover]
  refine div_le_div_of_nonneg_right ?_ (Nat.cast_nonneg _)
  rw [← Fin.sum_univ_fun_getElem]
  refine Finset.sum_le_sum fun i _ => ?_
  obtain ⟨c', hpick, hle⟩ := h i i.2
  rw [hpick]
  exact hle

end Contraction

/-! ### Counting candidates -/

variable {n k : Nat} {es : List (Edge W)} {c : Contraction W} {S : Finset Vertex}

lemma sum_map_ite_eq_countP_mul (p : Edge W → Bool) (x : ℚ) (es : List (Edge W)) :
    (es.map fun e => if p e = true then x else 0).sum = es.countP p * x := by
  induction es with
  | nil => simp
  | cons e es ih =>
      rw [List.map_cons, List.sum_cons, ih, List.countP_cons]
      split
      · push_cast
        ring
      · simp

namespace Contraction.Reaches

/-- The candidates between different sets are all the edges there. -/
lemma countP_crosses (h : c.Reaches n es) :
    c.candidates.toList.countP (Edge.crosses c.sets) = crossing c.sets es := by
  rw [crossing_eq_countP, List.countP_eq_length_filter, List.countP_eq_length_filter]
  exact h.perm_filter.length_eq

/-- The candidates across a cut that the sets respect are all the edges there. -/
lemma countP_leaves (h : c.Reaches n es) (hes : Within n es) (hr : c.sets.Respects n S) :
    c.candidates.toList.countP (Edge.leaves S) = cutSize S es := by
  have hboth : ∀ l : List (Edge W), Within n l →
      (l.filter (Edge.crosses c.sets)).countP (Edge.leaves S) = l.countP (Edge.leaves S) := by
    intro l hl
    rw [List.countP_filter]
    refine List.countP_congr fun e he => ?_
    rw [Bool.and_eq_true, and_iff_left_iff_imp]
    exact hr.crosses_of_leaves (hl e he)
  rw [cutSize, ← hboth _ h.within, ← hboth es hes]
  exact h.perm_filter.countP_eq _

end Contraction.Reaches

/-! ### The bound -/

/-- With `r` sets left: the bound for the same number of sets, if a candidate is dropped, the bound for
one set less, if it is merged, and nothing if that spoils the cut. -/
def pickBound (s : UnionFind) (S : Finset Vertex) (r : ℚ) (e : Edge W) : ℚ :=
  if e.crosses s = true then (if e.leaves S = true then 0 else 2 / ((r - 1) * (r - 2)))
  else 2 / (r * (r - 1))

lemma sum_map_pickBound (h : c.Reaches n es) (hes : Within n es) (hr : c.sets.Respects n S)
    (r : ℚ) :
    (c.candidates.toList.map (pickBound c.sets S r)).sum =
      (c.candidates.size - crossing c.sets es) * (2 / (r * (r - 1))) +
        (crossing c.sets es - cutSize S es) * (2 / ((r - 1) * (r - 2))) := by
  set p := 2 / (r * (r - 1)) with hp
  set q := 2 / ((r - 1) * (r - 2)) with hq
  have hsplit : c.candidates.toList.map (pickBound c.sets S r) =
      c.candidates.toList.map fun e => (p + if e.crosses c.sets = true then q - p else 0) +
        if e.leaves S = true then -q else 0 := by
    refine List.map_congr_left fun e he => ?_
    have hle := hr.crosses_of_leaves (h.within e he)
    rw [pickBound, ← hp, ← hq]
    by_cases hl : e.leaves S = true
    · simp [hl, hle hl]
    · by_cases hc : e.crosses c.sets = true
      · simp [hl, hc]
      · simp [hl, hc]
  rw [hsplit, List.sum_map_add, List.sum_map_add, sum_map_ite_eq_countP_mul,
    sum_map_ite_eq_countP_mul, h.countP_crosses, h.countP_leaves hes hr, List.map_const',
    List.sum_replicate, nsmul_eq_mul, Array.length_toList]
  ring

/-- The average of these bounds is enough, since at most the fraction `2 / r` of the edges between
the sets leaves the cut. -/
lemma two_div_le_of_mul_le {r k b m : ℚ} (hr : 3 ≤ r) (hm : 0 < m) (h : r * k ≤ 2 * b) :
    2 / (r * (r - 1)) ≤
      ((m - b) * (2 / (r * (r - 1))) + (b - k) * (2 / ((r - 1) * (r - 2)))) / m := by
  have hr0 : 0 < r := by linarith
  have hr1 : 0 < r - 1 := by linarith
  have hr2 : 0 < r - 2 := by linarith
  have hkey : b * (2 / (r * (r - 1))) ≤ (b - k) * (2 / ((r - 1) * (r - 2))) := by
    rw [← mul_div_assoc, ← mul_div_assoc, div_le_div_iff₀ (mul_pos hr0 hr1) (mul_pos hr1 hr2)]
    have hfactor : (b - k) * 2 * (r * (r - 1)) - b * 2 * ((r - 1) * (r - 2)) =
        2 * (r - 1) * (2 * b - r * k) := by ring
    have hnonneg : 0 ≤ 2 * (r - 1) * (2 * b - r * k) :=
      mul_nonneg (by linarith) (by linarith)
    linarith
  rw [le_div_iff₀ hm]
  linarith

namespace Contraction

/-- Whether the edges between the sets are a given number, as a number. -/
def indicator (es : List (Edge W)) (k : Nat) (c : Contraction W) : ℚ :=
  if crossing c.sets es = k then 1 else 0

lemma indicator_nonneg (es : List (Edge W)) (k : Nat) (c : Contraction W) :
    0 ≤ c.indicator es k := by
  rw [indicator]
  split
  · exact zero_le_one
  · exact le_rfl

/-- A contraction that is over with sets that respect a cut has found this cut. -/
lemma Reaches.two_div_le_indicator (h : c.Reaches n es) (hes : Within n es) (hover : c.isOver = true)
    (hne : S.Nonempty) (hS : S ⊂ Finset.range n) (hr : c.sets.Respects n S) :
    2 / ((c.sets.sets : ℚ) * (c.sets.sets - 1)) ≤ c.indicator es (cutSize S es) := by
  have htwo : (2 : ℚ) ≤ c.sets.sets := by
    exact_mod_cast h.two_le_sets (two_le_of_ssubset_range hne hS)
  rw [indicator, if_pos (h.crossing_eq_cutSize hes hover hne hS hr)]
  rw [div_le_one (by nlinarith)]
  nlinarith

/-- Any cut that the sets respect bounds what a pick leads to, if the bound holds of the states after
the pick. -/
lemma Reaches.pickBound_le {fuel i : Nat} (h : c.Reaches n es) (hover : c.isOver = false)
    (hr : c.sets.Respects n S) (hi : i < c.candidates.size) (hfuel : c.picksLeft ≤ fuel + 1)
    (ih : ∀ c' : Contraction W, c'.Reaches n es → c'.sets.Respects n S → c'.picksLeft ≤ fuel →
      2 / ((c'.sets.sets : ℚ) * (c'.sets.sets - 1)) ≤ c'.average (indicator es k) fuel) :
    ∃ c', c.pick i = .ok c' ∧
      pickBound c.sets S c.sets.sets c.candidates[i] ≤ c'.average (indicator es k) fuel := by
  obtain ⟨c', hpick, hc', hstep⟩ := exists_pick h hover hi
  refine ⟨c', hpick, ?_⟩
  rcases hstep with hm | hd
  · have hleft := hm.picksLeft_eq hover
    rw [pickBound, if_pos hm.crosses]
    split
    · exact average_nonneg (indicator_nonneg es k) fuel c'
    · next hl =>
        rw [Edge.leaves_iff, not_not] at hl
        obtain ⟨hsrc, htgt⟩ := h.within _ (Array.getElem_mem_toList hi)
        have hsets : (c'.sets.sets : ℚ) = c.sets.sets - 1 := by
          rw [← hm.sets_eq]
          push_cast
          ring
        have hbound := ih c' hc' (hr.merges hsrc htgt hl hm.merges) (by omega)
        rw [hsets] at hbound
        convert hbound using 3
        ring
  · have hleft := hd.picksLeft_eq
    have hr' : c'.sets.Respects n S := fun u hu v hv huv =>
      hr u hu v hv ((hd.rootOf_eq_iff u v).1 huv)
    rw [pickBound, hd.not_crosses, if_neg Bool.false_ne_true, ← hd.sets_eq]
    exact ih c' hc' hr' (by omega)

/-- A contraction whose sets respect a minimum cut ends with this cut with a chance of at least
`2 / (r * (r - 1))`, where `r` is the number of sets. -/
theorem Reaches.two_div_le_average {fuel : Nat} (h : c.Reaches n es) (hes : Within n es)
    (hne : S.Nonempty) (hS : S ⊂ Finset.range n) (hr : c.sets.Respects n S)
    (hk : IsLeast (cutSizes n es) (cutSize S es)) (hfuel : c.picksLeft ≤ fuel) :
    2 / ((c.sets.sets : ℚ) * (c.sets.sets - 1)) ≤
      c.average (indicator es (cutSize S es)) fuel := by
  induction fuel generalizing c with
  | zero =>
      have hover : c.isOver = true := isOver_iff.2 (by rw [picksLeft] at hfuel; omega)
      rw [average_of_isOver hover]
      exact h.two_div_le_indicator hes hover hne hS hr
  | succ fuel ih =>
      cases hover : c.isOver with
      | true =>
          rw [average_of_isOver hover]
          exact h.two_div_le_indicator hes hover hne hS hr
      | false =>
          obtain ⟨hthree, hpos⟩ := of_not_isOver hover
          have hdegree : c.sets.sets * cutSize S es ≤ 2 * crossing c.sets es := by
            refine UnionFind.sets_mul_le_two_mul_crossing h.wellFormed (by omega) ?_ ?_
            · exact h.size_eq.symm ▸ hes
            · exact h.size_eq.symm ▸ fun j hj => hk.2 hj
          calc 2 / ((c.sets.sets : ℚ) * (c.sets.sets - 1))
              ≤ (c.candidates.toList.map (pickBound c.sets S c.sets.sets)).sum /
                  c.candidates.size := by
                rw [sum_map_pickBound h hes hr]
                exact two_div_le_of_mul_le (by exact_mod_cast hthree) (by exact_mod_cast hpos)
                  (by exact_mod_cast hdegree)
            _ ≤ c.average (indicator es (cutSize S es)) (fuel + 1) := by
                refine sum_map_div_le_average hover fun i hi => ?_
                exact h.pickBound_le hover hr hi hfuel fun c' hc' hr' hfuel' => ih hc' hr' hfuel'

end Contraction

/-! ### Tapes -/

section Tapes

variable {N L : Nat}

/-- Picks read from a tape: the remainder of the next number, and `0` after the end. -/
def readTape (b : Nat) : List Nat → Nat × List Nat
  | [] => (0, [])
  | x :: tape => (x % b, tape)

lemma readTape_lt {b : Nat} (hb : 0 < b) (tape : List Nat) : (readTape b tape).1 < b := by
  cases tape with
  | nil => exact hb
  | cons x tape => exact Nat.mod_lt x hb

lemma sum_ofFn_succ (F : List Nat → ℚ) :
    ∑ t : Fin (L + 1) → Fin N, F (List.ofFn fun j => (t j : Nat)) =
      ∑ x : Fin N, ∑ t : Fin L → Fin N, F ((x : Nat) :: List.ofFn fun j => (t j : Nat)) := by
  rw [← (Fin.consEquiv fun _ => Fin N).sum_comp, Fintype.sum_prod_type]
  simp [Fin.consEquiv, List.ofFn_succ]

/-- The remainders of the numbers below a multiple of `b` are uniform. -/
lemma sum_mod_eq {b : Nat} (hb : 0 < b) (hN : b ∣ N) (h : Nat → ℚ) :
    ∑ x : Fin N, h (x % b) = N * ((∑ i : Fin b, h i) / b) := by
  obtain ⟨q, rfl⟩ := hN
  rw [← Finset.sum_range fun x => h (x % b), ← Finset.sum_range]
  have hq : ∑ x ∈ Finset.range (b * q), h (x % b) = q * ∑ i ∈ Finset.range b, h i := by
    induction q with
    | zero => simp
    | succ q ih =>
        have hlast : ∑ x ∈ Finset.range b, h ((b * q + x) % b) = ∑ x ∈ Finset.range b, h x := by
          refine Finset.sum_congr rfl fun x hx => ?_
          rw [Nat.mul_add_mod, Nat.mod_eq_of_lt (Finset.mem_range.1 hx)]
        rw [Nat.mul_succ, Finset.sum_range_add, ih, hlast]
        push_cast
        ring
  have hb' : (b : ℚ) ≠ 0 := by exact_mod_cast hb.ne'
  rw [hq]
  push_cast
  field_simp

namespace Contraction

/-- A run that is not over reads its next pick from the tape. -/
lemma run_readTape_cons (hover : c.isOver = false) (L x : Nat) (tape : List Nat) :
    c.run readTape (L + 1) (x :: tape) =
      c.pick (x % c.candidates.size) >>= fun c' => c'.run readTape L tape := by
  rw [run, hover, if_neg Bool.false_ne_true]
  rfl

/-- On tapes of numbers below a multiple of all bounds, the average over the tapes is the average
over the picks. -/
theorem sum_run_readTape_eq {f : Contraction W → ℚ} (h : c.Reaches n es)
    (hN : ∀ b, 0 < b → b ≤ c.candidates.size → b ∣ N) (L : Nat) :
    ∑ t : Fin L → Fin N,
        orZero (fun r => f r.1) (c.run readTape L (List.ofFn fun j => (t j : Nat))) =
      N ^ L * c.average f L := by
  induction L generalizing c with
  | zero => simp [run, orZero, average]
  | succ L ih =>
      rw [sum_ofFn_succ fun tape => orZero (fun r => f r.1) (c.run readTape (L + 1) tape)]
      cases hover : c.isOver with
      | true =>
          have hrun : ∀ tape, orZero (fun r => f r.1) (c.run readTape (L + 1) tape) = f c := by
            intro tape
            rw [run, if_pos hover]
            rfl
          simp only [hrun, average_of_isOver hover]
          simp [pow_succ']
          ring
      | false =>
          have hpos := (of_not_isOver hover).2
          -- what the tapes give after the pick at `i`
          have hafter : ∀ i < c.candidates.size,
              ∑ t : Fin L → Fin N, orZero (fun r => f r.1) (c.pick i >>= fun c' =>
                c'.run readTape L (List.ofFn fun j => (t j : Nat))) =
              N ^ L * orZero (average f L) (c.pick i) := by
            intro i hi
            obtain ⟨c', hpick, hc', hstep⟩ := exists_pick h hover hi
            have hsize : c'.candidates.size ≤ c.candidates.size := by
              rcases hstep with hm | hd
              · exact hm.candidates_eq ▸ le_rfl
              · exact hd.size_candidates ▸ Nat.le_succ _
            rw [hpick]
            exact ih hc' fun b hb hbc => hN b hb (hbc.trans hsize)
          simp only [run_readTape_cons hover]
          rw [Finset.sum_congr rfl fun (x : Fin N) _ =>
              hafter (x % c.candidates.size) (Nat.mod_lt _ hpos), ← Finset.mul_sum,
            sum_mod_eq hpos (hN _ hpos le_rfl) fun i => orZero (average f L) (c.pick i),
            average_of_not_isOver hover]
          ring

end Contraction

end Tapes

/-! ### A trial -/

section Trial

/-- The chance that one trial gives `k`, if at each pick every candidate is picked with the same
chance. -/
def chance (n : Nat) (es : List (Edge W)) (k : Nat) : ℚ :=
  (Contraction.start n es).average (Contraction.indicator es k) (Contraction.start n es).picksLeft

variable [Weight W]

/-- Whether the trial with the picks of a tape gives `k`. -/
def finds (n : Nat) (es : List (Edge W)) (k : Nat) (tape : List Nat) : Bool :=
  match minCut n es readTape tape with
  | .ok (cut, _) => cut == k
  | .error _ => false

lemma orZero_run_eq_ite_finds (h : checkEdges n es = .ok ()) (k : Nat) (tape : List Nat) :
    orZero (fun r => Contraction.indicator es k r.1) ((Contraction.start n es).run readTape
      (Contraction.start n es).picksLeft tape) = if finds n es k tape = true then 1 else 0 := by
  have hminCut : minCut n es readTape tape = (fun r => (crossing r.1.sets es, r.2)) <$>
      (Contraction.start n es).run readTape (Contraction.start n es).picksLeft tape := by
    simp only [minCut, h]
    rfl
  rw [finds, hminCut]
  cases (Contraction.start n es).run readTape (Contraction.start n es).picksLeft tape with
  | error _ => rfl
  | ok r => simp [orZero, Contraction.indicator, Functor.map, Except.map]

/-- The fraction of the tapes on which the trial gives `k` is the chance that it does. -/
theorem card_finds_div_eq_chance (h : checkEdges n es = .ok ()) {N : Nat} (hN : 0 < N)
    (hdvd : ∀ b, 0 < b → b ≤ (Contraction.start n es).candidates.size → b ∣ N) (k : Nat) :
    ((Finset.univ.filter fun t : Fin (Contraction.start n es).picksLeft → Fin N =>
      finds n es k (List.ofFn fun j => (t j : Nat)) = true).card : ℚ) /
        N ^ (Contraction.start n es).picksLeft = chance n es k := by
  have hsum := Contraction.sum_run_readTape_eq (f := Contraction.indicator es k)
    (Contraction.reaches_start (checkEdges_eq_ok h).2) hdvd (Contraction.start n es).picksLeft
  simp only [orZero_run_eq_ite_finds h] at hsum
  rw [Finset.sum_boole] at hsum
  have hpow : (N : ℚ) ^ (Contraction.start n es).picksLeft ≠ 0 :=
    pow_ne_zero _ (by exact_mod_cast hN.ne')
  rw [hsum, chance, mul_div_cancel_left₀ _ hpow]

/-- From two vertices on there is a least number of edges across a cut, and one trial gives it with a
chance of at least `2 / (n * (n - 1))`. This chance is the fraction of the tapes on which the trial
gives it, for tapes of numbers below any multiple of all the numbers of candidates. -/
theorem exists_isLeast_two_div_le_chance (hn : 2 ≤ n) (h : checkEdges n es = .ok ()) :
    ∃ k, IsLeast (cutSizes n es) k ∧ 2 / ((n : ℚ) * (n - 1)) ≤ chance n es k ∧
      ∀ N, 0 < N → (∀ b, 0 < b → b ≤ (Contraction.start n es).candidates.size → b ∣ N) →
        ((Finset.univ.filter fun t : Fin (Contraction.start n es).picksLeft → Fin N =>
          finds n es k (List.ofFn fun j => (t j : Nat)) = true).card : ℚ) /
            N ^ (Contraction.start n es).picksLeft = chance n es k := by
  obtain ⟨-, hes⟩ := checkEdges_eq_ok h
  obtain ⟨k, hk⟩ := exists_isLeast_cutSizes hn es
  refine ⟨k, hk, ?_, fun N hN hdvd => card_finds_div_eq_chance h hN hdvd k⟩
  obtain ⟨S, hne, hS, rfl⟩ := hk.1
  have hrespects : (Contraction.start n es).sets.Respects n S := by
    intro u _ v _ huv
    rw [Contraction.start, UnionFind.rootOf_singletons, UnionFind.rootOf_singletons] at huv
    rw [huv]
  exact (Contraction.reaches_start hes).two_div_le_average hes hne hS hrespects hk le_rfl

/-- A triangle with a loop and a parallel edge: four candidates, so that the numbers below `12` have
uniform remainders for every bound. -/
theorem exists_isLeast_two_div_le_chance_parallel :
    let edge (u v : Vertex) : Edge (Saturating (IntRange.signed 32)) := ⟨u, v, 0⟩
    let es := [edge 0 1, edge 1 0, edge 1 2, edge 2 2, edge 2 0]
    2 ≤ 3 ∧ checkEdges 3 es = .ok () ∧
      (∀ b, 0 < b → b ≤ (Contraction.start 3 es).candidates.size → b ∣ 12) ∧
      ∃ k, IsLeast (cutSizes 3 es) k ∧ 1 / 3 ≤ chance 3 es k ∧
        ((Finset.univ.filter fun t : Fin (Contraction.start 3 es).picksLeft → Fin 12 =>
          finds 3 es k (List.ofFn fun j => (t j : Nat)) = true).card : ℚ) /
            (12 : Nat) ^ (Contraction.start 3 es).picksLeft = chance 3 es k := by
  intro edge es
  have h : checkEdges 3 es = .ok () := by decide
  have hsize : (Contraction.start 3 es).candidates.size = 4 := by decide
  have hdvd : ∀ b, 0 < b → b ≤ (Contraction.start 3 es).candidates.size → b ∣ 12 := by
    intro b hb hle
    rw [hsize] at hle
    interval_cases b <;> decide
  obtain ⟨k, hk, hchance, htapes⟩ := exists_isLeast_two_div_le_chance (by decide : 2 ≤ 3) h
  refine ⟨by decide, h, hdvd, k, hk, ?_, htapes 12 (by decide) hdvd⟩
  norm_num at hchance
  exact hchance

end Trial

end WeightedGraph
