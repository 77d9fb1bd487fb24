import Mathlib
import WeightedGraph.Proofs.EdgeList.Check
import WeightedGraph.Proofs.MinCut.Cut
import WeightedGraph.Random.Below
import WeightedGraph.Weight.Saturating

/-!
Every contraction ends, and the edges that it leaves are those across a cut.

* `Contraction.Reaches`: what holds of every state of a contraction, whichever candidates are picked:
  its sets are connected by edges, and the candidates that are left include every edge between two
  sets as often as it occurs.
* `Contraction.Merged`, `Contraction.Dropped`: what a pick does to the state; `exists_pick` says that
  it does one of the two.
* `Contraction.Ends`: the picks that are made until the contraction is over, counted. There are at most
  as many as there are merges to make and candidates to drop: `exists_ends`.
* `Contraction.Reaches.crossing_eq_cutSize`: when it is over, the edges between the sets are those
  across any cut that the sets respect. This holds however the contraction ended.
-/

namespace WeightedGraph

open EdgeList

/-! ### Removing a candidate -/

lemma perm_back_cons_pop {α : Type} {xs : Array α} (h : 0 < xs.size) :
    (xs.back h :: xs.pop.toList).Perm xs.toList := by
  have hne : xs.toList ≠ [] := by simpa using Array.size_pos_iff.1 h
  have hsplit := List.dropLast_append_getLast hne
  rw [Array.getLast_toList, ← Array.toList_pop] at hsplit
  exact (List.perm_append_singleton _ _).symm.trans (.of_eq hsplit)

/-- The elements without the one at `i`, in another order. -/
lemma perm_cons_replaceByLast {α : Type} {xs : Array α} {i : Nat} (hi : i < xs.size) :
    (xs[i] :: (replaceByLast xs i).toList).Perm xs.toList := by
  have hlast : xs.size - 1 < xs.size := by omega
  have hpos : 0 < (xs.swap i (xs.size - 1)).size := by
    rw [Array.size_swap]
    omega
  have hback : (xs.swap i (xs.size - 1)).back hpos = xs[i] := by
    simp [Array.back_eq_getElem]
  have hswap := Array.perm_iff_toList_perm.1 (Array.swap_perm hi hlast)
  rw [replaceByLast, Array.swapIfInBounds_def, dif_pos hi, dif_pos hlast, ← hback]
  exact (perm_back_cons_pop hpos).trans hswap

namespace Contraction

variable {W : Type} {n i : Nat} {e : Edge W} {es : List (Edge W)} {c c' : Contraction W}

/-! ### The states of a contraction -/

/-- What holds of the states of a contraction of the vertices below `n` by the edges `es`. -/
structure Reaches (n : Nat) (es : List (Edge W)) (c : Contraction W) : Prop where
  wellFormed : c.sets.WellFormed
  size_eq : c.sets.size = n
  /-- Two vertices or more are not merged into one set. -/
  two_le_sets : 2 ≤ n → 2 ≤ c.sets.sets
  /-- Vertices of the same set are connected by edges. -/
  joined : ∀ u v, c.sets.rootOf u = c.sets.rootOf v → Joined es u v
  within : Within n c.candidates.toList
  /-- The edges between different sets are candidates, each as often as it occurs. -/
  perm_filter :
    (c.candidates.toList.filter (Edge.crosses c.sets)).Perm (es.filter (Edge.crosses c.sets))

/-- The candidate `e` joined two sets, which were merged. -/
structure Merged (c : Contraction W) (e : Edge W) (c' : Contraction W) : Prop where
  crosses : e.crosses c.sets = true
  sets_eq : c'.sets.sets + 1 = c.sets.sets
  merges : c.sets.Merges e.source e.target c'.sets
  candidates_eq : c'.candidates = c.candidates

/-- The candidate `e` lay inside a set and was removed. -/
structure Dropped (c : Contraction W) (e : Edge W) (c' : Contraction W) : Prop where
  not_crosses : e.crosses c.sets = false
  sets_eq : c'.sets.sets = c.sets.sets
  rootOf_eq_iff : ∀ u v, c'.sets.rootOf u = c'.sets.rootOf v ↔ c.sets.rootOf u = c.sets.rootOf v
  perm : (e :: c'.candidates.toList).Perm c.candidates.toList

lemma isOver_iff : c.isOver = true ↔ c.sets.sets ≤ 2 ∨ c.candidates.size = 0 := by
  rw [isOver, Bool.or_eq_true, decide_eq_true_iff, Array.isEmpty_iff_size_eq_zero]

lemma of_not_isOver (h : c.isOver = false) : 2 < c.sets.sets ∧ 0 < c.candidates.size := by
  rw [← Bool.not_eq_true, isOver_iff] at h
  omega

/-- Edges that pass the stricter of two tests are the same in both lists if those that pass the
other one are. -/
lemma perm_filter_of_imp {p q : Edge W → Bool} {fs : List (Edge W)}
    (h : (es.filter q).Perm (fs.filter q)) (hpq : ∀ e, p e = true → q e = true) :
    (es.filter p).Perm (fs.filter p) := by
  have htwice : ∀ l : List (Edge W), (l.filter q).filter p = l.filter p := by
    intro l
    rw [List.filter_filter]
    refine List.filter_congr fun e _ => ?_
    cases hp : p e with
    | true => rw [hpq e hp, Bool.and_self]
    | false => rfl
  rw [← htwice es, ← htwice fs]
  exact h.filter p

namespace Reaches

lemma crosses_mem (h : c.Reaches n es) (he : e ∈ c.candidates.toList)
    (hc : e.crosses c.sets = true) : e ∈ es :=
  List.mem_of_mem_filter (h.perm_filter.subset (List.mem_filter.2 ⟨he, hc⟩))

lemma merged (h : c.Reaches n es) (hm : c.Merged e c') (he : e ∈ c.candidates.toList)
    (hover : c.isOver = false) (hw : c'.sets.WellFormed) (hsize : c'.sets.size = c.sets.size) :
    c'.Reaches n es where
  wellFormed := hw
  size_eq := hsize.trans h.size_eq
  two_le_sets _ := by
    have hsets := hm.sets_eq
    have hthree := (of_not_isOver hover).1
    omega
  joined u v huv := by
    have hj : Joined es e.source e.target := joined_of_mem (h.crosses_mem he hm.crosses)
    rcases (hm.merges u v).1 huv with huv | ⟨hu, hv⟩ | ⟨hu, hv⟩
    · exact h.joined u v huv
    · exact ((h.joined _ _ hu).trans hj).trans (h.joined _ _ hv)
    · exact ((h.joined _ _ hu).trans hj.symm).trans (h.joined _ _ hv)
  within := hm.candidates_eq ▸ h.within
  perm_filter := by
    rw [hm.candidates_eq]
    refine perm_filter_of_imp h.perm_filter fun f hf => ?_
    rw [Edge.crosses_iff] at hf ⊢
    exact fun hroot => hf ((hm.merges _ _).2 (Or.inl hroot))

lemma dropped (h : c.Reaches n es) (hd : c.Dropped e c') (hw : c'.sets.WellFormed)
    (hsize : c'.sets.size = c.sets.size) : c'.Reaches n es where
  wellFormed := hw
  size_eq := hsize.trans h.size_eq
  two_le_sets hn := hd.sets_eq ▸ h.two_le_sets hn
  joined u v huv := h.joined u v ((hd.rootOf_eq_iff u v).1 huv)
  within := h.within.subset fun _ hf => hd.perm.subset (List.mem_cons_of_mem e hf)
  perm_filter := by
    have hsame : Edge.crosses (W := W) c'.sets = Edge.crosses c.sets := by
      funext f
      rw [Bool.eq_iff_iff, Edge.crosses_iff, Edge.crosses_iff, Ne, Ne, hd.rootOf_eq_iff]
    have hfilter := hd.perm.filter (Edge.crosses c.sets)
    rw [List.filter_cons_of_neg (by rw [hd.not_crosses]; exact Bool.false_ne_true)] at hfilter
    rw [hsame]
    exact hfilter.trans h.perm_filter

end Reaches

lemma pick_eq (hi : i < c.candidates.size) {joined : Bool} {sets : UnionFind}
    (h : c.sets.union c.candidates[i].source c.candidates[i].target = .ok (joined, sets)) :
    c.pick i = .ok (if joined then { c with sets := sets }
      else ⟨sets, replaceByLast c.candidates i⟩) := by
  simp only [pick, Array.getElem?_eq_getElem hi, h]
  rfl

/-- While the contraction is not over, a pick merges two sets or drops a candidate. -/
theorem exists_pick (h : c.Reaches n es) (hover : c.isOver = false) (hi : i < c.candidates.size) :
    ∃ c', c.pick i = .ok c' ∧ c'.Reaches n es ∧
      (c.Merged c.candidates[i] c' ∨ c.Dropped c.candidates[i] c') := by
  have hmem : c.candidates[i] ∈ c.candidates.toList := Array.getElem_mem_toList hi
  obtain ⟨hsrc, htgt⟩ := h.within _ hmem
  rw [← h.size_eq] at hsrc htgt
  obtain ⟨joined, sets, hunion, hjoin⟩ := UnionFind.exists_union h.wellFormed hsrc htgt
  rw [pick_eq hi hunion]
  cases joined with
  | true =>
      have hm : c.Merged c.candidates[i] { c with sets := sets } :=
        ⟨Edge.crosses_iff.2 (hjoin.joined_iff.1 rfl), hjoin.sets_eq, hjoin.merges, rfl⟩
      exact ⟨_, rfl, h.merged hm hmem hover hjoin.wellFormed hjoin.size_eq, Or.inl hm⟩
  | false =>
      have hnot : c.candidates[i].crosses c.sets = false := by
        rw [← Bool.not_eq_true, Edge.crosses_iff, not_not]
        exact hjoin.rootOf_eq
      have hd : c.Dropped c.candidates[i] ⟨sets, replaceByLast c.candidates i⟩ :=
        ⟨hnot, hjoin.sets_eq, hjoin.merges.rootOf_eq_iff hjoin.rootOf_eq,
          perm_cons_replaceByLast hi⟩
      exact ⟨_, rfl, h.dropped hd hjoin.wellFormed hjoin.size_eq, Or.inr hd⟩

/-- The picks that may be left: merges down to two sets, and candidates to drop. -/
def picksLeft (c : Contraction W) : Nat :=
  c.sets.sets - 2 + c.candidates.size

lemma Merged.picksLeft_eq (h : c.Merged e c') (hover : c.isOver = false) :
    c'.picksLeft + 1 = c.picksLeft := by
  have hsets := h.sets_eq
  have hthree := (of_not_isOver hover).1
  rw [picksLeft, picksLeft, h.candidates_eq]
  omega

lemma Dropped.size_candidates (h : c.Dropped e c') :
    c'.candidates.size + 1 = c.candidates.size := by
  have hlen := h.perm.length_eq
  rwa [List.length_cons, Array.length_toList, Array.length_toList] at hlen

lemma Dropped.picksLeft_eq (h : c.Dropped e c') : c'.picksLeft + 1 = c.picksLeft := by
  have hsize := h.size_candidates
  rw [picksLeft, picksLeft, h.sets_eq]
  omega

/-! ### The end of a contraction -/

section Ends

variable {σ : Type} {below : Nat → σ → Nat × σ} {picks : Nat} {s s' : σ}

/-- So many picks lead from one state to another, where the contraction is over, and it was not over
before any of them. -/
inductive Ends (below : Nat → σ → Nat × σ) :
    Nat → Contraction W → σ → Contraction W → σ → Prop
  | stop {c : Contraction W} {s : σ} : c.isOver = true → Ends below 0 c s c s
  | pick {picks : Nat} {c c₁ c' : Contraction W} {s s' : σ} : c.isOver = false →
      c.pick (below c.candidates.size s).1 = .ok c₁ →
      Ends below picks c₁ (below c.candidates.size s).2 c' s' → Ends below (picks + 1) c s c' s'

lemma Ends.isOver (h : Ends below picks c s c' s') : c'.isOver = true := by
  induction h with
  | stop h => exact h
  | pick _ _ _ ih => exact ih

/-- A run that is allowed these picks comes to their end. -/
lemma Ends.run_eq (h : Ends below picks c s c' s') {fuel : Nat} (hf : picks ≤ fuel) :
    c.run below fuel s = .ok (c', s') := by
  induction h generalizing fuel with
  | @stop c s hover =>
      cases fuel with
      | zero => rfl
      | succ fuel => rw [run, if_pos hover]
  | @pick picks c c₁ c' s s' hover hpick _ ih =>
      cases fuel with
      | zero => omega
      | succ fuel =>
          rw [run, hover, if_neg Bool.false_ne_true]
          simp only [hpick]
          exact ih (by omega)

/-- Every contraction ends, since each pick leaves one less of those that may be left. -/
theorem exists_ends (hbelow : ∀ b s, 0 < b → (below b s).1 < b) (h : c.Reaches n es) (s : σ) :
    ∃ picks c' s', picks ≤ c.picksLeft ∧ Ends below picks c s c' s' ∧ c'.Reaches n es := by
  induction hp : c.picksLeft using Nat.strong_induction_on generalizing c s with
  | _ p ih =>
      cases hover : c.isOver with
      | true => exact ⟨0, c, s, Nat.zero_le p, .stop hover, h⟩
      | false =>
          have hi := hbelow c.candidates.size s (of_not_isOver hover).2
          obtain ⟨c₁, hpick, hc₁, hstep⟩ := exists_pick h hover hi
          have hless : c₁.picksLeft + 1 = c.picksLeft := by
            rcases hstep with hm | hd
            · exact hm.picksLeft_eq hover
            · exact hd.picksLeft_eq
          obtain ⟨picks, c', s', hpicks, hends, hc'⟩ :=
            ih c₁.picksLeft (by omega) hc₁ (below c.candidates.size s).2 rfl
          exact ⟨picks + 1, c', s', by omega, .pick hover hpick hends, hc'⟩

end Ends

/-! ### The beginning -/

lemma size_candidates_start (n : Nat) (es : List (Edge W)) :
    (start n es).candidates.size = (es.filter fun e => !e.isLoop).length :=
  List.size_toArray

/-- At the beginning every edge between two vertices is a candidate. -/
lemma reaches_start (hes : Within n es) : (start n es).Reaches n es where
  wellFormed := UnionFind.wellFormed_singletons n
  size_eq := UnionFind.size_singletons n
  two_le_sets hn := hn
  joined u v huv := by
    rw [start, UnionFind.rootOf_singletons, UnionFind.rootOf_singletons] at huv
    exact huv ▸ joined_refl es u
  within := hes.subset (List.filter_subset_self _)
  perm_filter := by
    refine .of_eq ?_
    rw [start, List.toList_toArray, List.filter_filter]
    refine List.filter_congr fun e _ => ?_
    simp [Edge.crosses, Edge.isLoop, UnionFind.rootOf_singletons, bne]

lemma picksLeft_start (n : Nat) (es : List (Edge W)) :
    (start n es).picksLeft = n - 2 + (start n es).candidates.size :=
  rfl

/-! ### What is left in the end -/

/-- When the contraction is over, the edges between its sets are those across any cut that the sets
respect: either the two sides of the cut are all that is left, or no edge is. -/
theorem Reaches.crossing_eq_cutSize (h : c.Reaches n es) (hes : Within n es)
    (hover : c.isOver = true) {S : Finset Vertex} (hne : S.Nonempty) (hS : S ⊂ Finset.range n)
    (hr : c.sets.Respects n S) : crossing c.sets es = cutSize S es := by
  rw [crossing_eq_countP, cutSize]
  refine List.countP_congr fun e he => ⟨fun hc => ?_, hr.crosses_of_leaves (hes e he)⟩
  have htwo : 2 ≤ c.sets.sets := h.two_le_sets (two_le_of_ssubset_range hne hS)
  rcases isOver_iff.1 hover with hsets | hsize
  · exact hr.leaves_of_crosses h.wellFormed h.size_eq (by omega) hne hS (hes e he) hc
  · -- an edge between two sets would still be a candidate
    have hmem := h.perm_filter.symm.subset (List.mem_filter.2 ⟨he, hc⟩)
    have hnil : c.candidates.toList = [] := by
      rw [← List.length_eq_zero_iff, Array.length_toList, hsize]
    rw [hnil] at hmem
    exact absurd hmem List.not_mem_nil

/-- When the contraction of at least two vertices is over, there is a cut that its sets respect. -/
lemma Reaches.crossing_mem_cutSizes (h : c.Reaches n es) (hes : Within n es)
    (hover : c.isOver = true) (hn : 2 ≤ n) : crossing c.sets es ∈ cutSizes n es := by
  have htwo := h.two_le_sets hn
  obtain ⟨r, hr⟩ := Finset.card_pos.1 (show 0 < c.sets.roots.card by
    rw [← h.wellFormed.sets_eq]
    omega)
  have hne := UnionFind.side_nonempty h.wellFormed hr
  have hS := UnionFind.side_ssubset h.wellFormed htwo r
  have hrespects := c.sets.respects_side r
  rw [h.size_eq] at hS hrespects
  exact ⟨_, hne, hS, (h.crossing_eq_cutSize hes hover hne hS hrespects).symm⟩

/-- No edge is left between the sets just when there is a single vertex or two that are not
connected. -/
theorem Reaches.crossing_eq_zero_iff (h : c.Reaches n es) (hes : Within n es)
    (hover : c.isOver = true) (hn : 1 ≤ n) :
    crossing c.sets es = 0 ↔ n = 1 ∨ ∃ u < n, ∃ v < n, ¬ Joined es u v := by
  constructor
  · intro hzero
    refine or_iff_not_imp_left.2 fun hone => ?_
    obtain ⟨S, hne, hS, hsize⟩ := h.crossing_mem_cutSizes hes hover (by omega)
    exact exists_not_joined_of_cutSize_eq_zero hne hS (hsize.trans hzero)
  · rintro (rfl | ⟨u, hu, v, hv, huv⟩)
    · refine List.countP_eq_zero.2 fun e he => ?_
      obtain ⟨hsrc, htgt⟩ := hes e he
      simp [Nat.lt_one_iff.1 hsrc, Nat.lt_one_iff.1 htgt]
    · obtain ⟨S, hne, hS, hside⟩ := exists_side_of_not_joined hu hv huv
      have hrespects : c.sets.Respects n S := fun a ha b hb hab =>
        hside a ha b hb (h.joined a b hab)
      rw [h.crossing_eq_cutSize hes hover hne hS hrespects, cutSize, List.countP_eq_zero]
      intro e he
      rw [Edge.leaves_iff, not_not]
      exact hside _ (hes e he).1 _ (hes e he).2 (joined_of_mem he)

end Contraction

/-! ### A trial -/

section Trial

variable {W σ : Type} [Weight W] {n : Nat} {es : List (Edge W)} {below : Nat → σ → Nat × σ}

/-- What a trial gives is what its picks leave. -/
lemma minCut_eq_of_ends (h : checkEdges n es = .ok ()) {picks : Nat} {c : Contraction W} {s s' : σ}
    (hends : Contraction.Ends below picks (Contraction.start n es) s c s')
    (hpicks : picks ≤ (Contraction.start n es).picksLeft) :
    minCut n es below s = .ok (crossing c.sets es, s') := by
  have hrun := hends.run_eq hpicks
  rw [Contraction.picksLeft_start] at hrun
  simp only [minCut, h, randomCut, bind, Except.bind, hrun]
  rfl

/-- Every trial ends, with at most two picks less than there are vertices for the merges and one for
each edge that is no loop, and gives the number of edges across a cut. It gives `0` just when there
is a single vertex or two that are not connected. -/
theorem exists_minCut_crossing (hbelow : ∀ b s, 0 < b → (below b s).1 < b)
    (h : checkEdges n es = .ok ()) (s : σ) :
    ∃ picks c s', Contraction.Ends below picks (Contraction.start n es) s c s' ∧
      picks ≤ n - 2 + (es.filter fun e => !e.isLoop).length ∧
      minCut n es below s = .ok (crossing c.sets es, s') ∧
      (crossing c.sets es = 0 ↔ n = 1 ∨ ∃ u < n, ∃ v < n, ¬ Joined es u v) ∧
      (2 ≤ n → crossing c.sets es ∈ cutSizes n es ∧
        ∀ k, IsLeast (cutSizes n es) k → k ≤ crossing c.sets es) := by
  obtain ⟨hn, hes⟩ := checkEdges_eq_ok h
  obtain ⟨picks, c, s', hpicks, hends, hc⟩ :=
    Contraction.exists_ends hbelow (Contraction.reaches_start hes) s
  refine ⟨picks, c, s', hends, ?_, minCut_eq_of_ends h hends hpicks,
    hc.crossing_eq_zero_iff hes hends.isOver hn, fun htwo => ?_⟩
  · rwa [Contraction.picksLeft_start, Contraction.size_candidates_start] at hpicks
  · have hmem := hc.crossing_mem_cutSizes hes hends.isOver htwo
    exact ⟨hmem, fun k hk => hk.2 hmem⟩

/-- A triangle with a loop and a parallel edge beside it, and a vertex apart: the first two words
pick the parallel edges one after the other, so the second of them is dropped. -/
theorem exists_minCut_crossing_apart :
    let edge (u v : Vertex) : Edge (Saturating (IntRange.signed 32)) := ⟨u, v, 0⟩
    let es := [edge 0 1, edge 1 0, edge 1 2, edge 2 2, edge 2 0]
    let s : WordSource := ⟨[0, 0x4000000000000000], 7, 0⟩
    (∀ b (s : WordSource), 0 < b → (s.below b).1 < b) ∧ checkEdges 4 es = .ok () ∧
      ∃ picks c s', Contraction.Ends (fun b s => s.below b) picks (Contraction.start 4 es) s c s' ∧
        picks ≤ 4 - 2 + 4 ∧
        minCut 4 es (fun b s => s.below b) s = .ok (crossing c.sets es, s') ∧
        (crossing c.sets es = 0 ↔ 4 = 1 ∨ ∃ u < 4, ∃ v < 4, ¬ Joined es u v) ∧
        (2 ≤ 4 → crossing c.sets es ∈ cutSizes 4 es ∧
          ∀ k, IsLeast (cutSizes 4 es) k → k ≤ crossing c.sets es) := by
  intro edge es s
  have h : checkEdges 4 es = .ok () := by decide
  exact ⟨fun b s hb => WordSource.below_lt hb s, h,
    exists_minCut_crossing (fun b s hb => WordSource.below_lt hb s) h s⟩

end Trial

end WeightedGraph
