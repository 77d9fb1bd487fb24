import Mathlib
import WeightedGraph.Proofs.Checked.UnionFind
import WeightedGraph.Proofs.MinCut.Contraction
import WeightedGraph.SpanningForest

/-!
Spanning forests and minimum cuts of lists of edges with every access checked.

* `Checked.acceptEdges`, `Checked.minimumSpanningForestBy`: once the list has passed its check,
  every endpoint is an element of the forest of sets.
* `Checked.treeCount`, `Checked.isTree`: fewer edges are accepted than there are vertices.
* `Checked.pick`, `Checked.run`, `Checked.crossing`: a contraction, for any chooser. A chooser is
  asked for an index only where there is a candidate.
* `Checked.agreesWith_minimumSpanningForestBy`, `Checked.agrees_minCut`,
  `Checked.agrees_minCutOfTrials`: no list of edges comes to a fault, for any number of vertices
  that fits in a word.
-/

namespace WeightedGraph

open EdgeList

variable {W : Type} {n : Nat} {es : List (Edge W)} {sets : UnionFind} {c : Contraction W}

namespace Checked

/-! ### The check of a list -/

section Check

variable [Weight W]

/-- The check names what is wrong with an edge, and never an index. -/
lemma checkEdges_ne_error (n : Nat) (es : List (Edge W)) :
    checkEdges n es ≠ .error .indexOutOfBounds := by
  intro h
  cases checkEdges_eq_error_iff.1 h with
  | edge _ _ _ he => cases he

end Check

/-! ### Spanning forests -/

/-- The edges that join two sets when their turn comes, at most `missing` of them. -/
def acceptEdges (sets : UnionFind) : Nat → List (Edge W) → Checked (List (Edge W))
  | 0, _ => return []
  | _ + 1, [] => return []
  | missing + 1, e :: es => do
      let (joined, sets) ← join sets e.source e.target
      if joined then return e :: (← acceptEdges sets missing es)
      else acceptEdges sets (missing + 1) es

/-- The forest that connects what the edges connect, where the edges have their turns as `sort` puts
them. -/
def minimumSpanningForestBy [Weight W] (sort : List (Edge W) → List (Edge W)) (vertexCount : Nat)
    (edges : List (Edge W)) : Checked (SpanningForest W) := do
  require (checkEdges vertexCount edges)
  let missing ← sub vertexCount 1
  return ⟨vertexCount, ← acceptEdges (UnionFind.singletons vertexCount) missing (sort edges)⟩

/-- The number of trees of a forest. -/
def treeCount (f : SpanningForest W) : Checked Nat :=
  sub f.vertexCount f.edgeCount

/-- Whether a forest is a single tree. -/
def isTree (f : SpanningForest W) : Checked Bool := do
  return (← increment 64 f.edgeCount) == f.vertexCount

/-- A forest from which its number of trees, and whether it is one, are read without a fault. -/
structure Readable (f : SpanningForest W) : Prop where
  treeCount : Checked.treeCount f = .ok f.treeCount
  isTree : Checked.isTree f = .ok f.isTree

/-- What is known of the sets of an algorithm on `n` vertices. -/
structure Counted (n : Nat) (sets : UnionFind) : Prop where
  wellFormed : sets.WellFormed
  heavy : sets.Heavy
  size_eq : sets.size = n
  size_lt : n < 2 ^ 64

namespace Counted

lemma singletons (hn : n < 2 ^ 64) : Counted n (UnionFind.singletons n) where
  wellFormed := UnionFind.wellFormed_singletons n
  heavy := UnionFind.heavy_singletons n
  size_eq := UnionFind.size_singletons n
  size_lt := hn

/-- Joining two elements comes to no fault and keeps what is known of the sets. -/
lemma join (h : Counted n sets) {x y : Nat} (hx : x < n) (hy : y < n) :
    Checked.join sets x y = .ok (sets.join x y) ∧ Counted n (sets.join x y).2 := by
  rw [← h.size_eq] at hx hy
  have hspec := UnionFind.join_spec h.wellFormed hx hy
  refine ⟨join_eq h.wellFormed h.heavy (h.size_eq.symm ▸ h.size_lt) hx hy, hspec.wellFormed, ?_, ?_,
    h.size_lt⟩
  · exact UnionFind.heavy_join h.wellFormed hx hy h.heavy
  · exact hspec.size_eq.trans h.size_eq

end Counted

theorem agreesWith_acceptEdges (h : Counted n sets) (hes : Within n es) (missing : Nat) :
    AgreesWith (fun acc => acc.length ≤ missing) (acceptEdges sets missing es)
      (WeightedGraph.acceptEdges sets missing es) := by
  induction es generalizing sets missing with
  | nil => cases missing <;> exact .value (Nat.zero_le _)
  | cons e es ih =>
      cases missing with
      | zero => exact .value le_rfl
      | succ missing =>
          obtain ⟨hsrc, htgt⟩ := hes e List.mem_cons_self
          obtain ⟨hjoin, h'⟩ := h.join hsrc htgt
          rw [acceptEdges, WeightedGraph.acceptEdges, hjoin, ok_bind,
            UnionFind.union_eq_join (h.size_eq.symm ▸ hsrc) (h.size_eq.symm ▸ htgt), ok_bind]
          generalize sets.join e.source e.target = r at h'
          obtain ⟨joined, sets'⟩ := r
          cases joined with
          | true =>
              exact (ih h' hes.of_cons missing).bind fun acc hacc =>
                .value (Nat.succ_le_succ hacc)
          | false => exact ih h' hes.of_cons (missing + 1)

/-- The forest of any list of edges is found without a fault, however the list is rearranged, and is
read without one. -/
theorem agreesWith_minimumSpanningForestBy [Weight W] {sort : List (Edge W) → List (Edge W)}
    (hsort : ∀ es, (sort es).Perm es) (hn : n < 2 ^ 64) (es : List (Edge W)) :
    AgreesWith Readable (minimumSpanningForestBy sort n es)
      (WeightedGraph.minimumSpanningForestBy sort n es) := by
  refine (agreesWith_require (checkEdges_ne_error n es)).bind fun _ hcheck => ?_
  obtain ⟨hone, hes⟩ := checkEdges_eq_ok hcheck
  rw [sub_eq hone, ok_bind]
  refine (agreesWith_acceptEdges (.singletons hn) (hes.subset (hsort es).subset) (n - 1)).bind
    fun acc hacc => .value ⟨sub_eq (hacc.trans (Nat.sub_le n 1)), ?_⟩
  have hedges : acc.length + 1 < 2 ^ 64 := by omega
  rw [isTree, SpanningForest.edgeCount, increment_eq hedges]
  rfl

/-! ### Minimum cuts -/

section Cut

variable {σ : Type} {below : Nat → σ → Nat × σ}

/-- Asks a chooser for an index below `n`, of which there has to be one. -/
def draw (below : Nat → σ → Nat × σ) (n : Nat) (s : σ) : Checked (Nat × σ) :=
  if n = 0 then throw .noChoice else return below n s

/-- The elements of an array without the one at `i`, whose place the last one takes. -/
def replaceByLast {α : Type} (xs : Array α) (i : Nat) : Checked (Array α) :=
  if i < xs.size then return WeightedGraph.replaceByLast xs i else throw .outOfBounds

/-- Picks the candidate at `i`. -/
def pick (c : Contraction W) (i : Nat) : Checked (Contraction W) := do
  let e ← read c.candidates i
  let (joined, sets) ← join c.sets e.source e.target
  if joined then return { c with sets := sets }
  else return ⟨sets, ← replaceByLast c.candidates i⟩

/-- Picks candidates until it is over, which it has to be after `fuel` of them. -/
def run (below : Nat → σ → Nat × σ) : Nat → Contraction W → σ → Checked (Contraction W × σ)
  | 0, c, s => if c.isOver then return (c, s) else throw .unfinished
  | fuel + 1, c, s =>
      if c.isOver then return (c, s)
      else do
        let (i, s) ← draw below c.candidates.size s
        run below fuel (← pick c i) s

/-- The number of edges between different sets, whose roots are looked up edge by edge. -/
def crossing (sets : UnionFind) : List (Edge W) → Checked Nat
  | [] => return 0
  | e :: es => do
      let (x, sets) ← root sets e.source
      let (y, sets) ← root sets e.target
      let count ← crossing sets es
      return if x = y then count else count + 1

/-- One contraction and the edges it leaves between its sets. -/
def randomCut (vertexCount : Nat) (edges : List (Edge W)) (below : Nat → σ → Nat × σ) (s : σ) :
    Checked (Nat × σ) := do
  let c := Contraction.start vertexCount edges
  let (c, s) ← run below (vertexCount - 2 + c.candidates.size) c s
  return (← crossing c.sets edges, s)

/-- The least of `best` and the cuts of at most `trials` contractions. -/
def leastCut (vertexCount : Nat) (edges : List (Edge W)) (below : Nat → σ → Nat × σ) :
    Nat → Nat → σ → Checked (Nat × σ)
  | 0, best, s => return (best, s)
  | trials + 1, best, s =>
      if best = 0 then return (best, s)
      else do
        let (cut, s) ← randomCut vertexCount edges below s
        leastCut vertexCount edges below trials (min best cut) s

/-- The cut that one contraction finds. -/
def minCut [Weight W] (vertexCount : Nat) (edges : List (Edge W)) (below : Nat → σ → Nat × σ)
    (s : σ) : Checked (Nat × σ) := do
  require (checkEdges vertexCount edges)
  randomCut vertexCount edges below s

/-- The least cut that a number of contractions find, of which there is at least one. -/
def minCutOfTrials [Weight W] (vertexCount : Nat) (edges : List (Edge W)) (trials : Nat)
    (below : Nat → σ → Nat × σ) (s : σ) : Checked (Nat × σ) := do
  require (checkEdges vertexCount edges)
  let (cut, s) ← randomCut vertexCount edges below s
  leastCut vertexCount edges below (trials - 1) cut s

/-- A pick of a candidate comes to no fault and keeps what is known of the sets. -/
lemma pick_eq (h : Counted n c.sets) (hes : Within n c.candidates.toList) {i : Nat}
    (hi : i < c.candidates.size) {c' : Contraction W} (hc' : c.pick i = .ok c') :
    pick c i = .ok c' ∧ Counted n c'.sets := by
  obtain ⟨hsrc, htgt⟩ := hes _ (Array.getElem_mem_toList hi)
  obtain ⟨hjoin, h'⟩ := h.join hsrc htgt
  obtain ⟨joined, sets', hunion⟩ : ∃ joined sets',
      c.sets.join c.candidates[i].source c.candidates[i].target = (joined, sets') := ⟨_, _, rfl⟩
  have hmodel := UnionFind.union_eq_join (h.size_eq.symm ▸ hsrc) (h.size_eq.symm ▸ htgt)
  rw [hunion] at hjoin h' hmodel
  rw [Contraction.pick_eq hi hmodel] at hc'
  obtain rfl := Except.ok.inj hc'
  rw [pick, read_of_getElem? (Array.getElem?_eq_getElem hi), ok_bind, hjoin, ok_bind]
  cases joined with
  | true => exact ⟨rfl, h'⟩
  | false =>
      refine ⟨?_, h'⟩
      dsimp only
      rw [if_neg Bool.false_ne_true, replaceByLast, if_pos hi]
      rfl

/-- A contraction comes to no fault, and to its end within the bound. -/
theorem agreesWith_run (hbelow : ∀ b s, 0 < b → (below b s).1 < b) (hc : c.Reaches n es)
    (h : Counted n c.sets) {fuel : Nat} (hfuel : c.picksLeft ≤ fuel) (s : σ) :
    AgreesWith (fun r => Counted n r.1.sets) (run below fuel c s) (c.run below fuel s) := by
  induction fuel generalizing c s with
  | zero =>
      have hover : c.isOver = true := by
        by_contra hover
        have hleft := Contraction.of_not_isOver (Bool.eq_false_iff.2 hover)
        rw [Contraction.picksLeft] at hfuel
        omega
      rw [run, if_pos hover]
      exact .value h
  | succ fuel ih =>
      rw [run, Contraction.run]
      cases hover : c.isOver with
      | true => exact .value h
      | false =>
          have hpos := (Contraction.of_not_isOver hover).2
          have hi := hbelow c.candidates.size s hpos
          obtain ⟨c', hpick, hc', hstep⟩ := Contraction.exists_pick hc hover hi
          obtain ⟨hpick', h'⟩ := pick_eq h hc.within hi hpick
          have hleft : c'.picksLeft + 1 = c.picksLeft := by
            rcases hstep with hm | hd
            · exact hm.picksLeft_eq hover
            · exact hd.picksLeft_eq
          rw [if_neg Bool.false_ne_true, if_neg Bool.false_ne_true, draw, if_neg (by omega)]
          show AgreesWith _ (pick c (below c.candidates.size s).1 >>= _) _
          rw [hpick']
          simp only [hpick]
          exact ih hc' h' (by omega) _

lemma crossing_cons (sets : UnionFind) (e : Edge W) (es : List (Edge W)) :
    WeightedGraph.crossing sets (e :: es) =
      if sets.rootOf e.source = sets.rootOf e.target then WeightedGraph.crossing sets es
      else WeightedGraph.crossing sets es + 1 := by
  rw [WeightedGraph.crossing, List.countP_cons]
  by_cases h : sets.rootOf e.source = sets.rootOf e.target
  · rw [if_pos h, if_neg (by simp [h])]
    rfl
  · rw [if_neg h, if_pos (by simp [h])]
    rfl

/-- The edges between the sets are counted without a fault. -/
lemma crossing_eq (h : sets.WellFormed) (hes : Within sets.size es) :
    crossing sets es = .ok (WeightedGraph.crossing sets es) := by
  induction es generalizing sets with
  | nil => rfl
  | cons e es ih =>
      obtain ⟨hsrc, htgt⟩ := hes e List.mem_cons_self
      obtain ⟨t₁, t, -, -, hx, hy, ht⟩ := exists_roots_eq h hsrc htgt
      have hrest : WeightedGraph.crossing t es = WeightedGraph.crossing sets es := by
        simp only [WeightedGraph.crossing, ht.rootOf_eq h]
      rw [crossing, hx, ok_bind]
      dsimp only
      rw [hy, ok_bind]
      dsimp only
      rw [ih (ht.wellFormed h) (ht.size_eq.symm ▸ hes.of_cons), hrest, ok_bind, crossing_cons]
      rfl

/-- A contraction of a list that has passed its check comes to no fault. -/
theorem agrees_randomCut (hbelow : ∀ b s, 0 < b → (below b s).1 < b) (hn : n < 2 ^ 64)
    (hes : Within n es) (s : σ) :
    Agrees (randomCut n es below s) (WeightedGraph.randomCut n es below s) := by
  refine (agreesWith_run hbelow (Contraction.reaches_start hes) (.singletons hn) le_rfl s).bind
    fun r hr => ?_
  obtain ⟨c, s'⟩ := r
  dsimp only
  rw [crossing_eq hr.wellFormed (hr.size_eq.symm ▸ hes)]
  exact agrees_ok _

theorem agrees_minCut [Weight W] (hbelow : ∀ b s, 0 < b → (below b s).1 < b) (hn : n < 2 ^ 64)
    (es : List (Edge W)) (s : σ) :
    Agrees (minCut n es below s) (WeightedGraph.minCut n es below s) :=
  (agreesWith_require (checkEdges_ne_error n es)).bind fun _ hcheck =>
    agrees_randomCut hbelow hn (checkEdges_eq_ok hcheck).2 s

theorem agrees_minCutOfTrials [Weight W] (hbelow : ∀ b s, 0 < b → (below b s).1 < b)
    (hn : n < 2 ^ 64) (es : List (Edge W)) (trials : Nat) (s : σ) :
    Agrees (minCutOfTrials n es trials below s)
      (WeightedGraph.minCutOfTrials n es trials below s) := by
  refine (agreesWith_require (checkEdges_ne_error n es)).bind fun _ hcheck => ?_
  have hes := (checkEdges_eq_ok hcheck).2
  have hleast : ∀ trials best s, Agrees (leastCut n es below trials best s)
      (WeightedGraph.leastCut n es below trials best s) := by
    intro trials
    induction trials with
    | zero => exact fun best s => agrees_ok _
    | succ trials ih =>
        intro best s
        rw [leastCut, WeightedGraph.leastCut]
        split
        · exact agrees_ok _
        · exact (agrees_randomCut hbelow hn hes s).bind fun r _ => ih _ _
  exact (agrees_randomCut hbelow hn hes s).bind fun r _ => hleast _ _ _

end Cut

end Checked

end WeightedGraph
