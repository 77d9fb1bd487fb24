import Mathlib
import WeightedGraph.Proofs.Adjacency.Walk
import WeightedGraph.Search.Cycle
import WeightedGraph.Weight.Saturating

/-!
The search for a cycle is sound and complete.

* `Adjacency.IsCycle`: what makes a list of vertices a cycle; `IsCycle.exists_walk` walks along it.
* `Adjacency.Trail`: the path that is being followed. Each of its vertices leads to the next one,
  and the entries that were followed lead there or to vertices that are done.
* `CycleState.Explored`: the invariant of the search. The vertices marked as on the path are those
  of the path; what is done leads only to what is done, and lies on no closed walk.
* `Adjacency.pending`: the entries still to follow and the vertices still to leave, which bounds the
  steps that are left.
* `CycleState.Explored.step`: a step preserves this or closes a cycle; `Explored.followPath` and
  `Explored.cycleFrom` say the same of the search from one root and from all of them.
-/

namespace WeightedGraph

variable {W : Type} {g : Adjacency W} {u v w : Vertex} {e : Entry W}

/-! ### Cycles -/

namespace Adjacency

/-- Each vertex leads to the next one, the last one is the first one again, and no other vertex
occurs twice. -/
structure IsCycle (g : Adjacency W) (c : List Vertex) : Prop where
  two_le_length : 2 ≤ c.length
  head?_eq : c.head? = c.getLast?
  isChain : c.IsChain g.Leads
  nodup_dropLast : c.dropLast.Nodup

/-- Along a cycle there is a closed walk that follows some entry. -/
lemma IsCycle.exists_walk {c : List Vertex} (h : g.IsCycle c) :
    ∃ v es, 1 ≤ es.length ∧ g.Walk v es v := by
  obtain ⟨hlen, hhead, hchain, -⟩ := h
  match c with
  | [] => simp at hlen
  | [_] => simp at hlen
  | v :: w :: vs =>
      obtain ⟨es, hes, hwalk⟩ := exists_walk_of_isChain hchain
      have hlast : (w :: vs).getLast?.getD v = v := by
        rw [List.head?_cons, List.getLast?_cons] at hhead
        exact (Option.some_inj.1 hhead).symm
      rw [hlast] at hwalk
      exact ⟨v, es, by simp [hes], hwalk⟩

/-! ### The path -/

/-- The path from its last vertex down, below the vertex `next` if there is one. Of the entries of
each vertex some remain; the others lead to the vertex that comes next on the path, or to one that
is done. -/
inductive Trail (g : Adjacency W) (marks : Array Mark) :
    Option Vertex → List (Frame W) → Prop
  | nil (next : Option Vertex) : Trail g marks next []
  | cons {next : Option Vertex} {f : Frame W} {rest : List (Frame W)}
      (remaining : f.remaining ⊆ g.row f.vertex)
      (followed : ∀ e ∈ g.row f.vertex,
        e ∈ f.remaining ∨ marks[e.target]? = some .done ∨ next = some e.target)
      (leads : ∀ v, next = some v → g.Leads f.vertex v)
      (below : Trail g marks (some f.vertex) rest) : Trail g marks next (f :: rest)

variable {marks marks' : Array Mark} {next : Option Vertex} {path : List (Frame W)}

lemma Trail.mono (h : g.Trail marks next path)
    (hdone : ∀ v : Vertex, marks[v]? = some .done → marks'[v]? = some .done) :
    g.Trail marks' next path := by
  induction h with
  | nil next => exact .nil next
  | cons hrem hfol hleads _ ih =>
      exact .cons hrem (fun e he => (hfol e he).imp_right (Or.imp_left (hdone _))) hleads ih

/-- Once the next vertex is done the path ends below it. -/
lemma Trail.of_done (h : g.Trail marks (some v) path) (hv : marks[v]? = some .done) :
    g.Trail marks none path := by
  cases h with
  | nil => exact .nil none
  | cons hrem hfol _ hbelow =>
      refine .cons hrem (fun e he => ?_) (fun _ h => nomatch h) hbelow
      rcases hfol e he with h | h | h
      · exact Or.inl h
      · exact Or.inr (Or.inl h)
      · exact Or.inr (Or.inl (Option.some_inj.1 h ▸ hv))

/-- Each vertex of the path leads to the one above it. -/
lemma Trail.isChain (h : g.Trail marks next path) :
    (path.map Frame.vertex).IsChain fun u v => g.Leads v u := by
  induction h with
  | nil => exact .nil
  | @cons next f rest _ _ _ hbelow ih =>
      cases hbelow with
      | nil => exact .singleton _
      | cons _ _ hleads _ => exact ih.cons_cons (hleads _ rfl)

/-- From the first occurrence of an element on a list begins with it. -/
lemma exists_dropWhile_eq_cons {vs : List Vertex} (h : v ∈ vs) :
    ∃ rest, vs.dropWhile (· != v) = v :: rest := by
  induction vs with
  | nil => exact absurd h List.not_mem_nil
  | cons x vs ih =>
      by_cases hx : x = v
      · exact ⟨vs, by rw [List.dropWhile_cons_of_neg (by simp [hx]), hx]⟩
      · rw [List.dropWhile_cons_of_pos (by simp [hx])]
        exact ih ((List.mem_cons.1 h).resolve_left fun h => hx h.symm)

/-- An entry back to a vertex of the path closes a cycle. -/
theorem Trail.isCycle_closeCycle {f : Frame W} (h : g.Trail marks next (f :: path))
    (hnodup : ((f :: path).map Frame.vertex).Nodup) (he : e ∈ g.row f.vertex)
    (hpath : e.target ∈ (f :: path).map Frame.vertex) :
    g.IsCycle (closeCycle (f :: path) e.target) := by
  set vs := (f :: path).map Frame.vertex with hvs
  have hlast : vs.reverse.getLast? = some f.vertex := by simp [hvs]
  have hchain : vs.reverse.IsChain g.Leads := List.isChain_reverse.2 h.isChain
  obtain ⟨rest, hrest⟩ := exists_dropWhile_eq_cons (List.mem_reverse.2 hpath)
  obtain ⟨front, hfront⟩ : (e.target :: rest) <:+ vs.reverse :=
    hrest ▸ List.dropWhile_suffix (· != e.target)
  have hclose : closeCycle (f :: path) e.target = e.target :: rest ++ [e.target] := by
    rw [closeCycle, List.map_reverse, ← hvs, hrest]
  rw [hclose]
  constructor
  · simp
  · rw [List.getLast?_concat]
    rfl
  · refine List.isChain_append.2 ⟨?_, .singleton _, fun x hx y hy => ?_⟩
    · exact hchain.suffix ⟨front, hfront⟩
    · rw [← hfront, List.getLast?_append_of_ne_nil _ (List.cons_ne_nil _ _), hx] at hlast
      obtain rfl : x = f.vertex := Option.some_inj.1 hlast
      obtain rfl : e.target = y := Option.some_inj.1 hy
      exact leads_of_mem he
  · rw [List.dropLast_concat]
    exact (List.nodup_reverse.2 hnodup).sublist (List.IsSuffix.sublist ⟨front, hfront⟩)

/-! ### What is left to do -/

/-- The vertices that were not met yet. -/
def unseen (g : Adjacency W) (marks : Array Mark) : Finset Vertex :=
  (Finset.range g.size).filter fun v => marks[v]? = some .unseen

lemma mem_unseen (hsize : marks.size = g.size) :
    v ∈ g.unseen marks ↔ marks[v]? = some .unseen := by
  rw [unseen, Finset.mem_filter, Finset.mem_range, and_iff_right_iff_imp]
  exact fun h => hsize ▸ (Array.getElem?_eq_some_iff.1 h).1

lemma getElem?_setMark {m : Mark} (hv : marks[v]? = some m) (m' : Mark) (u : Vertex) :
    (marks.setIfInBounds v m')[u]? = if u = v then some m' else marks[u]? := by
  have hlt : v < marks.size := (Array.getElem?_eq_some_iff.1 hv).1
  rw [Array.getElem?_setIfInBounds, if_pos hlt]
  simp only [eq_comm]

/-- A vertex that gets another mark is no longer unseen. -/
lemma unseen_setMark {m m' : Mark} (hv : marks[v]? = some m) (hm' : m' ≠ .unseen) :
    g.unseen (marks.setIfInBounds v m') = (g.unseen marks).erase v := by
  ext u
  simp only [unseen, Finset.mem_erase, Finset.mem_filter, Finset.mem_range, getElem?_setMark hv]
  by_cases hu : u = v
  · simp [hu, hm']
  · simp [hu]

/-- The number of entries that are still to follow and of vertices that are still to leave. -/
def pending (g : Adjacency W) (s : CycleState W) : Nat :=
  ∑ v ∈ g.unseen s.marks, ((g.row v).length + 1) +
    (s.path.map fun f => f.remaining.length + 1).sum

lemma pending_cons (f : Frame W) :
    g.pending ⟨marks, f :: path⟩ = g.pending ⟨marks, path⟩ + (f.remaining.length + 1) := by
  simp only [pending, List.map_cons, List.sum_cons]
  omega

/-- At first every entry is to follow and every vertex is to leave. -/
lemma pending_nil_le (g : Adjacency W) (marks : Array Mark) :
    g.pending ⟨marks, []⟩ ≤ g.edges.length + g.size := by
  have hsum : ∑ v ∈ Finset.range g.size, ((g.row v).length + 1) = g.edges.length + g.size := by
    rw [length_edges, Finset.sum_add_distrib, Finset.sum_const, Finset.card_range, smul_eq_mul,
      mul_one]
  rw [pending, List.map_nil, List.sum_nil, add_zero, ← hsum]
  exact Finset.sum_le_sum_of_subset (Finset.filter_subset _ _)

/-- Entering a vertex leaves as much to do as there was. -/
lemma pending_enterPath (hw : w ∈ g.unseen marks) :
    g.pending (g.enterPath ⟨marks, path⟩ w) = g.pending ⟨marks, path⟩ := by
  have hmark : marks[w]? = some .unseen := (Finset.mem_filter.1 hw).2
  have hsum := Finset.add_sum_erase (g.unseen marks) (fun v => (g.row v).length + 1) hw
  rw [enterPath, pending_cons, pending, pending, unseen_setMark hmark (by decide)]
  dsimp only
  omega

/-- A vertex of the path that is left was not unseen before. -/
lemma pending_leave (hv : marks[v]? = some .onPath) :
    g.pending ⟨marks.setIfInBounds v .done, path⟩ = g.pending ⟨marks, path⟩ := by
  have hnot : v ∉ g.unseen marks := fun h => by
    rw [(Finset.mem_filter.1 h).2] at hv
    cases hv
  rw [pending, pending, unseen_setMark hv (by decide), Finset.erase_eq_of_notMem hnot]

end Adjacency

/-! ### The invariant -/

namespace CycleState

/-- What is known of a search that has come to the vertex `next`, or is between two steps. -/
structure Explored (g : Adjacency W) (next : Option Vertex) (s : CycleState W) : Prop where
  /-- Every vertex has a mark. -/
  size_marks : s.marks.size = g.size
  /-- No vertex is twice on the path. -/
  nodup : (s.path.map Frame.vertex).Nodup
  /-- The marks say what is on the path. -/
  onPath_iff : ∀ v : Vertex, s.marks[v]? = some .onPath ↔ v ∈ s.path.map Frame.vertex
  /-- What was followed from the path leads along it or to what is done. -/
  trail : g.Trail s.marks next s.path
  /-- What is done leads only to what is done. -/
  closed : ∀ v : Vertex, s.marks[v]? = some .done → ∀ e ∈ g.row v, s.marks[e.target]? = some .done
  /-- What is done lies on no closed walk. -/
  acyclic : ∀ v : Vertex, s.marks[v]? = some .done → ∀ es, g.Walk v es v → es = []

namespace Explored

variable {s : CycleState W} {marks : Array Mark} {remaining : List (Entry W)}
  {rest : List (Frame W)}

/-- The next entry of the path leads to the next vertex. -/
lemma follow (h : Explored g none ⟨marks, ⟨v, e :: remaining⟩ :: rest⟩) :
    Explored g (some e.target) ⟨marks, ⟨v, remaining⟩ :: rest⟩ where
  size_marks := h.size_marks
  nodup := h.nodup
  onPath_iff := h.onPath_iff
  trail := by
    cases h.trail with
    | cons hrem hfol _ hbelow =>
        obtain ⟨he, hrem⟩ := List.cons_subset.1 hrem
        refine .cons hrem (fun e' he' => ?_) (fun w hw => ?_) hbelow
        · rcases hfol e' he' with h | h | h
          · rcases List.mem_cons.1 h with rfl | h
            · exact Or.inr (Or.inr rfl)
            · exact Or.inl h
          · exact Or.inr (Or.inl h)
          · cases h
        · exact Option.some_inj.1 hw ▸ Adjacency.leads_of_mem he
  closed := h.closed
  acyclic := h.acyclic

/-- Coming to a vertex that is done changes nothing. -/
lemma of_done (h : Explored g (some w) s) (hw : s.marks[w]? = some .done) : Explored g none s where
  size_marks := h.size_marks
  nodup := h.nodup
  onPath_iff := h.onPath_iff
  trail := h.trail.of_done hw
  closed := h.closed
  acyclic := h.acyclic

/-- A vertex that was not met becomes the last one of the path. -/
lemma enter (h : Explored g (some w) s) (hw : s.marks[w]? = some .unseen) :
    Explored g none (g.enterPath s w) := by
  have hset : ∀ u : Vertex, (g.enterPath s w).marks[u]? =
      if u = w then some .onPath else s.marks[u]? :=
    Adjacency.getElem?_setMark hw .onPath
  have hdone : ∀ u : Vertex, (g.enterPath s w).marks[u]? = some .done ↔
      s.marks[u]? = some .done := by
    intro u
    rw [hset]
    split
    · next hu => simp [hu, hw]
    · rfl
  have hnot : w ∉ s.path.map Frame.vertex := fun hmem => by
    rw [(h.onPath_iff w).2 hmem] at hw
    cases hw
  constructor
  · rw [← h.size_marks]
    exact Array.size_setIfInBounds
  · exact List.nodup_cons.2 ⟨hnot, h.nodup⟩
  · intro u
    rw [hset, Adjacency.enterPath, List.map_cons, List.mem_cons]
    split
    · next hu => simp [hu]
    · next hu => rw [h.onPath_iff, or_iff_right hu]
  · refine .cons (List.Subset.refl _) (fun e he => Or.inl he) (fun _ hv => nomatch hv) ?_
    exact h.trail.mono fun u hu => (hdone u).2 hu
  · intro u hu e he
    exact (hdone _).2 (h.closed u ((hdone u).1 hu) e he)
  · exact fun u hu => h.acyclic u ((hdone u).1 hu)

/-- A vertex whose entries were all followed is done. -/
lemma leave (h : Explored g none ⟨marks, ⟨v, []⟩ :: rest⟩) :
    Explored g none ⟨marks.setIfInBounds v .done, rest⟩ := by
  have hv : marks[v]? = some .onPath := (h.onPath_iff v).2 List.mem_cons_self
  have hset : ∀ u : Vertex, (marks.setIfInBounds v .done)[u]? =
      if u = v then some .done else marks[u]? :=
    Adjacency.getElem?_setMark hv .done
  have hkept : ∀ u : Vertex, marks[u]? = some .done →
      (marks.setIfInBounds v .done)[u]? = some .done := by
    intro u hu
    rw [hset]
    split
    · rfl
    · exact hu
  obtain ⟨hnot, hnodup⟩ := List.nodup_cons.1 h.nodup
  obtain ⟨hfollowed, hbelow⟩ : (∀ e ∈ g.row v, marks[e.target]? = some .done) ∧
      g.Trail marks (some v) rest := by
    cases h.trail with
    | cons _ hfol _ hbelow =>
        refine ⟨fun e he => ?_, hbelow⟩
        rcases hfol e he with h | h | h
        · exact absurd h List.not_mem_nil
        · exact h
        · cases h
  constructor
  · rw [← h.size_marks]
    exact Array.size_setIfInBounds
  · exact hnodup
  · intro u
    rw [hset]
    split
    · next hu => simpa [hu] using hnot
    · next hu =>
        rw [h.onPath_iff, List.map_cons, List.mem_cons]
        exact or_iff_right hu
  · exact (hbelow.mono hkept).of_done (by rw [hset, if_pos rfl])
  · intro u hu e he
    rw [hset] at hu
    split at hu
    · next huv => exact hkept _ (hfollowed e (huv ▸ he))
    · exact hkept _ (h.closed u hu e he)
  · intro u hu es hes
    rw [hset] at hu
    split at hu
    · next huv =>
        subst huv
        -- a closed walk would come back to `u` from a vertex that was done before `u`
        cases hes with
        | nil => rfl
        | cons he hback =>
            have hu' := hback.of_closed (hfollowed _ he) h.closed
            rw [hv] at hu'
            cases hu'
    · exact h.acyclic u hu es hes

end Explored

end CycleState

/-! ### The search -/

namespace Adjacency

variable {marks : Array Mark} {remaining : List (Entry W)} {rest : List (Frame W)}

lemma cycleStep_leave :
    g.cycleStep ⟨marks, ⟨v, []⟩ :: rest⟩ = .ok (.searching ⟨marks.setIfInBounds v .done, rest⟩) :=
  rfl

lemma cycleStep_of_unseen (h : marks[e.target]? = some .unseen) :
    g.cycleStep ⟨marks, ⟨v, e :: remaining⟩ :: rest⟩ =
      .ok (.searching (g.enterPath ⟨marks, ⟨v, remaining⟩ :: rest⟩ e.target)) := by
  simp only [cycleStep, h]

lemma cycleStep_of_onPath (h : marks[e.target]? = some .onPath) :
    g.cycleStep ⟨marks, ⟨v, e :: remaining⟩ :: rest⟩ =
      .ok (.found (closeCycle (⟨v, remaining⟩ :: rest) e.target)) := by
  simp only [cycleStep, h]

lemma cycleStep_of_done (h : marks[e.target]? = some .done) :
    g.cycleStep ⟨marks, ⟨v, e :: remaining⟩ :: rest⟩ =
      .ok (.searching ⟨marks, ⟨v, remaining⟩ :: rest⟩) := by
  simp only [cycleStep, h]

end Adjacency

/-- Either a cycle was closed, or the search goes on from a state with the given property. -/
def CycleStep.Leaves (g : Adjacency W) (p : CycleState W → Prop) : CycleStep W → Prop
  | .found c => g.IsCycle c
  | .searching s => p s

namespace CycleState

namespace Explored

variable {s : CycleState W} {marks : Array Mark}

/-- A step uses up an entry or leaves a vertex, unless it closes a cycle. -/
theorem step (hg : g.WellFormed) (h : Explored g none s) (hne : s.path ≠ []) :
    ∃ r, g.cycleStep s = .ok r ∧ r.Leaves g fun s' => Explored g none s' ∧
      g.pending s' + 1 = g.pending s ∧ g.unseen s'.marks ⊆ g.unseen s.marks := by
  obtain ⟨marks, path⟩ := s
  cases path with
  | nil => exact absurd rfl hne
  | cons f rest =>
      obtain ⟨v, remaining⟩ := f
      cases remaining with
      | nil =>
          have hv : marks[v]? = some .onPath := (h.onPath_iff v).2 List.mem_cons_self
          refine ⟨_, Adjacency.cycleStep_leave, h.leave, ?_, ?_⟩
          · rw [Adjacency.pending_leave hv, Adjacency.pending_cons]
            rfl
          · rw [Adjacency.unseen_setMark hv (by decide)]
            exact Finset.erase_subset v _
      | cons e remaining =>
          have he : e ∈ g.row v := by
            cases h.trail with
            | cons hrem _ _ _ => exact hrem List.mem_cons_self
          have hlt : e.target < marks.size := h.size_marks ▸ hg v e he
          have hpending : g.pending ⟨marks, ⟨v, remaining⟩ :: rest⟩ + 1 =
              g.pending ⟨marks, ⟨v, e :: remaining⟩ :: rest⟩ := by
            rw [Adjacency.pending_cons, Adjacency.pending_cons]
            rfl
          cases hm : marks[e.target]? with
          | none => exact absurd (Array.getElem?_eq_none_iff.1 hm) (Nat.not_le.2 hlt)
          | some m =>
              cases m with
              | unseen =>
                  have hw : e.target ∈ g.unseen marks := (Adjacency.mem_unseen h.size_marks).2 hm
                  refine ⟨_, Adjacency.cycleStep_of_unseen hm, h.follow.enter hm, ?_, ?_⟩
                  · rw [Adjacency.pending_enterPath hw, hpending]
                  · rw [Adjacency.enterPath, Adjacency.unseen_setMark hm (by decide)]
                    exact Finset.erase_subset _ _
              | onPath =>
                  exact ⟨_, Adjacency.cycleStep_of_onPath hm,
                    h.follow.trail.isCycle_closeCycle h.nodup he ((h.onPath_iff _).1 hm)⟩
              | done =>
                  exact ⟨_, Adjacency.cycleStep_of_done hm, h.follow.of_done hm, hpending,
                    Finset.Subset.refl _⟩

/-- The search from one root closes a cycle or comes back to an empty path. -/
theorem followPath (hg : g.WellFormed) (h : Explored g none s) {fuel : Nat}
    (hfuel : g.pending s ≤ fuel) :
    ∃ r, g.followPath fuel s = .ok r ∧ r.Leaves g fun s' => Explored g none s' ∧
      s'.path = [] ∧ g.unseen s'.marks ⊆ g.unseen s.marks := by
  induction fuel generalizing s with
  | zero =>
      refine ⟨_, rfl, h, ?_, Finset.Subset.refl _⟩
      obtain ⟨marks, path⟩ := s
      cases path with
      | nil => rfl
      | cons f rest =>
          rw [Adjacency.pending_cons] at hfuel
          omega
  | succ fuel ih =>
      by_cases hne : s.path = []
      · refine ⟨.searching s, ?_, h, hne, Finset.Subset.refl _⟩
        rw [Adjacency.followPath, if_pos (by simp [hne])]
      · obtain ⟨r, hr, hleaves⟩ := h.step hg hne
        have hsearch : ¬ s.path.isEmpty = true := by simpa using hne
        cases r with
        | found c =>
            refine ⟨.found c, ?_, hleaves⟩
            rw [Adjacency.followPath, if_neg hsearch, hr]
            rfl
        | searching s' =>
            obtain ⟨h', hpending, hunseen⟩ := hleaves
            obtain ⟨r, hr', hleaves⟩ := ih h' (by omega)
            refine ⟨r, ?_, ?_⟩
            · rw [Adjacency.followPath, if_neg hsearch, hr]
              exact hr'
            · cases r with
              | found c => exact hleaves
              | searching s'' => exact ⟨hleaves.1, hleaves.2.1, hleaves.2.2.trans hunseen⟩

/-- Once every vertex was met and the path is empty there is no closed walk. -/
lemma eq_nil_of_walk (h : Explored g none ⟨marks, []⟩) (hunseen : g.unseen marks = ∅)
    {es : List (Entry W)} (hes : g.Walk v es v) : es = [] := by
  cases hes with
  | nil => rfl
  | @cons _ _ e _ he hrest =>
      have hv : v < marks.size := h.size_marks ▸ (Adjacency.leads_of_mem he).lt_size
      have hm : marks[v]? = some marks[v] := Array.getElem?_eq_getElem hv
      generalize marks[v] = m at hm
      cases m with
      | unseen =>
          have hmem := (Adjacency.mem_unseen h.size_marks).2 hm
          rw [hunseen] at hmem
          exact absurd hmem (Finset.notMem_empty v)
      | onPath => exact absurd ((h.onPath_iff v).1 hm) List.not_mem_nil
      | done => exact h.acyclic v hm _ (.cons he hrest)

/-- The search from all roots closes a cycle, or there is no closed walk. -/
theorem cycleFrom (hg : g.WellFormed) (h : Explored g none ⟨marks, []⟩) {fuel : Nat}
    (hfuel : g.edges.length + g.size ≤ fuel) {roots : List Vertex}
    (hroots : ∀ v ∈ g.unseen marks, v ∈ roots) :
    ∃ r, g.cycleFrom fuel roots marks = .ok r ∧ (∀ c, r = some c → g.IsCycle c) ∧
      (r = none → ∀ v es, g.Walk v es v → es = []) := by
  induction roots generalizing marks with
  | nil =>
      have hunseen : g.unseen marks = ∅ :=
        Finset.eq_empty_of_forall_notMem fun v hv => List.not_mem_nil (hroots v hv)
      refine ⟨none, rfl, (fun c hc => nomatch hc), fun _ v es hes => ?_⟩
      exact h.eq_nil_of_walk hunseen hes
  | cons root roots ih =>
      by_cases hroot : root ∈ g.unseen marks
      · have hmark := (Adjacency.mem_unseen h.size_marks).1 hroot
        have hget : marks.getD root .done = .unseen := by
          rw [Array.getD_eq_getD_getElem?, hmark]
          rfl
        have hstart : Explored g (some root) ⟨marks, []⟩ := { h with trail := .nil _ }
        have hpending : g.pending (g.enterPath ⟨marks, []⟩ root) ≤ fuel := by
          rw [Adjacency.pending_enterPath hroot]
          exact (Adjacency.pending_nil_le g marks).trans hfuel
        obtain ⟨r, hr, hleaves⟩ := (hstart.enter hmark).followPath hg hpending
        rw [Adjacency.cycleFrom, if_pos hget, hr]
        cases r with
        | found c =>
            exact ⟨some c, rfl, fun _ hc => Option.some_inj.1 hc ▸ hleaves, fun h => nomatch h⟩
        | searching s =>
            obtain ⟨marks', path⟩ := s
            obtain ⟨h', hpath, hunseen⟩ := hleaves
            obtain rfl : path = [] := hpath
            refine ih h' fun v hv => ?_
            have hv' := hunseen hv
            rw [Adjacency.enterPath, Adjacency.unseen_setMark hmark (by decide)] at hv'
            obtain ⟨hne, hv'⟩ := Finset.mem_erase.1 hv'
            exact (List.mem_cons.1 (hroots v hv')).resolve_left hne
      · have hget : marks.getD root .done ≠ .unseen := by
          intro hget
          refine hroot ((Adjacency.mem_unseen h.size_marks).2 ?_)
          rw [Array.getD_eq_getD_getElem?] at hget
          cases hm : marks[root]? with
          | none => rw [hm] at hget; cases hget
          | some m => rw [hm] at hget; exact congrArg some hget
        rw [Adjacency.cycleFrom, if_neg hget]
        refine ih h fun v hv => (List.mem_cons.1 (hroots v hv)).resolve_left ?_
        rintro rfl
        exact hroot hv

/-- At the beginning no vertex was met. -/
lemma start (g : Adjacency W) : Explored g none ⟨Array.replicate g.size .unseen, []⟩ := by
  have hmark : ∀ (v : Vertex) {m : Mark}, (Array.replicate g.size Mark.unseen)[v]? = some m →
      m = .unseen := by
    intro v m hv
    rw [Array.getElem?_replicate] at hv
    split at hv
    · exact (Option.some_inj.1 hv).symm
    · cases hv
  constructor
  · exact Array.size_replicate
  · exact List.nodup_nil
  · exact fun v => ⟨(fun hv => nomatch hmark v hv), fun hv => absurd hv List.not_mem_nil⟩
  · exact .nil none
  · exact fun v hv => nomatch hmark v hv
  · exact fun v hv => nomatch hmark v hv

end Explored

end CycleState

namespace Adjacency

/-- Where all neighbours are vertices the search ends. It finds nothing just when no closed walk
follows an entry, and what it finds is a cycle; so it tells whether there is a cycle. -/
theorem exists_cycle?_isCycle (hg : g.WellFormed) :
    ∃ r b, g.cycle? = .ok r ∧ (r = none ↔ ¬ ∃ v es, 1 ≤ es.length ∧ g.Walk v es v) ∧
      (∀ c, r = some c → g.IsCycle c) ∧ g.isCyclic = .ok b ∧ (b = true ↔ ∃ c, g.IsCycle c) := by
  have hroots : ∀ v ∈ g.unseen (Array.replicate g.size .unseen), v ∈ List.range g.size :=
    fun v hv => List.mem_range.2 (Finset.mem_range.1 (Finset.mem_filter.1 hv).1)
  obtain ⟨r, hr, hsome, hnone⟩ := (CycleState.Explored.start g).cycleFrom hg le_rfl hroots
  have hwalk : r = none ↔ ¬ ∃ v es, 1 ≤ es.length ∧ g.Walk v es v := by
    constructor
    · rintro h ⟨v, es, hlen, hes⟩
      rw [hnone h v es hes, List.length_nil] at hlen
      exact absurd hlen (by decide)
    · intro h
      cases r with
      | none => rfl
      | some c => exact absurd (hsome c rfl).exists_walk h
  refine ⟨r, r.isSome, hr, hwalk, hsome, ?_, ?_⟩
  · rw [isCyclic, cycle?, hr]
    rfl
  · rw [Option.isSome_iff_exists]
    constructor
    · rintro ⟨c, hc⟩
      exact ⟨c, hsome c hc⟩
    · rintro ⟨c, hc⟩
      exact Option.ne_none_iff_exists'.1 fun h => hwalk.1 h hc.exists_walk

/-- The vertex `0` leads to no cycle; from `1` on the search meets a vertex that is done, two
parallel entries and an entry back to `2`, before it would come to the loop at `4`. -/
theorem exists_cycle?_isCycle_loop :
    let entry (v : Vertex) : Entry (Saturating (IntRange.signed 32)) := ⟨v, 0⟩
    let g : Adjacency (Saturating (IntRange.signed 32)) :=
      ⟨#[[entry 5], [entry 0, entry 2], [entry 3, entry 3], [entry 5, entry 2], [entry 4], []]⟩
    g.WellFormed ∧ g.cycle? = .ok (some [2, 3, 2]) ∧ (∃ v es, 1 ≤ es.length ∧ g.Walk v es v) ∧
      g.IsCycle [2, 3, 2] ∧ g.isCyclic = .ok true := by
  intro entry g
  have hg : g.WellFormed := by decide
  have hcycle : g.cycle? = .ok (some [2, 3, 2]) := by decide
  obtain ⟨r, b, hr, hwalk, hsome, hb, hb'⟩ := exists_cycle?_isCycle hg
  obtain rfl : r = some [2, 3, 2] := Except.ok.inj (hr.symm.trans hcycle)
  have hc : g.IsCycle [2, 3, 2] := hsome _ rfl
  obtain rfl : b = true := hb'.2 ⟨_, hc⟩
  exact ⟨hg, hcycle, not_not.1 (fun h => nomatch hwalk.2 h), hc, hb⟩

end Adjacency

end WeightedGraph
