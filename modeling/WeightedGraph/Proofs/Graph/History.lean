import Mathlib
import WeightedGraph.Proofs.Graph.Edges

/-!
What a graph stores after any sequence of insertions.

* `Insertion.entriesAt`: the entries that an insertion adds to the list of a vertex.
* `Graph.row_insert`, `Graph.entryCount_insert`, `Graph.length_edges_insert`: what it adds to the
  lists and to their lengths.
* `Graph.row_filled`, `Graph.entryCount_filled`, `Graph.length_edges_filled`: the lists hold what
  the insertions that fit added, in their order, and the entries are counted right.
* `Graph.Stores`: what a graph answers that stores the insertions of a sequence.
-/

namespace WeightedGraph

variable {W : Type}

/-! ### Entries -/

/-- The entries that an insertion adds to the list of a vertex, the one at its source first. A loop
adds two unless it is directed. -/
def Insertion.entriesAt (i : Insertion W) (x : Vertex) : List (Entry W) :=
  (if i.edge.source = x then [⟨i.edge.target, i.edge.weight⟩] else []) ++
    if i.directed = false ∧ i.edge.target = x then [⟨i.edge.source, i.edge.weight⟩] else []

/-- Unless it is directed, an insertion adds as many entries from one vertex to another as back. -/
lemma Insertion.countP_entriesAt_comm {i : Insertion W} (h : i.directed = false) (u v : Vertex)
    (p : W → Bool) :
    (i.entriesAt u).countP (fun e => e.target == v && p e.weight) =
      (i.entriesAt v).countP fun e => e.target == u && p e.weight := by
  obtain ⟨⟨x, y, w⟩, directed⟩ := i
  obtain rfl : directed = false := h
  simp only [entriesAt, List.countP_append, true_and, apply_ite (List.countP _),
    List.countP_singleton, List.countP_nil, Bool.and_eq_true, beq_iff_eq, ← ite_and]
  -- the entry at the source of one side is the entry at the target of the other
  rw [Nat.add_comm]
  congr 2 <;> simp only [eq_iff_iff] <;> tauto

namespace Adjacency

variable {g : Adjacency W} {u v : Vertex} {e : Entry W}

lemma row_push_of_lt (hv : v < g.size) :
    (g.push v e).row u = g.row u ++ if v = u then [e] else [] := by
  rw [row_push]
  by_cases h : v = u
  · rw [if_pos ⟨h, hv⟩, if_pos h]
  · rw [if_neg fun hc => h hc.1, if_neg h, List.append_nil]

lemma length_edges_push (hv : v < g.size) :
    (g.push v e).edges.length = g.edges.length + 1 := by
  simp only [length_edges, size_push, row_push_of_lt hv, List.length_append,
    apply_ite List.length, List.length_singleton, List.length_nil]
  rw [Finset.sum_add_distrib, Finset.sum_ite_eq, if_pos (Finset.mem_range.2 hv)]

end Adjacency

namespace Graph

variable {g : Graph W}

lemma neighbours_eq_ite (g : Graph W) (x : Vertex) : g.neighbours x =
    if x < g.size then .ok (g.adjacency.row x) else .error (.invalidVertex x g.size) := by
  rw [neighbours, requireVertex]
  split <;> rfl

lemma mapM_degree {vs : List Vertex} (h : ∀ v ∈ vs, v < g.size) :
    vs.mapM g.degree = .ok (vs.map fun v => (g.adjacency.row v).length) := by
  induction vs with
  | nil => rfl
  | cons v vs ih =>
      obtain ⟨hv, hvs⟩ := List.forall_mem_cons.1 h
      have hdegree : g.degree v = .ok (g.adjacency.row v).length := by
        rw [degree, neighbours_eq_ite, if_pos hv]
        rfl
      rw [List.mapM_cons, hdegree, ih hvs]
      rfl

/-- The degrees of all vertices add up to the number of edges that are listed. -/
lemma exists_sum_degrees (g : Graph W) :
    ∃ ds, g.vertices.mapM g.degree = .ok ds ∧ ds.sum = g.edges.length := by
  refine ⟨_, mapM_degree fun v hv => List.mem_range.1 hv, ?_⟩
  rw [edges, Adjacency.edges, List.length_flatMap]
  simp only [List.length_map]
  rfl

end Graph

variable [Weight W] {n : Nat}

lemma Insertion.fits_of_mem_entriesAt {i : Insertion W} (h : i.edge.Fits n) {x : Vertex}
    {e : Entry W} (he : e ∈ i.entriesAt x) : e.target < n ∧ Weight.isValid e.weight = true := by
  obtain ⟨hs, ht, hw⟩ := h
  rcases List.mem_append.1 he with he | he <;> split at he
  · exact List.mem_singleton.1 he ▸ ⟨ht, hw⟩
  · exact absurd he List.not_mem_nil
  · exact List.mem_singleton.1 he ▸ ⟨hs, hw⟩
  · exact absurd he List.not_mem_nil

namespace Graph

variable {g g' : Graph W} {i : Insertion W} {x : Vertex}

/-! ### One insertion -/

lemma insert_of_source_le (hs : g.size ≤ i.edge.source) :
    g.insert i = .error (.invalidVertex i.edge.source g.size) := by
  simp only [insert_eq, requireVertex, if_neg (Nat.not_lt.2 hs)]
  rfl

lemma insert_of_target_le (hs : i.edge.source < g.size) (ht : g.size ≤ i.edge.target) :
    g.insert i = .error (.invalidVertex i.edge.target g.size) := by
  simp only [insert_eq, requireVertex, if_pos hs, if_neg (Nat.not_lt.2 ht)]
  rfl

lemma insert_of_isValid_eq_false (hs : i.edge.source < g.size) (ht : i.edge.target < g.size)
    (hw : Weight.isValid i.edge.weight = false) :
    g.insert i = .error (.invalidWeight i.edge.source i.edge.target) := by
  simp only [insert_eq, requireVertex, if_pos hs, if_pos ht, hw]
  rfl

/-- An insertion that succeeds adds its entries at the ends of the lists. -/
theorem row_insert (h : g.insert i = .ok g') (x : Vertex) :
    g'.adjacency.row x = g.adjacency.row x ++ i.entriesAt x := by
  obtain ⟨hs, ht, -, rfl⟩ := insert_eq_ok_iff.1 h
  rw [Insertion.entriesAt]
  cases i.directed with
  | true =>
      simp only [addEntry, if_true, Adjacency.row_push_of_lt hs]
      simp
  | false =>
      simp only [addEntry, Bool.false_eq_true, if_false, true_and, List.append_assoc,
        Adjacency.row_push_of_lt (Adjacency.lt_size_push ht), Adjacency.row_push_of_lt hs]

lemma entryCount_insert (h : g.insert i = .ok g') :
    g'.entryCount = g.entryCount + if i.directed then 1 else 2 := by
  obtain ⟨-, -, -, rfl⟩ := insert_eq_ok_iff.1 h
  cases i.directed <;> rfl

lemma length_edges_insert (h : g.insert i = .ok g') :
    g'.edges.length = g.edges.length + if i.directed then 1 else 2 := by
  obtain ⟨hs, ht, -, rfl⟩ := insert_eq_ok_iff.1 h
  cases i.directed with
  | true => exact Adjacency.length_edges_push hs
  | false =>
      simp only [edges, addEntry, Bool.false_eq_true, if_false,
        Adjacency.length_edges_push (Adjacency.lt_size_push ht), Adjacency.length_edges_push hs]

/-! ### Insertions in turn -/

/-- The lists hold what the insertions that fit added, in their order. -/
theorem row_filled (n : Nat) (is : List (Insertion W)) (x : Vertex) :
    (filled n is).adjacency.row x = (fitting n is).flatMap (·.entriesAt x) := by
  refine filled_induction (Q := fun g js => g.adjacency.row x = js.flatMap (·.entriesAt x))
    (Adjacency.row_edgeless n x) (fun g i g' js hrow hi => ?_) is
  rw [row_insert hi, hrow, List.flatMap_append, List.flatMap_singleton]

/-- A directed insertion counts once and any other one twice. -/
theorem entryCount_filled (n : Nat) (is : List (Insertion W)) :
    (filled n is).entryCount =
      (fitting n is).countP (·.directed) + 2 * (fitting n is).countP (!·.directed) := by
  refine filled_induction
    (Q := fun g js => g.entryCount = js.countP (·.directed) + 2 * js.countP (!·.directed)) rfl
    (fun g i g' js hcount hi => ?_) is
  rw [entryCount_insert hi, hcount, List.countP_append, List.countP_append]
  cases hd : i.directed <;> simp [hd] <;> omega

lemma length_edges_filled (n : Nat) (is : List (Insertion W)) :
    (filled n is).edges.length = (filled n is).entryCount := by
  refine filled_induction (Q := fun g _ => g.edges.length = g.entryCount) ?_
    (fun g i g' _ hlen hi => ?_) is
  · rw [edges_edgeless]
    rfl
  · rw [length_edges_insert hi, entryCount_insert hi, hlen]

/-! ### The whole store -/

/-- The graph of `n` vertices stores what the insertions of a sequence that fit have added to it. -/
structure Stores (g : Graph W) (n : Nat) (is : List (Insertion W)) : Prop where
  /-- An insertion is refused for its source, for its target or for its weight, in this order, and
  then leaves the graph exactly as it was. If it is not refused, it leaves one that stores it too. -/
  run_insertInPlace : ∀ i, (insertInPlace i).run g =
    if n ≤ i.edge.source then .error (.invalidVertex i.edge.source n) g
    else if n ≤ i.edge.target then .error (.invalidVertex i.edge.target n) g
    else if Weight.isValid i.edge.weight then .ok () (filled n (is ++ [i]))
    else .error (.invalidWeight i.edge.source i.edge.target) g
  /-- What follows a refused insertion is inserted into the graph as it was. -/
  filled_of_error : ∀ i e g', (insertInPlace i).run g = .error e g' → filled n (is ++ [i]) = g
  /-- The entries of a vertex are those that were added to its list, in the order in which they were
  added. -/
  neighbours_eq : ∀ x, g.neighbours x =
    if x < n then .ok ((fitting n is).flatMap (·.entriesAt x)) else .error (.invalidVertex x n)
  /-- The number of entries counts a directed insertion once and any other one twice. -/
  entryCount_eq : g.entryCount =
    (fitting n is).countP (·.directed) + 2 * (fitting n is).countP (!·.directed)
  /-- The degrees add up to it. -/
  sum_degrees : ∃ ds, g.vertices.mapM g.degree = .ok ds ∧ ds.sum = g.entryCount
  /-- As many edges are listed. -/
  length_edges : g.edges.length = g.entryCount
  /-- Every entry leads to a vertex and has a valid weight. -/
  fits : ∀ x es, g.neighbours x = .ok es →
    ∀ e ∈ es, e.target < n ∧ Weight.isValid e.weight = true
  /-- If all insertions that fit were undirected, there are as many entries from one vertex to
  another as back, whatever weight they are asked to have. -/
  countP_comm : (∀ i ∈ fitting n is, i.directed = false) → ∀ u v us vs,
    g.neighbours u = .ok us → g.neighbours v = .ok vs → ∀ p : W → Bool,
      us.countP (fun e => e.target == v && p e.weight) =
        vs.countP fun e => e.target == u && p e.weight

/-- One insertion more, in place: the graph that it leaves, refused or not. -/
lemma run_insertInPlace_filled (n : Nat) (is : List (Insertion W)) (i : Insertion W) :
    (insertInPlace i).run (filled n is) =
      if n ≤ i.edge.source then .error (.invalidVertex i.edge.source n) (filled n is)
      else if n ≤ i.edge.target then .error (.invalidVertex i.edge.target n) (filled n is)
      else if Weight.isValid i.edge.weight then .ok () (filled n (is ++ [i]))
      else .error (.invalidWeight i.edge.source i.edge.target) (filled n is) := by
  have hsize : (filled n is).size = n := size_filled n is
  split
  · next hs =>
      have herror := insert_of_source_le (hsize.symm ▸ hs)
      rw [hsize] at herror
      exact run_insertInPlace_of_error herror
  · next hs =>
      rw [Nat.not_le, ← hsize] at hs
      split
      · next ht =>
          have herror := insert_of_target_le hs (hsize.symm ▸ ht)
          rw [hsize] at herror
          exact run_insertInPlace_of_error herror
      · next ht =>
          rw [Nat.not_le, ← hsize] at ht
          split
          · next hw =>
              obtain ⟨g', hg'⟩ := exists_insert_eq_ok_iff.2 ⟨hs, ht, hw⟩
              have hfilled : filled n (is ++ [i]) = g' := by
                rw [filled_concat, hg']
                rfl
              rw [hfilled]
              exact run_insertInPlace_of_ok hg'
          · next hw =>
              exact run_insertInPlace_of_error
                (insert_of_isValid_eq_false hs ht (Bool.eq_false_iff.2 hw))

/-- After any sequence of insertions the graph stores those that fit. -/
theorem stores_filled (n : Nat) (is : List (Insertion W)) : (filled n is).Stores n is := by
  have hneighbours : ∀ x, (filled n is).neighbours x =
      if x < n then .ok ((fitting n is).flatMap (·.entriesAt x))
      else .error (.invalidVertex x n) := by
    intro x
    rw [neighbours_eq_ite, size_filled, row_filled]
  have hentries : ∀ x es, (filled n is).neighbours x = .ok es →
      es = (fitting n is).flatMap (·.entriesAt x) := by
    intro x es h
    rw [hneighbours] at h
    split at h
    · exact (Except.ok.inj h).symm
    · cases h
  refine
    { run_insertInPlace := run_insertInPlace_filled n is
      filled_of_error := fun i e g' h => ?_
      neighbours_eq := hneighbours
      entryCount_eq := entryCount_filled n is
      sum_degrees := length_edges_filled n is ▸ exists_sum_degrees _
      length_edges := length_edges_filled n is
      fits := fun x es h e he => ?_
      countP_comm := fun hundirected u v us vs hu hv p => ?_ }
  · obtain rfl := atomic_insertInPlace i _ e g' h
    have hi : (filled n is).insert i = .error e := by
      rw [insert, h]
      rfl
    rw [filled_concat, hi]
    rfl
  · rw [hentries x es h] at he
    obtain ⟨i, hi, he⟩ := List.mem_flatMap.1 he
    exact Insertion.fits_of_mem_entriesAt (mem_fitting.1 hi).2 he
  · rw [hentries u us hu, hentries v vs hv, List.countP_flatMap, List.countP_flatMap]
    refine congrArg List.sum (List.map_congr_left fun i hi => ?_)
    exact Insertion.countP_entriesAt_comm (hundirected i hi) u v p

end Graph

end WeightedGraph
