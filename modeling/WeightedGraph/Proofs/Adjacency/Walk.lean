import Mathlib
import WeightedGraph.Adjacency
import WeightedGraph.Proofs.Weight.Order

/-!
Walks along the entries of the lists.

* `Adjacency.Leads`: one vertex is a neighbour of another.
* `Adjacency.Walk`: the entries that a walk follows, one after the other. `Walk.of_closed` says that
  it does not leave a set that is closed under neighbours, `exists_walk_of_isChain` that a sequence
  of neighbours is one.
* `Adjacency.Reachable`, `Adjacency.IsSymmetric`: some walk leads from one vertex to another; every
  entry has one back, which can be decided.
* `walkLength`: the exact sum of the weights on a walk.
* `Adjacency.IsDistance`: the least length of a walk; `Walk.exists_isDistance` finds it wherever a
  walk leads if no weight is negative.
-/

namespace WeightedGraph

namespace Adjacency

variable {W : Type} {g : Adjacency W} {u v x : Vertex} {e : Entry W} {es fs : List (Entry W)}

/-- Some entry leads from one vertex to the other. -/
def Leads (g : Adjacency W) (u v : Vertex) : Prop :=
  ∃ e ∈ g.row u, e.target = v

lemma leads_of_mem (he : e ∈ g.row u) : g.Leads u e.target :=
  ⟨e, he, rfl⟩

lemma Leads.lt_size (h : g.Leads u v) : u < g.size := by
  obtain ⟨e, he, -⟩ := h
  by_contra hu
  rw [row_of_size_le (Nat.le_of_not_lt hu)] at he
  exact List.not_mem_nil he

/-- The entries lead from a vertex to another, each standing in the list of the vertex where the one
before it leads. -/
inductive Walk (g : Adjacency W) : Vertex → List (Entry W) → Vertex → Prop
  | nil (v : Vertex) : Walk g v [] v
  | cons {u v : Vertex} {e : Entry W} {es : List (Entry W)} (he : e ∈ g.row u)
      (rest : Walk g e.target es v) : Walk g u (e :: es) v

lemma Walk.append (h : g.Walk u es v) (h' : g.Walk v fs x) : g.Walk u (es ++ fs) x := by
  induction h with
  | nil => exact h'
  | cons he _ ih => exact .cons he (ih h')

lemma Walk.snoc (h : g.Walk u es v) (he : e ∈ g.row v) : g.Walk u (es ++ [e]) e.target :=
  h.append (.cons he (.nil _))

/-- A walk that is not empty ends with an entry of a vertex to which the rest of it leads. -/
lemma Walk.exists_snoc {k : Nat} (h : g.Walk u es v) (hk : es.length = k + 1) :
    ∃ x fs, g.Walk u fs x ∧ fs.length = k ∧ g.Leads x v := by
  induction h generalizing k with
  | nil => simp at hk
  | @cons u v e es he hrest ih =>
      cases es with
      | nil =>
          cases hrest
          exact ⟨u, [], .nil u, Nat.succ.inj hk, leads_of_mem he⟩
      | cons f es =>
          obtain ⟨x, fs, hfs, hlen, hx⟩ := ih rfl
          exact ⟨x, e :: fs, .cons he hfs, by rw [← Nat.succ.inj hk, List.length_cons, hlen]; rfl, hx⟩

/-- A walk from a vertex of a set that is closed under neighbours stays in it. -/
lemma Walk.of_closed {p : Vertex → Prop} (h : g.Walk u es v) (hu : p u)
    (hp : ∀ x, p x → ∀ e ∈ g.row x, p e.target) : p v := by
  induction h with
  | nil => exact hu
  | cons he _ ih => exact ih (hp _ hu _ he)

/-- Where each vertex leads to the next one there is a walk from the first to the last. -/
lemma exists_walk_of_isChain {vs : List Vertex} (h : (u :: vs).IsChain g.Leads) :
    ∃ es, es.length = vs.length ∧ g.Walk u es (vs.getLast?.getD u) := by
  induction vs generalizing u with
  | nil => exact ⟨[], rfl, .nil u⟩
  | cons x vs ih =>
      obtain ⟨⟨e, he, rfl⟩, hrest⟩ := List.isChain_cons_cons.1 h
      obtain ⟨es, hlen, hes⟩ := ih hrest
      refine ⟨e :: es, by rw [List.length_cons, List.length_cons, hlen], .cons he ?_⟩
      rwa [List.getLast?_cons, Option.getD_some]

/-- Some walk leads from one vertex to the other. -/
def Reachable (g : Adjacency W) (u v : Vertex) : Prop :=
  ∃ es, g.Walk u es v

lemma reachable_refl (g : Adjacency W) (v : Vertex) : g.Reachable v v :=
  ⟨[], .nil v⟩

lemma Reachable.trans (h : g.Reachable u v) (h' : g.Reachable v x) : g.Reachable u x := by
  obtain ⟨es, hes⟩ := h
  obtain ⟨fs, hfs⟩ := h'
  exact ⟨es ++ fs, hes.append hfs⟩

lemma Leads.reachable (h : g.Leads u v) : g.Reachable u v := by
  obtain ⟨e, he, rfl⟩ := h
  exact ⟨[e], .cons he (.nil _)⟩

/-- No walk leaves the vertices. -/
lemma Reachable.lt_size (h : g.Reachable u v) (hg : g.WellFormed) (hu : u < g.size) :
    v < g.size := by
  obtain ⟨es, hes⟩ := h
  exact hes.of_closed (p := fun x => x < g.size) hu fun x _ e he => hg x e he

/-- Every entry has one in the other direction, of whatever weight. -/
def IsSymmetric (g : Adjacency W) : Prop :=
  ∀ u v, g.Leads u v → g.Leads v u

lemma IsSymmetric.reachable_symm (hg : g.IsSymmetric) (h : g.Reachable u v) :
    g.Reachable v u := by
  obtain ⟨es, hes⟩ := h
  refine hes.of_closed (p := fun x => g.Reachable x u) (reachable_refl g u) fun x hx e he => ?_
  exact (hg x _ (leads_of_mem he)).reachable.trans hx

lemma mem_edges {f : Edge W} :
    f ∈ g.edges ↔ f.source < g.size ∧ ⟨f.target, f.weight⟩ ∈ g.row f.source := by
  obtain ⟨u, v, w⟩ := f
  rw [edges, List.mem_flatMap]
  constructor
  · rintro ⟨x, hx, hf⟩
    obtain ⟨e, he, heq⟩ := List.mem_map.1 hf
    cases heq
    exact ⟨List.mem_range.1 hx, he⟩
  · rintro ⟨hu, hf⟩
    exact ⟨u, List.mem_range.2 hu, List.mem_map.2 ⟨_, hf, rfl⟩⟩

lemma leads_iff : g.Leads u v ↔ ∃ f ∈ g.edges, f.source = u ∧ f.target = v := by
  constructor
  · rintro ⟨e, he, rfl⟩
    exact ⟨⟨u, e.target, e.weight⟩, mem_edges.2 ⟨(leads_of_mem he).lt_size, he⟩, rfl, rfl⟩
  · rintro ⟨f, hf, rfl, rfl⟩
    exact leads_of_mem (mem_edges.1 hf).2

lemma isSymmetric_iff : g.IsSymmetric ↔
    ∀ e ∈ g.edges, ∃ f ∈ g.edges, f.source = e.target ∧ f.target = e.source := by
  constructor
  · intro h e he
    exact leads_iff.1 (h _ _ (leads_iff.2 ⟨e, he, rfl, rfl⟩))
  · intro h u v huv
    obtain ⟨e, he, rfl, rfl⟩ := leads_iff.1 huv
    exact leads_iff.2 (h e he)

instance (g : Adjacency W) : Decidable g.IsSymmetric :=
  decidable_of_iff' _ isSymmetric_iff

lemma length_edges (g : Adjacency W) :
    g.edges.length = ∑ v ∈ Finset.range g.size, (g.row v).length := by
  rw [edges, List.length_flatMap, ← List.toFinset_range, List.sum_toFinset _ List.nodup_range]
  simp only [List.length_map]

end Adjacency

/-! ### Lengths -/

variable {r : IntRange} {g : Adjacency (Saturating r)} {u v : Vertex} {e : Entry (Saturating r)}
  {es fs : List (Entry (Saturating r))} {m : Int}

/-- The exact sum of the weights. -/
def walkLength (es : List (Entry (Saturating r))) : Int :=
  (es.map fun e => e.weight.val).sum

lemma walkLength_cons : walkLength (e :: es) = e.weight.val + walkLength es :=
  List.sum_cons

lemma walkLength_snoc : walkLength (es ++ [e]) = walkLength es + e.weight.val := by
  simp [walkLength]

namespace Adjacency

/-- The least length of a walk from a vertex to another. -/
def IsDistance (g : Adjacency (Saturating r)) (u v : Vertex) (m : Int) : Prop :=
  IsLeast {z | ∃ es, g.Walk u es v ∧ walkLength es = z} m

/-- No entry has a negative weight. -/
def NonNegative (g : Adjacency (Saturating r)) : Prop :=
  ∀ v, ∀ e ∈ g.row v, 0 ≤ e.weight.val

instance (g : Adjacency (Saturating r)) : Decidable g.NonNegative :=
  decidable_of_iff' _ forall_mem_row_iff

lemma NonNegative.negativeEdge?_eq_none (hg : g.NonNegative) : g.negativeEdge? = none := by
  rw [negativeEdge?, Option.map_eq_none_iff, List.find?_eq_none]
  intro f hf hneg
  exact absurd (of_decide_eq_true hneg) (not_lt.2 (hg f.source _ (mem_edges.1 hf).2))

lemma Walk.length_nonneg (h : g.Walk u es v) (hg : g.NonNegative) : 0 ≤ walkLength es := by
  induction h with
  | nil => exact le_rfl
  | cons he _ ih =>
      rw [walkLength_cons]
      exact add_nonneg (hg _ _ he) ih

lemma Walk.exists_isDistance (h : g.Walk u es v) (hg : g.NonNegative) :
    ∃ m, g.IsDistance u v m := by
  have hbound : ∀ z, (∃ fs, g.Walk u fs v ∧ walkLength fs = z) → 0 ≤ z := by
    rintro z ⟨fs, hfs, rfl⟩
    exact hfs.length_nonneg hg
  obtain ⟨m, hm, hleast⟩ := Int.exists_least_of_bdd ⟨0, hbound⟩ ⟨_, es, h, rfl⟩
  exact ⟨m, hm, hleast⟩

end Adjacency

end WeightedGraph
