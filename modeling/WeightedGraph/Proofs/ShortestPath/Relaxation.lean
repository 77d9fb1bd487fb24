import Mathlib
import WeightedGraph.ShortestPath.Tables

/-!
What settling a vertex does to the tables of a search.

* `Tables.Fits`: the tables have a place for every vertex.
* `Tables.Awaits`: a vertex that is reached at a distance and not settled, as a candidate.
* `Tables.unsettled`: the vertices that are not settled.
* `Tables.mark`: a vertex counts as settled. `distanceOf_record`, `contains_mark` and
  `awaits_record` read the tables after a step.
* `Tables.relax_induction`: what holds of the tables, and of anything that the candidates are put
  into on the way, holds after the entries of a vertex were tried if it survives each shorter
  distance.
* `Adjacency.settleCandidate`: marks an awaiting vertex and tries its entries; `settle_eq` says that
  this is what settling it does.
-/

namespace WeightedGraph

namespace Tables

variable {W : Type} {t : Tables W} {n : Nat} {u v x : Vertex} {d : W} {c : Candidate W}

/-! ### Reading the tables -/

/-- The tables have a place for each of `n` vertices. -/
structure Fits (t : Tables W) (n : Nat) : Prop where
  distance_size : t.distance.size = n
  predecessor_size : t.predecessor.size = n
  settled_capacity : t.settled.capacity = n

/-- The vertex of the candidate is reached at the distance of the candidate and not settled. -/
def Awaits (t : Tables W) (c : Candidate W) : Prop :=
  t.settled.contains c.vertex = false ∧ t.distanceOf c.vertex = some c.distance

lemma Awaits.eq {c' : Candidate W} (hc : t.Awaits c) (hc' : t.Awaits c')
    (hv : c.vertex = c'.vertex) : c = c' := by
  obtain ⟨d, v⟩ := c
  obtain ⟨d', v'⟩ := c'
  obtain rfl : v = v' := hv
  exact congrArg (Candidate.mk · v) (Option.some.inj (hc.2.symm.trans hc'.2))

/-- The tables with a vertex marked as settled. -/
def mark (t : Tables W) (u : Vertex) : Tables W :=
  { t with settled := t.settled.insert u }

lemma lt_of_distanceOf (h : t.distanceOf v = some d) : v < t.distance.size := by
  by_contra hv
  simp [distanceOf, Array.getD, hv] at h

lemma Fits.lt (hn : t.Fits n) (h : t.distanceOf v = some d) : v < n :=
  hn.distance_size ▸ lt_of_distanceOf h

@[simp] lemma distanceOf_mark (t : Tables W) (u v : Vertex) :
    (t.mark u).distanceOf v = t.distanceOf v :=
  rfl

@[simp] lemma settled_record (t : Tables W) (u v : Vertex) (d : W) :
    (t.record u v d).settled = t.settled :=
  rfl

lemma distanceOf_record (hv : v < t.distance.size) (u x : Vertex) (d : W) :
    (t.record u v d).distanceOf x = if x = v then some d else t.distanceOf x := by
  by_cases hx : x = v
  · simp [distanceOf, record, hx, hv]
  · simp [distanceOf, record, hx, Ne.symm hx]

lemma contains_mark (hn : t.Fits n) (hu : u < n) (v : Vertex) :
    (t.mark u).settled.contains v = (t.settled.contains v || decide (u = v)) := by
  have hcap : u < t.settled.capacity := hn.settled_capacity.symm ▸ hu
  rw [mark, IndexSet.contains_insert]
  simp [hcap]

lemma Fits.mark (hn : t.Fits n) (u : Vertex) : (t.mark u).Fits n :=
  ⟨hn.distance_size, hn.predecessor_size,
    (IndexSet.capacity_insert t.settled u).trans hn.settled_capacity⟩

lemma Fits.record (hn : t.Fits n) (u v : Vertex) (d : W) : (t.record u v d).Fits n :=
  ⟨Array.size_setIfInBounds.trans hn.distance_size,
    Array.size_setIfInBounds.trans hn.predecessor_size, hn.settled_capacity⟩

lemma awaits_mark (hn : t.Fits n) (hu : u < n) :
    (t.mark u).Awaits c ↔ t.Awaits c ∧ u ≠ c.vertex := by
  rw [Awaits, Awaits, contains_mark hn hu, distanceOf_mark]
  simp
  tauto

lemma awaits_record (hv : v < t.distance.size) (hs : t.settled.contains v = false) :
    (t.record u v d).Awaits c ↔ c = ⟨d, v⟩ ∨ (c.vertex ≠ v ∧ t.Awaits c) := by
  obtain ⟨e, x⟩ := c
  rw [Awaits, Awaits, distanceOf_record hv, settled_record]
  by_cases hx : x = v
  · simp [hx, hs, eq_comm]
  · simp [hx]

/-! ### The vertices that are left -/

/-- The vertices below a bound that are not settled. -/
def unsettled (t : Tables W) (n : Nat) : Finset Vertex :=
  (Finset.range n).filter fun v => t.settled.contains v = false

lemma mem_unsettled : v ∈ t.unsettled n ↔ v < n ∧ t.settled.contains v = false := by
  rw [unsettled, Finset.mem_filter, Finset.mem_range]

lemma Awaits.mem_unsettled (hn : t.Fits n) (hc : t.Awaits c) : c.vertex ∈ t.unsettled n :=
  Tables.mem_unsettled.2 ⟨hn.lt hc.2, hc.1⟩

lemma unsettled_mark (hn : t.Fits n) (hu : u < n) :
    (t.mark u).unsettled n = (t.unsettled n).erase u := by
  ext v
  rw [Finset.mem_erase, mem_unsettled, mem_unsettled, contains_mark hn hu, Bool.or_eq_false_iff,
    decide_eq_false_iff_not, ne_comm]
  tauto

/-! ### The beginning -/

variable [Weight W]

lemma fits_start (n : Nat) (source : Vertex) : (start n source : Tables W).Fits n :=
  ⟨by simp [start], by simp [start, Predecessors.none], rfl⟩

lemma distanceOf_start {source : Vertex} (hs : source < n) (v : Vertex) :
    (start n source : Tables W).distanceOf v = if v = source then some 0 else none := by
  by_cases hv : v = source
  · simp [start, distanceOf, hv, hs]
  · by_cases hvn : v < n
    · simp [start, distanceOf, hv, Ne.symm hv, hvn]
    · simp [start, distanceOf, hv, hvn]

lemma contains_start (source v : Vertex) :
    (start n source : Tables W).settled.contains v = false :=
  IndexSet.contains_empty n v

lemma unsettled_start (n : Nat) (source : Vertex) :
    (start n source : Tables W).unsettled n = Finset.range n :=
  Finset.filter_true_of_mem fun v _ => contains_start source v

lemma awaits_start {source : Vertex} (hs : source < n) :
    (start n source : Tables W).Awaits c ↔ c = ⟨0, source⟩ := by
  obtain ⟨e, x⟩ := c
  rw [Awaits, contains_start, distanceOf_start hs]
  by_cases hx : x = source
  · simp [hx, eq_comm]
  · simp [hx]

/-! ### Trying the entries of a vertex -/

section Relax

variable {base : W} {e : Entry W} {es : List (Entry W)}

/-- The entry leads to a vertex that is not settled, on a shorter way than was found so far. -/
def Improves (t : Tables W) (base : W) (e : Entry W) : Prop :=
  t.settled.contains e.target = false ∧
    shorter (base + e.weight) (t.distanceOf e.target) = true

lemma relax_cons_of_improves (h : t.Improves base e) : relax u base (e :: es) t =
    ((relax u base es (t.record u e.target (base + e.weight))).1,
      ⟨base + e.weight, e.target⟩ ::
        (relax u base es (t.record u e.target (base + e.weight))).2) := by
  rw [relax, h.1, if_neg Bool.false_ne_true]
  exact if_pos h.2

lemma relax_cons_of_not_improves (h : ¬ t.Improves base e) :
    relax u base (e :: es) t = relax u base es t := by
  rw [relax]
  split
  · rfl
  · next hs => exact if_neg fun hd => h ⟨eq_false_of_ne_true hs, hd⟩

/-- What holds of the tables and of whatever the candidates are put into holds after the entries of
a vertex were tried, if each shorter distance preserves it. -/
theorem relax_induction {α : Type} (put : α → Candidate W → α) {P : Tables W → α → Prop} {a : α}
    (h : P t a)
    (hstep : ∀ t a e, e ∈ es → P t a → t.Improves base e →
      P (t.record u e.target (base + e.weight)) (put a ⟨base + e.weight, e.target⟩)) :
    P (relax u base es t).1 ((relax u base es t).2.foldl put a) := by
  induction es generalizing t a with
  | nil => exact h
  | cons e es ih =>
      have hrest : ∀ t a f, f ∈ es → P t a → t.Improves base f →
          P (t.record u f.target (base + f.weight)) (put a ⟨base + f.weight, f.target⟩) :=
        fun t a f hf => hstep t a f (List.mem_cons_of_mem e hf)
      by_cases himp : t.Improves base e
      · rw [relax_cons_of_improves himp]
        exact ih (hstep t a e List.mem_cons_self h himp) hrest
      · rw [relax_cons_of_not_improves himp]
        exact ih h hrest

/-- The same without the candidates. -/
theorem relax_induction' {P : Tables W → Prop} (h : P t)
    (hstep : ∀ t e, e ∈ es → P t → t.Improves base e →
      P (t.record u e.target (base + e.weight))) : P (relax u base es t).1 :=
  relax_induction (fun (a : Unit) _ => a) (P := fun t _ => P t) (a := ()) h
    fun t _ e => hstep t e

lemma settled_relax (u : Vertex) (base : W) (es : List (Entry W)) (t : Tables W) :
    (relax u base es t).1.settled = t.settled :=
  relax_induction' (P := fun t' => t'.settled = t.settled) rfl fun _ _ _ h _ => h

/-- Each entry gives one candidate at most. -/
lemma length_relax_le (u : Vertex) (base : W) (es : List (Entry W)) (t : Tables W) :
    (relax u base es t).2.length ≤ es.length := by
  induction es generalizing t with
  | nil => exact le_rfl
  | cons e es ih =>
      by_cases himp : t.Improves base e
      · rw [relax_cons_of_improves himp]
        exact Nat.succ_le_succ (ih _)
      · rw [relax_cons_of_not_improves himp]
        exact (ih t).trans (Nat.le_succ _)

/-- Entries to settled vertices change nothing. -/
lemma relax_of_settled (h : ∀ e ∈ es, t.settled.contains e.target = true) :
    relax u base es t = (t, []) := by
  induction es with
  | nil => rfl
  | cons e es ih =>
      rw [relax, if_pos (h e List.mem_cons_self)]
      exact ih fun f hf => h f (List.mem_cons_of_mem e hf)

end Relax

end Tables

/-! ### Settling an awaiting vertex -/

namespace Adjacency

variable {W : Type} [Weight W] {g : Adjacency W} {t : Tables W} {c : Candidate W}

/-- The tables after an awaiting vertex was settled, with the candidates that this gives. -/
def settleCandidate (g : Adjacency W) (t : Tables W) (c : Candidate W) :
    Tables W × List (Candidate W) :=
  Tables.relax c.vertex c.distance (g.row c.vertex) (t.mark c.vertex)

/-- Where every neighbour is a vertex, an awaiting vertex is settled without a fault. -/
theorem settle_eq (h : g.WellFormed) (hc : t.Awaits c) :
    t.settle g c.vertex = .ok (g.settleCandidate t c) := by
  have hd : (t.mark c.vertex).distanceOf c.vertex = some c.distance := hc.2
  rw [Tables.mark] at hd
  simp only [Tables.settle, g.expand_of_wellFormed h, bind, Except.bind, hd]
  rfl

/-- What marking an awaiting vertex and each shorter distance found from it preserve, settling it
preserves. -/
theorem settleCandidate_induction {P : Tables W → Prop} (h : P (t.mark c.vertex))
    (hstep : ∀ t e, e ∈ g.row c.vertex → P t → t.Improves c.distance e →
      P (t.record c.vertex e.target (c.distance + e.weight))) : P (g.settleCandidate t c).1 :=
  Tables.relax_induction' h hstep

lemma fits_settleCandidate (ht : t.Fits g.size) : (g.settleCandidate t c).1.Fits g.size :=
  settleCandidate_induction (P := fun t => t.Fits g.size) (ht.mark c.vertex)
    fun _ _ _ ht' _ => ht'.record _ _ _

lemma contains_settleCandidate (ht : t.Fits g.size) (hc : t.Awaits c) {v : Vertex} :
    (g.settleCandidate t c).1.settled.contains v = true ↔
      t.settled.contains v = true ∨ c.vertex = v := by
  rw [settleCandidate, Tables.settled_relax, Tables.contains_mark ht (ht.lt hc.2), Bool.or_eq_true,
    decide_eq_true_iff]

lemma unsettled_settleCandidate (ht : t.Fits g.size) (hc : t.Awaits c) :
    (g.settleCandidate t c).1.unsettled g.size = (t.unsettled g.size).erase c.vertex := by
  rw [← Tables.unsettled_mark ht (ht.lt hc.2), Tables.unsettled, settleCandidate,
    Tables.settled_relax, Tables.unsettled]

/-- The distances of settled vertices stay as they are. -/
lemma distanceOf_settleCandidate (h : g.WellFormed) (ht : t.Fits g.size) {v : Vertex}
    (hv : (g.settleCandidate t c).1.settled.contains v = true) :
    (g.settleCandidate t c).1.distanceOf v = t.distanceOf v := by
  rw [settleCandidate, Tables.settled_relax] at hv
  refine (settleCandidate_induction (P := fun t' => t'.Fits g.size ∧
    t'.settled.contains v = true ∧ t'.distanceOf v = t.distanceOf v)
    ⟨ht.mark c.vertex, hv, rfl⟩ ?_).2.2
  rintro t' e he ⟨ht', hv', hd⟩ himp
  have hne : v ≠ e.target := by
    rintro rfl
    exact Bool.false_ne_true (himp.1.symm.trans hv')
  have hlt : e.target < t'.distance.size := ht'.distance_size.symm ▸ h _ e he
  exact ⟨ht'.record .., hv', by rw [Tables.distanceOf_record hlt, if_neg hne, hd]⟩

end Adjacency

end WeightedGraph
