import Mathlib
import WeightedGraph.Proofs.ShortestPath.Relaxation
import WeightedGraph.ShortestPath.Search

/-!
The vertex that a search settles next, and the search that a scan makes.

* `Candidate.before_refl`, `before_trans`, `before_antisymm`, `before_total`: the order of the queue
  is a linear order.
* `Adjacency.Comparable`: on the distances that a search can meet, the numeric comparison is the
  total order.
* `Tables.nearest?_eq_none_iff`, `Tables.nearest?_eq_some_iff`: the scan finds the first of the
  awaiting vertices in the order of the queue.
* `Adjacency.settleNearest`: settles the vertex that the scan finds; `scanRounds_eq` says that the
  rounds of the scan are its iterates.
-/

namespace WeightedGraph

variable {W : Type} [Weight W]

/-! ### The order of the candidates -/

namespace Candidate

variable {a b c : Candidate W}

lemma before_iff : a.before b = true ↔ (Weight.order a.distance b.distance).isLE = true ∧
    (Weight.order a.distance b.distance = .lt ∨ a.vertex ≤ b.vertex) := by
  rw [before, Ordering.isLE_then_iff_and, Nat.isLE_compare]

variable [Std.TransCmp (Weight.order (W := W))]

lemma before_refl (a : Candidate W) : a.before a = true :=
  before_iff.2 ⟨Std.ReflCmp.isLE_rfl, .inr le_rfl⟩

lemma before_trans (hab : a.before b = true) (hbc : b.before c = true) : a.before c = true := by
  rw [before_iff] at hab hbc ⊢
  refine ⟨Std.TransCmp.isLE_trans hab.1 hbc.1, ?_⟩
  rcases hab.2 with hlt | hvab
  · exact .inl (Std.TransCmp.lt_of_lt_of_isLE hlt hbc.1)
  · rcases hbc.2 with hlt | hvbc
    · exact .inl (Std.TransCmp.lt_of_isLE_of_lt hab.1 hlt)
    · exact .inr (hvab.trans hvbc)

omit [Std.TransCmp (Weight.order (W := W))] in
lemma before_of_lt (h : Weight.order a.distance b.distance = .lt) : a.before b = true :=
  before_iff.2 ⟨Ordering.isLE_of_eq_lt h, .inl h⟩

lemma before_total (a b : Candidate W) : a.before b = true ∨ b.before a = true := by
  cases h : Weight.order a.distance b.distance with
  | lt => exact .inl (before_of_lt h)
  | gt => exact .inr (before_of_lt (Std.OrientedCmp.lt_of_gt h))
  | eq =>
      rcases Nat.le_total a.vertex b.vertex with hv | hv
      · exact .inl (before_iff.2 ⟨Ordering.isLE_of_eq_eq h, .inr hv⟩)
      · exact .inr (before_iff.2 ⟨Ordering.isLE_of_eq_eq (Std.OrientedCmp.eq_symm h), .inr hv⟩)

lemma before_antisymm [Std.LawfulEqCmp (Weight.order (W := W))] (hab : a.before b = true)
    (hba : b.before a = true) : a = b := by
  rw [before_iff] at hab hba
  have heq : Weight.order a.distance b.distance = .eq := Std.OrientedCmp.isLE_antisymm hab.1 hba.1
  have hdist : a.distance = b.distance := Std.LawfulEqCmp.eq_of_compare heq
  have hvab : a.vertex ≤ b.vertex := hab.2.resolve_left (by simp [heq])
  have hvba : b.vertex ≤ a.vertex := hba.2.resolve_left (by simp [Std.OrientedCmp.eq_symm heq])
  obtain ⟨d, v⟩ := a
  obtain ⟨e, u⟩ := b
  exact congr (congrArg Candidate.mk hdist) (Nat.le_antisymm hvab hvba)

end Candidate

/-! ### The distances of a search -/

/-- The distances that satisfy `P` contain zero, are closed under the entries of the lists, and the
numeric comparison on them is the total order. -/
structure Adjacency.Comparable (g : Adjacency W) (P : W → Prop) : Prop where
  zero : P 0
  add : ∀ v, ∀ e ∈ g.row v, ∀ d, P d → P (d + e.weight)
  compare?_eq : ∀ a b, P a → P b → Weight.compare? a b = some (Weight.order a b)

namespace Adjacency.Comparable

variable {g : Adjacency W} {P : W → Prop} {a b : W}

lemma lt_iff (hP : g.Comparable P) (ha : P a) (hb : P b) :
    Weight.lt a b = true ↔ Weight.order a b = .lt := by
  rw [Weight.lt, hP.compare?_eq a b ha hb]
  simp

lemma le_iff (hP : g.Comparable P) (ha : P a) (hb : P b) :
    Weight.le a b = true ↔ (Weight.order a b).isLE = true := by
  rw [Weight.le, hP.compare?_eq a b ha hb]
  simp

end Adjacency.Comparable

/-! ### The scan -/

namespace Tables

variable {t : Tables W} {best : Option (Candidate W)} {c c' : Candidate W} {v : Vertex} {n : Nat}

/-- Every distance in the tables satisfies `P`. -/
def Holds (t : Tables W) (P : W → Prop) : Prop :=
  ∀ v d, t.distanceOf v = some d → P d

lemma nearer_of_not_awaits (h : ∀ d, ¬ t.Awaits ⟨d, v⟩) : t.nearer best v = best := by
  unfold nearer
  by_cases hs : t.settled.contains v = true
  · rw [if_pos hs]
  · rw [if_neg hs]
    cases hd : t.distanceOf v with
    | none => rfl
    | some d => exact absurd ⟨eq_false_of_ne_true hs, hd⟩ (h d)

lemma nearer_of_awaits (h : t.Awaits c) : t.nearer best c.vertex =
    if (best.any fun b => Weight.le b.distance c.distance) = true then best else some c := by
  unfold nearer
  rw [h.1, h.2, if_neg Bool.false_ne_true]
  cases best <;> rfl

/-- The scan of a list of vertices finds none if none was found before and none of them awaits. -/
lemma foldl_nearer_eq_none_iff {vs : List Vertex} :
    vs.foldl t.nearer best = none ↔ best = none ∧ ∀ v ∈ vs, ∀ d, ¬ t.Awaits ⟨d, v⟩ := by
  induction vs generalizing best with
  | nil => simp
  | cons v vs ih =>
      rw [List.foldl_cons, ih, List.forall_mem_cons]
      by_cases hv : ∀ d, ¬ t.Awaits ⟨d, v⟩
      · rw [nearer_of_not_awaits hv]
        tauto
      · obtain ⟨d, hd⟩ := not_forall_not.1 hv
        have hsome : t.nearer best v ≠ none := by
          rw [nearer_of_awaits hd]
          cases best <;> simp
          split <;> simp
        exact iff_of_false (fun h => hsome h.1) fun h => h.2.1 d hd

/-- What the scan of a list of vertices finds was found before or is an awaiting one of them. -/
lemma foldl_nearer_induction {Q : Candidate W → Prop} {vs : List Vertex}
    (hbest : ∀ b, best = some b → Q b) (hvs : ∀ c, t.Awaits c → c.vertex ∈ vs → Q c)
    (h : vs.foldl t.nearer best = some c) : Q c := by
  induction vs generalizing best with
  | nil => exact hbest c h
  | cons v vs ih =>
      refine ih (fun b hb => ?_) (fun c hc hv => hvs c hc (List.mem_cons_of_mem v hv)) h
      by_cases hv : ∀ d, ¬ t.Awaits ⟨d, v⟩
      · rw [nearer_of_not_awaits hv] at hb
        exact hbest b hb
      · obtain ⟨d, hd⟩ := not_forall_not.1 hv
        rw [nearer_of_awaits hd] at hb
        split at hb
        · exact hbest b hb
        · exact Option.some.inj hb ▸ hvs ⟨d, v⟩ hd List.mem_cons_self

lemma nearest?_eq_none_iff : t.nearest? = none ↔ ∀ c, ¬ t.Awaits c := by
  rw [nearest?, foldl_nearer_eq_none_iff]
  exact ⟨fun h c hc => h.2 c.vertex (List.mem_range.2 (lt_of_distanceOf hc.2)) c.distance hc,
    fun h => ⟨rfl, fun v _ d => h ⟨d, v⟩⟩⟩

lemma awaits_of_nearest? (h : t.nearest? = some c) : t.Awaits c :=
  foldl_nearer_induction (by simp) (fun _ hc _ => hc) h

section Comparable

variable [Std.TransCmp (Weight.order (W := W))] {g : Adjacency W} {P : W → Prop}

/-- The nearer one of a candidate and an awaiting vertex after it comes before both. -/
lemma before_of_nearer (hP : g.Comparable P) (ht : t.Holds P) {b : Candidate W} (hb : t.Awaits b)
    (hc' : t.Awaits c') (hv : b.vertex ≤ c'.vertex) (h : t.nearer (some b) c'.vertex = some c) :
    c.before b = true ∧ c.before c' = true := by
  have hle : Weight.le b.distance c'.distance = true ↔
      (Weight.order b.distance c'.distance).isLE = true :=
    hP.le_iff (ht _ _ hb.2) (ht _ _ hc'.2)
  rw [nearer_of_awaits hc', Option.any_some] at h
  by_cases hbc : Weight.le b.distance c'.distance = true
  · rw [if_pos hbc] at h
    obtain rfl : b = c := Option.some.inj h
    exact ⟨b.before_refl, Candidate.before_iff.2 ⟨hle.1 hbc, .inr hv⟩⟩
  · rw [if_neg hbc] at h
    obtain rfl : c' = c := Option.some.inj h
    have hgt : Weight.order b.distance c'.distance = .gt := by
      simpa using mt hle.2 hbc
    exact ⟨Candidate.before_of_lt (Std.OrientedCmp.lt_of_gt hgt), c'.before_refl⟩

/-- Among the vertices below a bound, the scan in their order finds the first in the order of the
queue. -/
lemma before_of_foldl_nearer (hP : g.Comparable P) (ht : t.Holds P) {k : Nat}
    (h : (List.range k).foldl t.nearer none = some c) (hc' : t.Awaits c') (hk : c'.vertex < k) :
    c.before c' = true := by
  induction k generalizing c c' with
  | zero => exact absurd hk (Nat.not_lt_zero _)
  | succ k ih =>
      rw [List.range_succ, List.foldl_append, List.foldl_cons, List.foldl_nil] at h
      by_cases hv : ∀ d, ¬ t.Awaits ⟨d, k⟩
      · rw [nearer_of_not_awaits hv] at h
        refine ih h hc' (Nat.lt_of_le_of_ne (Nat.le_of_lt_succ hk) fun hck => ?_)
        exact hv c'.distance (hck ▸ hc')
      · obtain ⟨d, hd⟩ := not_forall_not.1 hv
        cases hbest : (List.range k).foldl t.nearer none with
        | none =>
            rw [hbest, nearer_of_awaits hd] at h
            obtain rfl : ⟨d, k⟩ = c := Option.some.inj h
            rcases Nat.lt_or_eq_of_le (Nat.le_of_lt_succ hk) with hlt | heq
            · exact absurd hc' ((foldl_nearer_eq_none_iff.1 hbest).2 _ (List.mem_range.2 hlt) _)
            · rw [hd.eq hc' heq.symm]
              exact c'.before_refl
        | some b =>
            have hb : t.Awaits b ∧ b.vertex < k :=
              foldl_nearer_induction (Q := fun b => t.Awaits b ∧ b.vertex < k) (by simp)
                (fun _ hb hk => ⟨hb, List.mem_range.1 hk⟩) hbest
            rw [hbest] at h
            obtain ⟨hcb, hck⟩ := before_of_nearer hP ht hb.1 hd hb.2.le h
            rcases Nat.lt_or_eq_of_le (Nat.le_of_lt_succ hk) with hlt | heq
            · exact Candidate.before_trans hcb (ih hbest hc' hlt)
            · exact hd.eq hc' heq.symm ▸ hck

/-- The scan finds the first of the awaiting vertices. -/
theorem nearest?_eq_some_iff [Std.LawfulEqCmp (Weight.order (W := W))] (hP : g.Comparable P)
    (ht : t.Holds P) :
    t.nearest? = some c ↔ t.Awaits c ∧ ∀ c', t.Awaits c' → c.before c' = true := by
  have hbefore : ∀ b, t.nearest? = some b → ∀ c', t.Awaits c' → b.before c' = true :=
    fun b hb c' hc' => before_of_foldl_nearer hP ht hb hc' (lt_of_distanceOf hc'.2)
  refine ⟨fun h => ⟨awaits_of_nearest? h, hbefore c h⟩, ?_⟩
  rintro ⟨hc, hfirst⟩
  cases hb : t.nearest? with
  | none => exact absurd hc (nearest?_eq_none_iff.1 hb c)
  | some b =>
      exact congrArg some
        (Candidate.before_antisymm (hbefore b hb c hc) (hfirst b (awaits_of_nearest? hb)))

end Comparable

end Tables

/-! ### Settling the nearest vertex -/

namespace Adjacency

variable {g : Adjacency W} {t : Tables W} {c : Candidate W} {P : W → Prop}

/-- The tables after the vertex that the scan finds was settled. -/
def settleNearest (g : Adjacency W) (t : Tables W) : Tables W :=
  match t.nearest? with
  | none => t
  | some c => (g.settleCandidate t c).1

lemma settleNearest_of_none (h : t.nearest? = none) : g.settleNearest t = t := by
  rw [settleNearest, h]

lemma settleNearest_of_some (h : t.nearest? = some c) :
    g.settleNearest t = (g.settleCandidate t c).1 := by
  rw [settleNearest, h]

/-- The rounds of the scan settle the nearest vertex again and again. -/
theorem scanRounds_eq (h : g.WellFormed) (k : Nat) (t : Tables W) :
    g.scanRounds k t = .ok (g.settleNearest^[k] t) := by
  induction k generalizing t with
  | zero => rfl
  | succ k ih =>
      rw [scanRounds, Function.iterate_succ_apply]
      cases hc : t.nearest? with
      | none =>
          have hfix : g.settleNearest t = t := settleNearest_of_none hc
          rw [hfix, Function.iterate_fixed hfix]
      | some c =>
          rw [settleNearest_of_some hc, ← ih]
          simp only [settle_eq h (Tables.awaits_of_nearest? hc)]
          rfl

/-- A property that marking the nearest vertex and each shorter distance found from it preserve is
one that settling the nearest vertex preserves. -/
theorem settleNearest_induction {Q : Tables W → Prop} (hQ : Q t)
    (hmark : ∀ c, t.nearest? = some c → Q (t.mark c.vertex))
    (hrecord : ∀ c, t.nearest? = some c → ∀ t' e, e ∈ g.row c.vertex → Q t' →
      t'.Improves c.distance e → Q (t'.record c.vertex e.target (c.distance + e.weight))) :
    Q (g.settleNearest t) := by
  cases hc : t.nearest? with
  | none => rwa [settleNearest_of_none hc]
  | some c =>
      rw [settleNearest_of_some hc]
      exact settleCandidate_induction (hmark c hc) (hrecord c hc)

/-- The tables have a place for every vertex, and the distances in them satisfy `P`. -/
structure Admits (g : Adjacency W) (P : W → Prop) (t : Tables W) : Prop where
  fits : t.Fits g.size
  holds : t.Holds P

namespace Admits

variable {u v : Vertex} {d : W}

lemma start (hP : g.Comparable P) {source : Vertex} (hs : source < g.size) :
    g.Admits P (Tables.start g.size source) where
  fits := Tables.fits_start g.size source
  holds := by
    intro v d hd
    rw [Tables.distanceOf_start hs] at hd
    split at hd
    · exact Option.some.inj hd ▸ hP.zero
    · exact absurd hd (by simp)

omit [Weight W] in
lemma mark (ht : g.Admits P t) (u : Vertex) : g.Admits P (t.mark u) :=
  ⟨ht.fits.mark u, ht.holds⟩

omit [Weight W] in
lemma record (ht : g.Admits P t) (hv : v < g.size) (hd : P d) : g.Admits P (t.record u v d) where
  fits := ht.fits.record u v d
  holds := by
    intro x e he
    rw [Tables.distanceOf_record (ht.fits.distance_size.symm ▸ hv)] at he
    split at he
    · exact Option.some.inj he ▸ hd
    · exact ht.holds x e he

lemma settleNearest (h : g.WellFormed) (hP : g.Comparable P) (ht : g.Admits P t) :
    g.Admits P (g.settleNearest t) :=
  settleNearest_induction ht (fun c _ => ht.mark c.vertex) fun _ hc _ e he ht' _ =>
    ht'.record (h _ e he) (hP.add _ e he _ (ht.holds _ _ (Tables.awaits_of_nearest? hc).2))

end Admits

end Adjacency

end WeightedGraph
