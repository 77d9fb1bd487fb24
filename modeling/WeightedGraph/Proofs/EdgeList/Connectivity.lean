import Mathlib
import WeightedGraph.EdgeList

/-!
Lists of edges as undirected multigraphs.

* `EdgeList.Joined`: two vertices are connected by edges of the list, whichever way round these are.
  `joined_cons_iff` says what one edge more connects.
* `EdgeList.Route`: edges that lead in turn from a vertex to another one.
* `EdgeList.Acyclic`: no closed route takes edges of the list, each at most as often as it occurs.
  A loop is such a route, and so are two parallel edges.
* `EdgeList.exists_route`: connected vertices have a route without repetition. With it
  `acyclic_cons_iff`: an edge closes no cycle just when it joins what was not connected.
-/

namespace WeightedGraph

namespace EdgeList

variable {W : Type} {e : Edge W} {es fs c : List (Edge W)} {u v w : Vertex}

/-! ### Connected vertices -/

/-- Two vertices are connected by the edges, taken as undirected ones. -/
def Joined (es : List (Edge W)) : Vertex → Vertex → Prop :=
  Relation.EqvGen fun u v => ∃ e ∈ es, e.source = u ∧ e.target = v

lemma joined_refl (es : List (Edge W)) (v : Vertex) : Joined es v v :=
  .refl v

lemma Joined.symm (h : Joined es u v) : Joined es v u :=
  Relation.EqvGen.symm _ _ h

lemma Joined.trans (h : Joined es u v) (h' : Joined es v w) : Joined es u w :=
  Relation.EqvGen.trans _ _ _ h h'

lemma joined_of_mem (h : e ∈ es) : Joined es e.source e.target :=
  .rel _ _ ⟨e, h, rfl, rfl⟩

/-- Connection is the least equivalence that holds of the endpoints of every edge. -/
lemma Joined.least {r : Vertex → Vertex → Prop} (hr : Equivalence r)
    (h : ∀ e ∈ es, r e.source e.target) (hj : Joined es u v) : r u v := by
  induction hj with
  | rel u v huv =>
      obtain ⟨e, he, rfl, rfl⟩ := huv
      exact h e he
  | refl u => exact hr.refl u
  | symm _ _ _ ih => exact hr.symm ih
  | trans _ _ _ _ _ ih ih' => exact hr.trans ih ih'

lemma joined_equivalence (es : List (Edge W)) : Equivalence (Joined es) :=
  ⟨joined_refl es, Joined.symm, Joined.trans⟩

lemma Joined.of_forall (h : ∀ e ∈ es, Joined fs e.source e.target) (hj : Joined es u v) :
    Joined fs u v :=
  hj.least (joined_equivalence fs) h

lemma Joined.mono (h : es ⊆ fs) (hj : Joined es u v) : Joined fs u v :=
  hj.of_forall fun _ he => joined_of_mem (h he)

lemma joined_perm (h : es.Perm fs) (u v : Vertex) : Joined es u v ↔ Joined fs u v :=
  ⟨Joined.mono h.subset, Joined.mono h.symm.subset⟩

lemma joined_nil : Joined ([] : List (Edge W)) u v ↔ u = v :=
  ⟨Joined.least eq_equivalence (by simp), fun h => h ▸ joined_refl _ _⟩

/-- What the list with an edge more connects. -/
theorem joined_cons_iff :
    Joined (e :: es) u v ↔ Joined es u v ∨ (Joined es u e.source ∧ Joined es e.target v) ∨
      (Joined es u e.target ∧ Joined es e.source v) := by
  constructor
  · refine Joined.least (r := fun u v => Joined es u v ∨
        (Joined es u e.source ∧ Joined es e.target v) ∨
        (Joined es u e.target ∧ Joined es e.source v))
      ⟨fun u => Or.inl (joined_refl es u), ?_, ?_⟩ ?_
    · rintro u v (h | ⟨h, h'⟩ | ⟨h, h'⟩)
      · exact Or.inl h.symm
      · exact Or.inr (Or.inr ⟨h'.symm, h.symm⟩)
      · exact Or.inr (Or.inl ⟨h'.symm, h.symm⟩)
    · rintro u v w (h | ⟨h, h'⟩ | ⟨h, h'⟩) (k | ⟨k, k'⟩ | ⟨k, k'⟩)
      · exact Or.inl (h.trans k)
      · exact Or.inr (Or.inl ⟨h.trans k, k'⟩)
      · exact Or.inr (Or.inr ⟨h.trans k, k'⟩)
      · exact Or.inr (Or.inl ⟨h, h'.trans k⟩)
      · exact Or.inr (Or.inl ⟨h, k'⟩)
      · exact Or.inl (h.trans k')
      · exact Or.inr (Or.inr ⟨h, h'.trans k⟩)
      · exact Or.inl (h.trans k')
      · exact Or.inr (Or.inr ⟨h, k'⟩)
    · intro f hf
      rcases List.mem_cons.1 hf with rfl | hf
      · exact Or.inr (Or.inl ⟨joined_refl es _, joined_refl es _⟩)
      · exact Or.inl (joined_of_mem hf)
  · have hmono : ∀ {a b}, Joined es a b → Joined (e :: es) a b :=
      Joined.mono (List.subset_cons_self e es)
    have he : Joined (e :: es) e.source e.target := joined_of_mem List.mem_cons_self
    rintro (h | ⟨h, h'⟩ | ⟨h, h'⟩)
    · exact hmono h
    · exact ((hmono h).trans he).trans (hmono h')
    · exact ((hmono h).trans he.symm).trans (hmono h')

/-- An edge whose endpoints are connected anyway connects nothing more. -/
lemma joined_cons_of_joined (he : Joined es e.source e.target) :
    Joined (e :: es) u v ↔ Joined es u v := by
  refine ⟨Joined.of_forall fun f hf => ?_, Joined.mono (List.subset_cons_self e es)⟩
  rcases List.mem_cons.1 hf with rfl | hf
  · exact he
  · exact joined_of_mem hf

/-! ### Routes -/

/-- The edges lead in turn from one vertex to another, each taken forth or back. -/
inductive Route : Vertex → List (Edge W) → Vertex → Prop
  | nil (v : Vertex) : Route v [] v
  | forth {e : Edge W} {c : List (Edge W)} {v : Vertex} :
      Route e.target c v → Route e.source (e :: c) v
  | back {e : Edge W} {c : List (Edge W)} {v : Vertex} :
      Route e.source c v → Route e.target (e :: c) v

namespace Route

lemma append {c' : List (Edge W)} (h : Route u c v) (h' : Route v c' w) : Route u (c ++ c') w := by
  induction h with
  | nil => exact h'
  | forth _ ih => exact .forth (ih h')
  | back _ ih => exact .back (ih h')

lemma joined (h : Route u c v) (hc : c ⊆ es) : Joined es u v := by
  induction h with
  | nil v => exact joined_refl es v
  | forth _ ih =>
      obtain ⟨he, hc⟩ := List.cons_subset.1 hc
      exact (joined_of_mem he).trans (ih hc)
  | back _ ih =>
      obtain ⟨he, hc⟩ := List.cons_subset.1 hc
      exact (joined_of_mem he).symm.trans (ih hc)

/-- Every edge of a route is connected to its beginning. -/
lemma joined_source (h : Route u c v) (hc : c ⊆ es) : ∀ e ∈ c, Joined es u e.source := by
  induction h with
  | nil => simp
  | @forth f c v _ ih =>
      obtain ⟨hf, hc⟩ := List.cons_subset.1 hc
      intro e he
      rcases List.mem_cons.1 he with rfl | he
      · exact joined_refl es _
      · exact (joined_of_mem hf).trans (ih hc e he)
  | @back f c v _ ih =>
      obtain ⟨hf, hc⟩ := List.cons_subset.1 hc
      intro e he
      rcases List.mem_cons.1 he with rfl | he
      · exact (joined_of_mem hf).symm
      · exact (joined_of_mem hf).symm.trans (ih hc e he)

/-- A route through an edge comes to one of its endpoints and goes on from the other one. -/
lemma split {c' : List (Edge W)} (h : Route u (c ++ e :: c') v) :
    (Route u c e.source ∧ Route e.target c' v) ∨ (Route u c e.target ∧ Route e.source c' v) := by
  induction c generalizing u with
  | nil =>
      cases h with
      | forth h => exact Or.inl ⟨.nil _, h⟩
      | back h => exact Or.inr ⟨.nil _, h⟩
  | cons f c ih =>
      cases h with
      | forth h => exact (ih h).imp (And.imp_left .forth) (And.imp_left .forth)
      | back h => exact (ih h).imp (And.imp_left .back) (And.imp_left .back)

end Route

lemma subperm_append_of_disjoint {α : Type} {xs ys zs : List α} (hx : xs.Subperm zs)
    (hy : ys.Subperm zs) (h : xs.Disjoint ys) : (xs ++ ys).Subperm zs := by
  classical
  rw [List.subperm_ext_iff] at hx hy ⊢
  intro a ha
  rw [List.count_append]
  rcases List.mem_append.1 ha with ha | ha
  · rw [List.count_eq_zero.2 (h ha), Nat.add_zero]
    exact hx a ha
  · rw [List.count_eq_zero.2 fun ha' => h ha' ha, Nat.zero_add]
    exact hy a ha

/-- Connected vertices have a route on which no edge is taken more often than it occurs. A route
that needs the new edge consists of that edge and two routes in different parts of the rest. -/
theorem exists_route (h : Joined es u v) : ∃ c, Route u c v ∧ c.Subperm es := by
  induction es generalizing u v with
  | nil => exact ⟨[], joined_nil.1 h ▸ .nil u, List.nil_subperm⟩
  | cons e es ih =>
      have hsub : es.Subperm (e :: es) := (List.sublist_cons_self e es).subperm
      by_cases huv : Joined es u v
      · obtain ⟨c, hc, hce⟩ := ih huv
        exact ⟨c, hc, hce.trans hsub⟩
      · -- the two routes from the endpoints of `e` share no edge, since `u` and `v` are apart
        have through : ∀ {a b}, (∀ {c}, Route b c v → Route a (e :: c) v) → Joined es u a →
            Joined es b v → ∃ c, Route u c v ∧ c.Subperm (e :: es) := by
          intro a b hab hua hbv
          obtain ⟨c₁, h₁, hs₁⟩ := ih hua
          obtain ⟨c₂, h₂, hs₂⟩ := ih hbv
          refine ⟨c₁ ++ e :: c₂, h₁.append (hab h₂), ?_⟩
          have hdis : c₁.Disjoint c₂ := fun f hf₁ hf₂ =>
            huv (((h₁.joined_source hs₁.subset f hf₁).trans
              (h₂.joined_source hs₂.subset f hf₂).symm).trans hbv)
          exact List.perm_middle.subperm.trans
            ((List.subperm_cons e).2 (subperm_append_of_disjoint hs₁ hs₂ hdis))
        rcases joined_cons_iff.1 h with h | ⟨h, h'⟩ | ⟨h, h'⟩
        · exact absurd h huv
        · exact through .forth h h'
        · exact through .back h h'

/-! ### Cycles -/

/-- No route that takes each edge at most as often as it occurs is closed. -/
def Acyclic (es : List (Edge W)) : Prop :=
  ∀ v c, Route v c v → c.Subperm es → c = []

lemma Acyclic.subperm (h : Acyclic fs) (hs : es.Subperm fs) : Acyclic es :=
  fun v c hc hce => h v c hc (hce.trans hs)

lemma acyclic_nil : Acyclic ([] : List (Edge W)) :=
  fun _ _ _ hc => List.subperm_nil.1 hc

/-- An edge closes no cycle just when its endpoints are not connected by the other edges. -/
theorem acyclic_cons_iff :
    Acyclic (e :: es) ↔ ¬ Joined es e.source e.target ∧ Acyclic es := by
  classical
  constructor
  · intro h
    refine ⟨fun hj => ?_, h.subperm (List.sublist_cons_self e es).subperm⟩
    obtain ⟨c, hc, hce⟩ := exists_route hj.symm
    exact List.cons_ne_nil e c (h _ _ (.forth hc) ((List.subperm_cons e).2 hce))
  · rintro ⟨hj, h⟩ v c hc hce
    by_cases hces : c.Subperm es
    · exact h v c hc hces
    · -- the route takes the occurrence of `e` that `es` does not have
      have he : e ∈ c := by
        by_contra he
        have hc' := hce.erase e
        rw [List.erase_of_not_mem he, List.erase_cons_head] at hc'
        exact hces hc'
      obtain ⟨c₁, c₂, rfl⟩ := List.append_of_mem he
      have hsub : (c₁ ++ c₂).Subperm es :=
        (List.subperm_cons e).1 (List.perm_middle.symm.subperm.trans hce)
      have h₁ : c₁ ⊆ es := List.Subset.trans (List.subset_append_left c₁ c₂) hsub.subset
      have h₂ : c₂ ⊆ es := List.Subset.trans (List.subset_append_right c₁ c₂) hsub.subset
      rcases hc.split with ⟨hl, hr⟩ | ⟨hl, hr⟩
      · exact absurd ((hr.joined h₂).trans (hl.joined h₁)).symm hj
      · exact absurd ((hr.joined h₂).trans (hl.joined h₁)) hj

lemma Acyclic.isLoop_eq_false (h : Acyclic es) (he : e ∈ es) : e.isLoop = false := by
  by_contra hl
  have hst : e.source = e.target := by simpa [Edge.isLoop] using hl
  have hr : Route e.source [e] e.source := .forth (hst ▸ .nil _)
  exact List.cons_ne_nil e [] (h _ _ hr (List.singleton_subperm_iff.2 he))

end EdgeList

end WeightedGraph
