import Mathlib
import WeightedGraph.Proofs.EdgeList.Connectivity
import WeightedGraph.Proofs.UnionFind.Forest

/-!
The connected components of a list of edges, counted with a union-find forest.

* `EdgeList.Within`: the endpoints of every edge are vertices.
* `EdgeList.componentCount`: the number of classes of connected vertices. `componentCount_le_length`
  and `length_le_componentCount` compare it with a number of groups.
* `UnionFind.Represents`: the sets of a forest are the classes of a list of edges.
  `Represents.componentCount_eq` says that there are then as many classes as sets, `Represents.join`
  that joining the endpoints of an edge adds that edge to the list.
* `EdgeList.length_add_componentCount`: a forest has as many trees as it has vertices more than
  edges.
-/

namespace WeightedGraph

variable {W : Type} {e : Edge W} {es fs : List (Edge W)} {n : Nat}

namespace EdgeList

/-- The endpoints of every edge are below a number of vertices. -/
def Within (n : Nat) (es : List (Edge W)) : Prop :=
  ∀ e ∈ es, e.source < n ∧ e.target < n

lemma Within.of_cons (h : Within n (e :: es)) : Within n es :=
  fun f hf => h f (List.mem_cons_of_mem e hf)

lemma Within.subset (h : Within n fs) (hs : es ⊆ fs) : Within n es :=
  fun e he => h e (hs he)

/-- The vertices in classes, two of them in the same class if the edges connect them. -/
def joinedSetoid (n : Nat) (es : List (Edge W)) : Setoid (Fin n) where
  r u v := Joined es u v
  iseqv := ⟨fun u => joined_refl es u, Joined.symm, Joined.trans⟩

/-- The number of connected components of the vertices below `n`. -/
noncomputable def componentCount (n : Nat) (es : List (Edge W)) : Nat :=
  Nat.card (Quotient (joinedSetoid n es))

/-- Where more is connected there are no more components. -/
lemma componentCount_le (h : ∀ u v, Joined es u v → Joined fs u v) :
    componentCount n fs ≤ componentCount n es := by
  have hmap : ∀ u v : Fin n, joinedSetoid n es u v → joinedSetoid n fs u v := fun u v => h u v
  refine Nat.card_le_card_of_surjective (Quotient.map' id hmap) fun q => ?_
  induction q using Quotient.inductionOn with
  | h v => exact ⟨Quotient.mk _ v, rfl⟩

lemma componentCount_pos (hn : 1 ≤ n) (es : List (Edge W)) : 0 < componentCount n es := by
  have : Nonempty (Quotient (joinedSetoid n es)) := ⟨Quotient.mk _ ⟨0, hn⟩⟩
  exact Nat.card_pos

/-- Groups that hold every vertex are no fewer than the components if none meets two of them. -/
lemma componentCount_le_length {groups : List (List Vertex)}
    (hmem : ∀ v < n, ∃ c ∈ groups, v ∈ c)
    (hjoined : ∀ c ∈ groups, ∀ u ∈ c, ∀ v ∈ c, Joined es u v) :
    componentCount n es ≤ groups.length := by
  have hindex : ∀ q : Quotient (joinedSetoid n es),
      ∃ i : Fin groups.length, q.out.1 ∈ groups[i] := by
    intro q
    obtain ⟨c, hc, hq⟩ := hmem q.out q.out.2
    obtain ⟨i, hi, rfl⟩ := List.mem_iff_getElem.1 hc
    exact ⟨⟨i, hi⟩, hq⟩
  choose index hindex using hindex
  have hinj : Function.Injective index := by
    intro q q' hq
    have hq' := hindex q'
    rw [← hq] at hq'
    rw [← q.out_eq, ← q'.out_eq]
    exact Quotient.sound (hjoined _ (List.getElem_mem _) _ (hindex q) _ hq')
  rw [componentCount]
  simpa using Nat.card_le_card_of_injective index hinj

/-- Groups with vertices are no more than the components if no component meets two of them. -/
lemma length_le_componentCount {groups : List (List Vertex)} (hne : ∀ c ∈ groups, ∃ v ∈ c, v < n)
    (hapart : groups.Pairwise fun c d => ∀ u ∈ c, ∀ v ∈ d, ¬ Joined es u v) :
    groups.length ≤ componentCount n es := by
  have hfirst : ∀ i : Fin groups.length, ∃ v : Fin n, v.1 ∈ groups[i] := by
    intro i
    obtain ⟨v, hv, hvn⟩ := hne groups[i] (List.getElem_mem _)
    exact ⟨⟨v, hvn⟩, hv⟩
  choose first hfirst using hfirst
  rw [List.pairwise_iff_getElem] at hapart
  have hinj : Function.Injective fun i => Quotient.mk (joinedSetoid n es) (first i) := by
    intro i j hij
    have hj : Joined es (first i) (first j) := Quotient.exact hij
    rcases lt_trichotomy i j with hlt | heq | hlt
    · exact absurd hj (hapart i j i.2 j.2 hlt _ (hfirst i) _ (hfirst j))
    · exact heq
    · exact absurd hj.symm (hapart j i j.2 i.2 hlt _ (hfirst j) _ (hfirst i))
  rw [componentCount]
  simpa using Nat.card_le_card_of_injective _ hinj

lemma componentCount_congr (h : ∀ u v, Joined es u v ↔ Joined fs u v) :
    componentCount n es = componentCount n fs :=
  le_antisymm (componentCount_le fun u v => (h u v).2) (componentCount_le fun u v => (h u v).1)

end EdgeList

open EdgeList

namespace UnionFind

variable {s t : UnionFind}

/-- The sets of the forest are the classes of vertices that the edges connect. -/
structure Represents (s : UnionFind) (n : Nat) (es : List (Edge W)) : Prop where
  wellFormed : s.WellFormed
  size_eq : s.size = n
  rootOf_eq_iff : ∀ u v, s.rootOf u = s.rootOf v ↔ Joined es u v

lemma represents_singletons (W : Type) (n : Nat) :
    (singletons n).Represents n ([] : List (Edge W)) where
  wellFormed := wellFormed_singletons n
  size_eq := size_singletons n
  rootOf_eq_iff u v := by rw [rootOf_singletons, rootOf_singletons, joined_nil]

namespace Represents

lemma congr (h : s.Represents n es) (hj : ∀ u v, Joined es u v ↔ Joined fs u v) :
    s.Represents n fs where
  wellFormed := h.wellFormed
  size_eq := h.size_eq
  rootOf_eq_iff u v := (h.rootOf_eq_iff u v).trans (hj u v)

/-- Shorter paths leave the sets as they are. -/
lemma shortens (h : s.Represents n es) (ht : s.Shortens t) : t.Represents n es where
  wellFormed := ht.wellFormed h.wellFormed
  size_eq := ht.size_eq.trans h.size_eq
  rootOf_eq_iff u v := by
    rw [ht.rootOf_eq h.wellFormed, ht.rootOf_eq h.wellFormed]
    exact h.rootOf_eq_iff u v

/-- A forest in which the endpoints of an edge were joined has that edge more. -/
lemma of_joinSpec {joined : Bool} (h : s.Represents n es)
    (ht : s.JoinSpec e.source e.target joined t) : t.Represents n (e :: es) where
  wellFormed := ht.wellFormed
  size_eq := ht.size_eq.trans h.size_eq
  rootOf_eq_iff u v := by
    rw [ht.merges, joined_cons_iff]
    simp only [h.rootOf_eq_iff]

/-- Joining the endpoints of an edge adds that edge. -/
lemma join (h : s.Represents n es) (he : e.source < n ∧ e.target < n) :
    (s.join e.source e.target).2.Represents n (e :: es) :=
  h.of_joinSpec (join_spec h.wellFormed (h.size_eq ▸ he.1) (h.size_eq ▸ he.2))

/-- An edge whose endpoints are connected anyway adds nothing. -/
lemma cons_iff (he : Joined es e.source e.target) :
    s.Represents n (e :: es) ↔ s.Represents n es :=
  ⟨fun h => h.congr fun _ _ => joined_cons_of_joined he,
    fun h => h.congr fun _ _ => (joined_cons_of_joined he).symm⟩

lemma rootOf_mem_roots (h : s.Represents n es) {v : Vertex} (hv : v < n) :
    s.rootOf v ∈ s.roots :=
  h.wellFormed.rootOf_mem_roots (h.size_eq.symm ▸ hv)

/-- Each class has one root, so there are as many classes as sets. -/
theorem componentCount_eq (h : s.Represents n es) : componentCount n es = s.sets := by
  have hlt : ∀ r ∈ s.roots, r < n := fun r hr => h.size_eq ▸ (mem_roots.1 hr).1
  let classOf : s.roots → Quotient (joinedSetoid n es) := fun r => Quotient.mk _ ⟨r, hlt r r.2⟩
  have hbij : Function.Bijective classOf := by
    refine ⟨fun r r' hrr => Subtype.ext ?_, fun q => ?_⟩
    · have hj : Joined es r.1 r'.1 := Quotient.exact hrr
      rwa [← h.rootOf_eq_iff, rootOf_of_isRoot h.wellFormed (mem_roots.1 r.2).2,
        rootOf_of_isRoot h.wellFormed (mem_roots.1 r'.2).2] at hj
    · induction q using Quotient.inductionOn with
      | h v =>
          refine ⟨⟨s.rootOf v, h.rootOf_mem_roots v.2⟩, Quotient.sound ?_⟩
          exact (h.rootOf_eq_iff _ _).1 (rootOf_rootOf h.wellFormed v)
  rw [componentCount, ← Nat.card_eq_of_bijective classOf hbij, h.wellFormed.sets_eq]
  exact Nat.card_eq_finsetCard s.roots

/-- All vertices are connected where only one set is left. -/
lemma joined_of_sets_eq_one (h : s.Represents n es) (hsets : s.sets = 1) {u v : Vertex} (hu : u < n)
    (hv : v < n) : Joined es u v := by
  have hcard : s.roots.card ≤ 1 := (h.wellFormed.sets_eq ▸ hsets).le
  exact (h.rootOf_eq_iff u v).1 (Finset.card_le_one.1 hcard _ (h.rootOf_mem_roots hu)
    _ (h.rootOf_mem_roots hv))

end Represents

/-- Some forest has the classes of a given list as its sets. -/
lemma exists_represents (h : Within n es) : ∃ s : UnionFind, s.Represents n es := by
  induction es with
  | nil => exact ⟨singletons n, represents_singletons W n⟩
  | cons e es ih =>
      obtain ⟨s, hs⟩ := ih h.of_cons
      exact ⟨_, hs.join (h e List.mem_cons_self)⟩

end UnionFind

namespace EdgeList

/-- An edge that connects what was not connected makes one component of two. -/
lemma componentCount_cons (h : Within n (e :: es)) (he : ¬ Joined es e.source e.target) :
    componentCount n (e :: es) + 1 = componentCount n es := by
  obtain ⟨s, hs⟩ := UnionFind.exists_represents h.of_cons
  obtain ⟨hsrc, htgt⟩ := h e List.mem_cons_self
  have hjoin := UnionFind.join_spec hs.wellFormed (hs.size_eq ▸ hsrc) (hs.size_eq ▸ htgt)
  have htrue : (s.join e.source e.target).1 = true :=
    hjoin.joined_iff.2 fun hr => he ((hs.rootOf_eq_iff _ _).1 hr)
  have hsets := hjoin.sets_eq
  rw [htrue] at hsets
  rw [(hs.join ⟨hsrc, htgt⟩).componentCount_eq, hs.componentCount_eq]
  exact hsets

/-- The edges and the components of a forest are together as many as its vertices. -/
theorem length_add_componentCount (h : Within n es) (ha : Acyclic es) :
    es.length + componentCount n es = n := by
  induction es with
  | nil =>
      rw [(UnionFind.represents_singletons W n).componentCount_eq, List.length_nil, Nat.zero_add]
      rfl
  | cons e es ih =>
      obtain ⟨he, hes⟩ := acyclic_cons_iff.1 ha
      have hrest := ih h.of_cons hes
      have hcons := componentCount_cons h he
      rw [List.length_cons]
      omega

/-- Of two forests the one that connects less has fewer edges. -/
theorem length_le_of_joined (hes : Within n es) (hfs : Within n fs) (ha : Acyclic es)
    (hb : Acyclic fs) (h : ∀ u v, Joined es u v → Joined fs u v) : es.length ≤ fs.length := by
  have hle : componentCount n fs ≤ componentCount n es := componentCount_le h
  have he := length_add_componentCount hes ha
  have hf := length_add_componentCount hfs hb
  omega

/-- Forests that connect the same vertices have equally many edges. -/
theorem length_eq_of_joined (hes : Within n es) (hfs : Within n fs) (ha : Acyclic es)
    (hb : Acyclic fs) (h : ∀ u v, Joined es u v ↔ Joined fs u v) : es.length = fs.length :=
  le_antisymm (length_le_of_joined hes hfs ha hb fun u v => (h u v).1)
    (length_le_of_joined hfs hes hb ha fun u v => (h u v).2)

end EdgeList

end WeightedGraph
