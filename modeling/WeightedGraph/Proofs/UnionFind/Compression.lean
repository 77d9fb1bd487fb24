import Mathlib
import WeightedGraph.Proofs.UnionFind.History

/-!
Compression changes no answer.

* `UnionFind.Mirrors`: two forests with the same elements, ranks and number of sets, and with the same
  root above each element, by whatever paths. `Mirrors.link` is where the shape of the trees could
  matter and does not: which root goes below the other one is decided by their ranks alone.
* `UnionFind.plainCall`, `UnionFind.plainRun`: the calls on a forest that compresses no path. A union
  of two sets links their roots, and nothing else is ever written.
* `UnionFind.exists_call_eq_plainCall`: a call shortens some paths and then does what the plain one
  does. `plainCall_induction` is what this leaves to be shown of a property that compression keeps.
* `Mirrors.run`: so any calls are answered as without compression. `run_singletons_eq_plainRun` adds
  that the calls which unite nothing may as well be left out.
-/

namespace WeightedGraph

namespace UnionFind

variable {s t u : UnionFind} {c : Call} {x y : Nat}

/-! ### Forests with the same roots -/

/-- The two forests have the same elements, ranks and number of sets, and each element has the same
root above it in both. -/
structure Mirrors (s t : UnionFind) : Prop where
  wellFormed_left : s.WellFormed
  wellFormed_right : t.WellFormed
  size_eq : t.size = s.size
  rank_eq : t.rank = s.rank
  sets_eq : t.sets = s.sets
  rootOf_eq : ∀ x, t.rootOf x = s.rootOf x

lemma WellFormed.mirrors (hs : s.WellFormed) : s.Mirrors s :=
  ⟨hs, hs, rfl, rfl, rfl, fun _ => rfl⟩

lemma Shortens.mirrors (hs : s.WellFormed) (h : s.Shortens t) : s.Mirrors t :=
  ⟨hs, h.wellFormed hs, h.size_eq, h.rank_eq, h.sets_eq, h.rootOf_eq hs⟩

namespace Mirrors

lemma symm (h : s.Mirrors t) : t.Mirrors s :=
  ⟨h.wellFormed_right, h.wellFormed_left, h.size_eq.symm, h.rank_eq.symm, h.sets_eq.symm,
    fun x => (h.rootOf_eq x).symm⟩

lemma trans (h : s.Mirrors t) (h' : t.Mirrors u) : s.Mirrors u :=
  ⟨h.wellFormed_left, h'.wellFormed_right, h'.size_eq.trans h.size_eq, h'.rank_eq.trans h.rank_eq,
    h'.sets_eq.trans h.sets_eq, fun x => (h'.rootOf_eq x).trans (h.rootOf_eq x)⟩

lemma rankAt_eq (h : s.Mirrors t) (x : Nat) : t.rankAt x = s.rankAt x := by
  rw [rankAt, rankAt, h.rank_eq]

lemma answer_eq (h : s.Mirrors t) (c : Call) : t.answer c = s.answer c := by
  cases c <;> simp only [answer, h.rootOf_eq, h.rankAt_eq, h.size_eq, h.sets_eq]

lemma mem_roots_iff (h : s.Mirrors t) (x : Nat) : x ∈ t.roots ↔ x ∈ s.roots := by
  rw [mem_roots, mem_roots, h.size_eq, h.wellFormed_right.isRoot_iff_rootOf_eq,
    h.wellFormed_left.isRoot_iff_rootOf_eq, h.rootOf_eq]

/-- The same root goes below the other one in both forests, whose ranks are the same. -/
theorem link (h : s.Mirrors t) (hxy : x ≠ y) (hx : x ∈ s.roots) (hy : y ∈ s.roots) :
    (s.link x y).Mirrors (t.link x y) := by
  have hs := h.wellFormed_left
  have ht := h.wellFormed_right
  have hx' : x ∈ t.roots := (h.mem_roots_iff x).2 hx
  have hy' : y ∈ t.roots := (h.mem_roots_iff y).2 hy
  obtain ⟨hs', hsize, -, hsets⟩ := link_spec hs hxy hx hy
  obtain ⟨ht', hsize', -, hsets'⟩ := link_spec ht hxy hx' hy'
  refine ⟨hs', ht', ?_, ?_, ?_, fun z => ?_⟩
  · rw [hsize, hsize', h.size_eq]
  · rw [rank_link, rank_link, h.rank_eq, h.rankAt_eq, h.rankAt_eq]
  · have hsame := h.sets_eq
    omega
  · rw [rootOf_link ht hxy hx' hy', rootOf_link hs hxy hx hy, h.rankAt_eq, h.rankAt_eq, h.rootOf_eq]

end Mirrors

/-! ### A forest without compression -/

/-- The forest in which the roots above the elements of a union are linked if they differ. No other
call changes it. -/
def linked (s : UnionFind) : Call → UnionFind
  | .union x y => if s.rootOf x = s.rootOf y then s else s.link (s.rootOf x) (s.rootOf y)
  | _ => s

/-- The answer to a call and the forest after it, where paths are followed and left as they are. -/
def plainCall (s : UnionFind) (c : Call) : Except GraphError Answer × UnionFind :=
  match c.elements.find? (s.size ≤ ·) with
  | some x => (.error (.invalidVertex x s.size), s)
  | none => (.ok (s.answer c), s.linked c)

/-- The record of such calls in turn, and the forest after them. -/
def plainRun (s : UnionFind) : List Call → Record × UnionFind
  | [] => ([], s)
  | c :: cs =>
      let (a, t) := s.plainCall c
      let (record, u) := t.plainRun cs
      ((c, a) :: record, u)

lemma plainCall_of_find?_eq_some (h : c.elements.find? (s.size ≤ ·) = some x) :
    s.plainCall c = (.error (.invalidVertex x s.size), s) := by
  rw [plainCall, h]

lemma plainCall_of_lt (hc : ∀ x ∈ c.elements, x < s.size) :
    s.plainCall c = (.ok (s.answer c), s.linked c) := by
  have hnone : c.elements.find? (s.size ≤ ·) = none := by simpa using hc
  rw [plainCall, hnone]

/-- What holds of a forest, and of every link of two of its roots, holds after a call. -/
lemma plainCall_induction {P : UnionFind → Prop} (hs : s.WellFormed) (c : Call) (h : P s)
    (hlink : ∀ x ∈ s.roots, ∀ y ∈ s.roots, x ≠ y → P (s.link x y)) : P (s.plainCall c).2 := by
  rcases find?_elements s c with ⟨x, hx⟩ | hc
  · rwa [plainCall_of_find?_eq_some hx]
  · rw [plainCall_of_lt hc]
    cases c with
    | union x y =>
        have hx := hs.rootOf_mem_roots (hc x (by simp [Call.elements]))
        have hy := hs.rootOf_mem_roots (hc y (by simp [Call.elements]))
        simp only [linked]
        split
        · exact h
        · next hxy => exact hlink _ hx _ hy hxy
    | _ => exact h

/-- A call that unites nothing leaves the forest as it is. -/
lemma plainCall_snd_eq_self (hc : ∀ x y, c ≠ .union x y) (s : UnionFind) :
    (s.plainCall c).2 = s := by
  rw [plainCall]
  split
  · rfl
  · cases c with
    | union x y => exact absurd rfl (hc x y)
    | _ => rfl

/-- A call shortens some paths and then does what it does without compression. -/
theorem exists_call_eq_plainCall (hs : s.WellFormed) (c : Call) :
    ∃ t, s.Shortens t ∧ s.call c = t.plainCall c := by
  rcases find?_elements s c with ⟨x, hx⟩ | hc
  · exact ⟨s, .refl s, by rw [call_of_find?_eq_some hx, plainCall_of_find?_eq_some hx]⟩
  · have hplain : ∀ {t}, s.Shortens t → t.plainCall c = (.ok (s.answer c), t.linked c) := by
      intro t ht
      rw [plainCall_of_lt (ht.size_eq.symm ▸ hc), (ht.mirrors hs).answer_eq]
    cases c with
    | union x y =>
        have hx : x < s.size := hc x (by simp [Call.elements])
        have hy : y < s.size := hc y (by simp [Call.elements])
        obtain ⟨t, ht, hjoin⟩ := exists_join_eq hs hx hy
        refine ⟨t, ht, ?_⟩
        rw [hplain ht, call_union hx hy, hjoin]
        simp only [linked, answer, ht.rootOf_eq hs]
        split
        · next hxy => rw [hxy, bne_self_eq_false]
        · next hxy => rw [bne_iff_ne.2 hxy]
    | _ =>
        obtain ⟨t, hcall, hafter⟩ := exists_call hs hc
        cases hafter with
        | shortened _ ht => exact ⟨t, ht, hcall.trans (hplain ht).symm⟩

/-! ### Calls in turn -/

namespace Mirrors

/-- Without compression both forests give the same answer, and have the same roots afterwards. -/
lemma plainCall (h : s.Mirrors t) (c : Call) :
    (t.plainCall c).1 = (s.plainCall c).1 ∧ (s.plainCall c).2.Mirrors (t.plainCall c).2 := by
  rcases find?_elements s c with ⟨x, hx⟩ | hc
  · rw [plainCall_of_find?_eq_some hx, plainCall_of_find?_eq_some (h.size_eq.symm ▸ hx), h.size_eq]
    exact ⟨rfl, h⟩
  · rw [plainCall_of_lt hc, plainCall_of_lt (h.size_eq.symm ▸ hc), h.answer_eq]
    refine ⟨rfl, ?_⟩
    cases c with
    | union x y =>
        have hx := h.wellFormed_left.rootOf_mem_roots (hc x (by simp [Call.elements]))
        have hy := h.wellFormed_left.rootOf_mem_roots (hc y (by simp [Call.elements]))
        simp only [linked, h.rootOf_eq]
        split
        · exact h
        · next hxy => exact h.link hxy hx hy
    | _ => exact h

/-- A call is answered as without compression. -/
theorem call (h : s.Mirrors t) (c : Call) :
    (t.call c).1 = (s.plainCall c).1 ∧ (s.plainCall c).2.Mirrors (t.call c).2 := by
  obtain ⟨u, hu, hcall⟩ := exists_call_eq_plainCall h.wellFormed_right c
  rw [hcall]
  exact (h.trans (hu.mirrors h.wellFormed_right)).plainCall c

/-- So are any calls in turn. -/
theorem run (h : s.Mirrors t) (cs : List Call) :
    (t.run cs).1 = (s.plainRun cs).1 ∧ (s.plainRun cs).2.Mirrors (t.run cs).2 := by
  induction cs generalizing s t with
  | nil => exact ⟨rfl, h⟩
  | cons c cs ih =>
      obtain ⟨hanswer, hcall⟩ := h.call c
      obtain ⟨hrecord, hrun⟩ := ih hcall
      simp only [UnionFind.run, plainRun]
      exact ⟨by rw [hanswer, hrecord], hrun⟩

end Mirrors

/-! ### Calls left out -/

/-- The elements of a list at those places of which `p` holds. -/
def keepAt {α : Type} : (Nat → Bool) → List α → List α
  | _, [] => []
  | p, a :: as =>
      let rest := keepAt (fun i => p (i + 1)) as
      if p 0 then a :: rest else rest

/-- Without compression a call that unites nothing leaves no trace but its answer. -/
lemma plainRun_keepAt (s : UnionFind) (cs : List Call) {p : Nat → Bool}
    (hp : ∀ i x y, cs[i]? = some (.union x y) → p i = true) :
    s.plainRun (keepAt p cs) = (keepAt p (s.plainRun cs).1, (s.plainRun cs).2) := by
  induction cs generalizing s p with
  | nil => rfl
  | cons c cs ih =>
      have hrest := ih (s.plainCall c).2 (p := fun i => p (i + 1)) fun i x y hi => hp (i + 1) x y hi
      cases h0 : p 0 with
      | true => simp only [keepAt, h0, if_true, plainRun, hrest]
      | false =>
          have hc : ∀ x y, c ≠ .union x y := by
            rintro x y rfl
            exact Bool.false_ne_true (h0.symm.trans (hp 0 x y rfl))
          rw [plainCall_snd_eq_self hc] at hrest
          simp only [keepAt, h0, if_neg Bool.false_ne_true, plainRun, plainCall_snd_eq_self hc, hrest]

/-- Any calls on single elements are answered as by a forest that makes the same links and compresses
no path, and both come to the same ranks, the same number of sets and the same roots. So does a run
in which any calls that unite nothing are left out, and the calls that remain have their answers. -/
theorem run_singletons_eq_plainRun (n : Nat) (cs : List Call) :
    ((singletons n).run cs).1 = ((singletons n).plainRun cs).1 ∧
      ((singletons n).plainRun cs).2.Mirrors ((singletons n).run cs).2 ∧
      ∀ p : Nat → Bool, (∀ i x y, cs[i]? = some (.union x y) → p i = true) →
        ((singletons n).run (keepAt p cs)).1 = keepAt p ((singletons n).run cs).1 ∧
          ((singletons n).run cs).2.Mirrors ((singletons n).run (keepAt p cs)).2 := by
  have hstart := (wellFormed_singletons n).mirrors
  obtain ⟨hrecord, hmirror⟩ := hstart.run cs
  refine ⟨hrecord, hmirror, fun p hp => ?_⟩
  obtain ⟨hrecord', hmirror'⟩ := hstart.run (keepAt p cs)
  rw [plainRun_keepAt (singletons n) cs hp] at hrecord' hmirror'
  exact ⟨by rw [hrecord', hrecord], hmirror.symm.trans hmirror'⟩

/-- Two pairs are united and then their sets. The finding that is left out points `3` at the root `0`,
which lies two steps above it otherwise. -/
theorem run_singletons_eq_plainRun_pairs :
    let cs : List Call := [.union 0 1, .union 2 3, .union 1 3, .find 3, .same 0 2, .union 4 4,
      .findRecursive 3, .rankOf 2, .sets]
    let p : Nat → Bool := fun i => decide (i ≠ 3 ∧ i ≠ 4 ∧ i ≠ 6)
    (∀ i x y, cs[i]? = some (.union x y) → p i = true) ∧
      ((singletons 4).run cs).2.parent = #[0, 0, 0, 0] ∧
      ((singletons 4).run (keepAt p cs)).2.parent = #[0, 0, 0, 2] ∧
      ((singletons 4).run cs).1 = ((singletons 4).plainRun cs).1 ∧
      ((singletons 4).run (keepAt p cs)).1 = keepAt p ((singletons 4).run cs).1 ∧
      ((singletons 4).run cs).2.Mirrors ((singletons 4).run (keepAt p cs)).2 := by
  intro cs p
  have hp : ∀ i x y, cs[i]? = some (.union x y) → p i = true := by
    intro i x y hi
    by_contra hpi
    rw [decide_eq_true_iff] at hpi
    have hplace : i = 3 ∨ i = 4 ∨ i = 6 := by omega
    rcases hplace with rfl | rfl | rfl <;> simp [cs] at hi
  obtain ⟨hrecord, -, hkeep⟩ := run_singletons_eq_plainRun 4 cs
  exact ⟨hp, by decide, by decide, hrecord, hkeep p hp⟩

end UnionFind

end WeightedGraph
