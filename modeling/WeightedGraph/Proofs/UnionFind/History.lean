import Mathlib
import WeightedGraph.Proofs.EdgeList.Components

/-!
Partitions after any sequence of calls.

* `UnionFind.Call`, `UnionFind.Answer`, `UnionFind.call`: the operations as values, what they
  answer, and the forest that they leave, refused or not. `UnionFind.run_inPlace_of_find?_eq_some`:
  a refused call leaves the forest as it was.
* `UnionFind.run`: calls one after another, each on the forest that the one before has left,
  recorded with their answers.
* `UnionFind.answer`: the answers read off the roots, ranks and sizes; `UnionFind.After` is what a
  call does to the forest. `UnionFind.exists_call` says both of a call that is not refused.
* `UnionFind.Represents.run`: after any calls the sets are those of the edges that the unions drew.
* `UnionFind.Generated`: what a forest answers whose sets are generated by pairs of elements. After
  any calls it answers so for the pairs that were united.
-/

namespace WeightedGraph

open EdgeList

namespace UnionFind

variable {s t : UnionFind} {n x y : Nat}

/-! ### Calls -/

/-- A call of an operation. -/
inductive Call where
  /-- Unite the sets of two elements. -/
  | union (x y : Nat)
  /-- Ask whether two elements are in the same set. -/
  | same (x y : Nat)
  /-- Find the root above an element. -/
  | find (x : Nat)
  /-- Find the root above an element by recursion. -/
  | findRecursive (x : Nat)
  /-- Read the rank of an element. -/
  | rankOf (x : Nat)
  /-- Read the number of elements. -/
  | size
  /-- Read the number of sets. -/
  | sets

/-- What is answered to a call. -/
inductive Answer where
  /-- An element, a rank or a size. -/
  | number (k : Nat)
  /-- Whether something holds. -/
  | truth (b : Bool)

/-- Calls with their answers. -/
abbrev Record :=
  List (Call × Except GraphError Answer)

/-- The numbers that a call names as elements, in the order in which they are checked. -/
def Call.elements : Call → List Nat
  | union x y | same x y => [x, y]
  | find x | findRecursive x | rankOf x => [x]
  | size | sets => []

/-- What a call does to the forest. -/
def Call.inPlace : Call → InPlace UnionFind Answer
  | union x y => .truth <$> unionInPlace x y
  | same x y => .truth <$> sameInPlace x y
  | find x => .number <$> findInPlace x
  | findRecursive x => .number <$> findRecursiveInPlace x
  | rankOf x => .number <$> InPlace.ask (·.rankOf x)
  | size => .number <$> InPlace.ask fun s => .ok s.size
  | sets => .number <$> InPlace.ask fun s => .ok s.sets

/-- The answer to a call, or why it is refused, and the forest that the call leaves. -/
def call (s : UnionFind) (c : Call) : Except GraphError Answer × UnionFind :=
  InPlace.outcome (c.inPlace.run s)

/-- The record of calls in turn, and the forest after them. -/
def run (s : UnionFind) : List Call → Record × UnionFind
  | [] => ([], s)
  | c :: cs =>
      let (a, t) := s.call c
      let (record, u) := t.run cs
      ((c, a) :: record, u)

/-! ### One call -/

lemma requireElement_of_lt (hx : x < s.size) : s.requireElement x = .ok () :=
  if_pos hx

lemma requireElement_of_le (hx : s.size ≤ x) :
    s.requireElement x = .error (.invalidVertex x s.size) :=
  if_neg (Nat.not_lt.2 hx)

lemma Call.atomic_inPlace (c : Call) : c.inPlace.Atomic := by
  cases c with
  | union x y => exact (atomic_unionInPlace x y).map _
  | same x y => exact (atomic_sameInPlace x y).map _
  | find x => exact (atomic_findInPlace x).map _
  | findRecursive x => exact (atomic_findRecursiveInPlace x).map _
  | rankOf x => exact (InPlace.Reads.ask _).atomic.map _
  | size | sets => exact (InPlace.Reads.ask _).atomic.map _

/-- A call is refused for the first number that is no element, and leaves the forest as it was. -/
theorem run_inPlace_of_find?_eq_some {c : Call} (h : c.elements.find? (s.size ≤ ·) = some x) :
    c.inPlace.run s = .error (.invalidVertex x s.size) s := by
  have hone : ∀ {y}, [y].find? (s.size ≤ ·) = some x → y = x ∧ s.size ≤ y := by
    intro y hy
    simpa [and_comm] using hy
  have htwo : ∀ {y z}, [y, z].find? (s.size ≤ ·) = some x →
      (y = x ∧ s.size ≤ y) ∨ (y < s.size ∧ z = x ∧ s.size ≤ z) := by
    intro y z hyz
    by_cases hy : s.size ≤ y
    · exact Or.inl ⟨by simpa [hy] using hyz, hy⟩
    · exact Or.inr ⟨Nat.not_le.1 hy, hone (by simpa [hy] using hyz)⟩
  refine c.atomic_inPlace.run_eq_error ?_
  cases c with
  | union y z | same y z =>
      rcases htwo h with ⟨rfl, hy⟩ | ⟨hy, rfl, hz⟩
      · simp only [Call.inPlace, InPlace.forget_map, unionInPlace, sameInPlace,
          InPlace.forget_ask_bind, requireElement_of_le hy]
        rfl
      · simp only [Call.inPlace, InPlace.forget_map, unionInPlace, sameInPlace,
          InPlace.forget_ask_bind, requireElement_of_lt hy, requireElement_of_le hz]
        rfl
  | find y | findRecursive y | rankOf y =>
      obtain ⟨rfl, hy⟩ := hone h
      simp only [Call.inPlace, InPlace.forget_map, findInPlace, findRecursiveInPlace,
        InPlace.forget_ask_bind, InPlace.run_ask, InPlace.forget_lift, rankOf,
        requireElement_of_le hy]
      rfl
  | size | sets => cases h

lemma call_of_find?_eq_some {c : Call} (h : c.elements.find? (s.size ≤ ·) = some x) :
    s.call c = (.error (.invalidVertex x s.size), s) := by
  rw [call, run_inPlace_of_find?_eq_some h]
  rfl

/-- The answers to the calls, read off the forest. -/
def answer (s : UnionFind) : Call → Answer
  | .union x y => .truth (s.rootOf x != s.rootOf y)
  | .same x y => .truth (s.rootOf x == s.rootOf y)
  | .find x | .findRecursive x => .number (s.rootOf x)
  | .rankOf x => .number (s.rankAt x)
  | .size => .number s.size
  | .sets => .number s.sets

/-- What a call does to the forest: a union of two sets joins them, and any other call shortens the
paths that it walks. -/
inductive After (s : UnionFind) : Call → UnionFind → Prop
  | joined {x y : Nat} {t : UnionFind} : s.rootOf x ≠ s.rootOf y → s.JoinSpec x y true t →
      After s (.union x y) t
  | shortened {c : Call} {t : UnionFind} : (∀ x y, c = .union x y → s.rootOf x = s.rootOf y) →
      s.Shortens t → After s c t

lemma call_union (hx : x < s.size) (hy : y < s.size) :
    s.call (.union x y) = (.ok (.truth (s.join x y).1), (s.join x y).2) := by
  rw [call, Call.inPlace, InPlace.run_map_eq_ok (union_eq_join hx hy)]
  rfl

/-- A call that names elements only is answered. -/
theorem exists_call (hs : s.WellFormed) {c : Call} (hc : ∀ x ∈ c.elements, x < s.size) :
    ∃ t, s.call c = (.ok (s.answer c), t) ∧ s.After c t := by
  have hreads : (∀ x y, c ≠ .union x y) → ∀ {t}, c.inPlace.run s = .ok (s.answer c) t →
      s.Shortens t → ∃ t, s.call c = (.ok (s.answer c), t) ∧ s.After c t := by
    intro hne t h ht
    exact ⟨t, by rw [call, h]; rfl, .shortened (fun x y hxy => absurd hxy (hne x y)) ht⟩
  cases c with
  | union x y =>
      have hx : x < s.size := hc x (by simp [Call.elements])
      have hy : y < s.size := hc y (by simp [Call.elements])
      have hspec := join_spec hs hx hy
      refine ⟨(s.join x y).2, ?_, ?_⟩
      · have hb : (s.join x y).1 = (s.rootOf x != s.rootOf y) := by
          rw [Bool.eq_iff_iff, hspec.joined_iff, bne_iff_ne]
        rw [answer, ← hb, call_union hx hy]
      · by_cases hxy : s.rootOf x = s.rootOf y
        · refine .shortened (fun x' y' he => ?_) (shortens_join hs hx hy hxy)
          cases he
          exact hxy
        · rw [hspec.joined_iff.2 hxy] at hspec
          exact .joined hxy hspec
  | same x y =>
      have hx : x < s.size := hc x (by simp [Call.elements])
      have hy : y < s.size := hc y (by simp [Call.elements])
      obtain ⟨t, hsame, ht⟩ := exists_same hs hx hy
      exact hreads (by simp) (InPlace.run_map_eq_ok hsame) ht
  | find x =>
      have hx : x < s.size := hc x (by simp [Call.elements])
      have hfind : s.find x = .ok (s.root x) := by
        rw [find_eq, requireElement_of_lt hx]
        rfl
      exact hreads (by simp) (InPlace.run_map_eq_ok hfind) (shortens_root hs hx)
  | findRecursive x =>
      have hx : x < s.size := hc x (by simp [Call.elements])
      obtain ⟨parent, hclimb, hshort⟩ := exists_climb hs x
      have hfind : s.findRecursive x = .ok (s.rootOf x, { s with parent := parent }) := by
        rw [findRecursive_eq, requireElement_of_lt hx, hclimb]
        rfl
      exact hreads (by simp) (InPlace.run_map_eq_ok hfind) hshort
  | rankOf x =>
      have hx : x < s.size := hc x (by simp [Call.elements])
      have hrank : InPlace.forget ((InPlace.ask fun s : UnionFind => s.rankOf x).run s) =
          .ok (s.rankAt x, s) := by
        rw [InPlace.run_ask, InPlace.forget_lift, rankOf, requireElement_of_lt hx]
        rfl
      exact hreads (by simp) (InPlace.run_map_eq_ok hrank) (.refl s)
  | size => exact hreads (by simp) rfl (.refl s)
  | sets => exact hreads (by simp) rfl (.refl s)

lemma call_fst (hs : s.WellFormed) {c : Call} (hc : ∀ x ∈ c.elements, x < s.size) :
    (s.call c).1 = .ok (s.answer c) := by
  obtain ⟨t, hcall, -⟩ := exists_call hs hc
  rw [hcall]

/-- Either a call is refused, or all that it names are elements. -/
lemma find?_elements (s : UnionFind) (c : Call) :
    (∃ x, c.elements.find? (s.size ≤ ·) = some x) ∨ ∀ x ∈ c.elements, x < s.size := by
  cases h : c.elements.find? (s.size ≤ ·) with
  | some x => exact Or.inl ⟨x, rfl⟩
  | none => exact Or.inr (by simpa using h)

/-! ### Calls in turn -/

/-- The edge that a union draws between its elements, unless it was refused. -/
def drawn : Call × Except GraphError Answer → Option (Edge Unit)
  | (.union x y, .ok _) => some ⟨x, y, ()⟩
  | _ => none

namespace Represents

variable {es : List (Edge Unit)}

/-- After a call the sets are those of one edge more if it was a union, and the same ones otherwise.
-/
theorem call (h : s.Represents n es) (c : Call) :
    (s.call c).2.Represents n ((drawn (c, (s.call c).1)).toList ++ es) := by
  rcases find?_elements s c with ⟨x, hx⟩ | hc
  · rw [call_of_find?_eq_some hx]
    cases c <;> exact h
  · obtain ⟨t, hcall, hafter⟩ := exists_call h.wellFormed hc
    rw [hcall]
    cases hafter with
    | joined _ hjoin => exact h.of_joinSpec hjoin
    | shortened hsame hshort =>
        cases c with
        | union x y =>
            refine (cons_iff ?_).2 (h.shortens hshort)
            exact (h.rootOf_eq_iff x y).1 (hsame x y rfl)
        | _ => exact h.shortens hshort

/-- After any calls the sets are those of the edges that were drawn. -/
theorem run (h : s.Represents n es) (cs : List Call) :
    (s.run cs).2.Represents n ((s.run cs).1.filterMap drawn ++ es) := by
  induction cs generalizing s es with
  | nil => exact h
  | cons c cs ih =>
      refine (ih (h.call c)).congr (joined_perm ?_)
      simp only [UnionFind.run, List.filterMap_cons]
      cases drawn (c, (s.call c).1) with
      | none => exact .refl _
      | some e => exact List.perm_middle

end Represents

/-! ### The partition that is generated -/

/-- The union of two numbers was called and not refused. -/
def United (record : Record) (x y : Nat) : Prop :=
  ∃ a, (Call.union x y, .ok a) ∈ record

lemma united_iff {record : Record} :
    United record x y ↔ ∃ e ∈ record.filterMap drawn, e.source = x ∧ e.target = y := by
  simp only [List.mem_filterMap]
  constructor
  · rintro ⟨a, ha⟩
    exact ⟨⟨x, y, ()⟩, ⟨_, ha, rfl⟩, rfl, rfl⟩
  · rintro ⟨e, ⟨⟨c, a⟩, hca, he⟩, rfl, rfl⟩
    cases c with
    | union x y =>
        cases a with
        | ok a =>
            cases he
            exact ⟨a, hca⟩
        | error _ => cases he
    | _ => cases he

/-- The numbers below `n` in the classes of the least equivalence that relates the given pairs. -/
def classes (n : Nat) (p : Nat → Nat → Prop) : Setoid (Fin n) :=
  (Relation.EqvGen.setoid p).comap Fin.val

/-- The forest answers as the partition of the numbers below `n` that the given pairs generate. -/
structure Generated (s : UnionFind) (n : Nat) (p : Nat → Nat → Prop) : Prop where
  /-- The first number that is no element is refused, and the call leaves the whole forest as it
  was. -/
  refused : ∀ (c : Call) x, c.elements.find? (n ≤ ·) = some x →
    c.inPlace.run s = .error (.invalidVertex x n) s
  /-- Two elements are in the same set if they are in the same class. -/
  same : ∀ x < n, ∀ y < n, ∃ b, (s.call (.same x y)).1 = .ok (.truth b) ∧
    (b = true ↔ Relation.EqvGen p x y)
  /-- The root above an element is an element of its class, however it is found. -/
  find : ∀ x < n, ∃ r < n, (s.call (.find x)).1 = .ok (.number r) ∧
    (s.call (.findRecursive x)).1 = .ok (.number r) ∧ Relation.EqvGen p x r
  /-- Two elements have the same root if they are in the same set. -/
  find_eq_iff : ∀ x < n, ∀ y < n, (s.call (.find x)).1 = (s.call (.find y)).1 ↔
    (s.call (.same x y)).1 = .ok (.truth true)
  /-- A union merges two sets if its elements are in different classes. -/
  union : ∀ x < n, ∀ y < n, ∃ b, (s.call (.union x y)).1 = .ok (.truth b) ∧
    (b = true ↔ ¬ Relation.EqvGen p x y)
  /-- A call that merges no sets changes no rank, no root and not the number of sets. -/
  unchanged : ∀ c, (∀ x y, c = .union x y → (s.call c).1 ≠ .ok (.truth true)) →
    (s.call c).2.rank = s.rank ∧ (s.call c).2.sets = s.sets ∧
      ∀ z, ((s.call c).2.call (.find z)).1 = (s.call (.find z)).1
  /-- The sets are as many as the classes. -/
  sets_eq : s.sets = Nat.card (Quotient (classes n p))
  /-- A union that merges two sets counts one less, which is not cut off at zero. -/
  sets_union : ∀ x y, (s.call (.union x y)).1 = .ok (.truth true) →
    (s.call (.union x y)).2.sets + 1 = s.sets

/-- What is found above a number, be it an element or not. -/
lemma call_find (hs : s.WellFormed) (z : Nat) : (s.call (.find z)).1 =
    if z < s.size then .ok (.number (s.rootOf z)) else .error (.invalidVertex z s.size) := by
  split
  · next hz => exact call_fst hs (by simpa [Call.elements] using hz)
  · next hz =>
      have hout : (Call.find z).elements.find? (s.size ≤ ·) = some z := by
        simpa [Call.elements] using hz
      rw [call_of_find?_eq_some hout]

/-- Only a union of two sets changes a rank, a root or the number of sets. -/
lemma unchanged_call (hs : s.WellFormed) (c : Call)
    (hc : ∀ x y, c = .union x y → (s.call c).1 ≠ .ok (.truth true)) :
    (s.call c).2.rank = s.rank ∧ (s.call c).2.sets = s.sets ∧
      ∀ z, ((s.call c).2.call (.find z)).1 = (s.call (.find z)).1 := by
  rcases find?_elements s c with ⟨x, hx⟩ | hel
  · rw [call_of_find?_eq_some hx]
    exact ⟨rfl, rfl, fun _ => rfl⟩
  · obtain ⟨t, hcall, hafter⟩ := exists_call hs hel
    rw [hcall] at hc ⊢
    cases hafter with
    | @joined x y _ hxy _ => exact absurd (by simp [answer, hxy]) (hc x y rfl)
    | shortened _ hshort =>
        refine ⟨hshort.rank_eq, hshort.sets_eq, fun z => ?_⟩
        rw [call_find (hshort.wellFormed hs), call_find hs, hshort.size_eq,
          hshort.rootOf_eq hs]

/-- A union of two sets makes one of them. -/
lemma sets_call_union (hs : s.WellFormed) (h : (s.call (.union x y)).1 = .ok (.truth true)) :
    (s.call (.union x y)).2.sets + 1 = s.sets := by
  rcases find?_elements s (.union x y) with ⟨z, hz⟩ | hel
  · rw [call_of_find?_eq_some hz] at h
    cases h
  · obtain ⟨t, hcall, hafter⟩ := exists_call hs hel
    rw [hcall] at h ⊢
    cases hafter with
    | joined _ hjoin => exact hjoin.sets_eq
    | shortened hsame _ => simp [answer, hsame x y rfl] at h

/-- A forest whose sets are those of some edges answers as their classes. -/
theorem Represents.generated {es : List (Edge Unit)} {p : Nat → Nat → Prop}
    (h : s.Represents n es) (hp : ∀ x y, Joined es x y ↔ Relation.EqvGen p x y) :
    s.Generated n p := by
  have hs := h.wellFormed
  obtain rfl := h.size_eq
  have hroot : ∀ x y, s.rootOf x = s.rootOf y ↔ Relation.EqvGen p x y := fun x y =>
    (h.rootOf_eq_iff x y).trans (hp x y)
  have hone : ∀ x < s.size, ∀ c : Call, c.elements = [x] → (s.call c).1 = .ok (s.answer c) :=
    fun x hx c hc => call_fst hs (by simpa [hc] using hx)
  have htwo : ∀ x < s.size, ∀ y < s.size, ∀ c : Call, c.elements = [x, y] →
      (s.call c).1 = .ok (s.answer c) :=
    fun x hx y hy c hc => call_fst hs (by simpa [hc] using ⟨hx, hy⟩)
  refine
    { refused := fun c x hx => run_inPlace_of_find?_eq_some hx
      same := fun x hx y hy => ⟨_, htwo x hx y hy _ rfl, ?_⟩
      find := fun x hx => ⟨_, hs.rootOf_lt hx, hone x hx _ rfl, hone x hx _ rfl, ?_⟩
      find_eq_iff := fun x hx y hy => ?_
      union := fun x hx y hy => ⟨_, htwo x hx y hy _ rfl, ?_⟩
      unchanged := unchanged_call hs
      sets_eq := ?_
      sets_union := fun x y => sets_call_union hs }
  · rw [beq_iff_eq, hroot]
  · rw [← hroot, rootOf_rootOf hs]
  · rw [hone x hx _ rfl, hone y hy _ rfl, htwo x hx y hy _ rfl]
    simp [answer]
  · rw [bne_iff_ne, Ne, hroot]
  · have hclasses : joinedSetoid s.size es = classes s.size p := Setoid.ext fun x y => hp x y
    rw [← h.componentCount_eq, componentCount, hclasses]

/-- After any calls a forest that began with single elements answers as the partition that the pairs
generate whose union was called and not refused. -/
theorem generated_run_singletons (n : Nat) (cs : List Call) :
    ((singletons n).run cs).2.Generated n (United ((singletons n).run cs).1) := by
  have h := (represents_singletons Unit n).run cs
  rw [List.append_nil] at h
  refine h.generated fun x y => ?_
  have hunited : United ((singletons n).run cs).1 = fun x y =>
      ∃ e ∈ ((singletons n).run cs).1.filterMap drawn, e.source = x ∧ e.target = y :=
    funext fun x => funext fun y => propext united_iff
  rw [hunited]
  rfl

end UnionFind

end WeightedGraph
