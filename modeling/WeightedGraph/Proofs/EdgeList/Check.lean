import Mathlib
import WeightedGraph.Proofs.EdgeList.Components

/-!
Which edges pass the check, and for what a list of edges is refused.

* `Edge.Fits`: both endpoints are vertices and the weight is valid.
* `checkEdges_eq_ok_iff`: a list passes if there is a vertex and every edge fits.
* `Edge.Misfits`, `Refused`: what is wrong with an edge that does not fit, and the cause for which a
  list is refused, the first of its edges that does not fit being the one that counts.
* `checkEdges_eq_error_iff`: the check names this cause.
-/

namespace WeightedGraph

open EdgeList

variable {W : Type} [Weight W] {n : Nat} {e : Edge W} {es : List (Edge W)} {cause : GraphError}

/-- The endpoints of the edge are below a number of vertices and its weight is valid. -/
def Edge.Fits (n : Nat) (e : Edge W) : Prop :=
  e.source < n ∧ e.target < n ∧ Weight.isValid e.weight = true

instance (n : Nat) : DecidablePred (Edge.Fits (W := W) n) :=
  fun e => inferInstanceAs (Decidable (e.source < n ∧ e.target < n ∧ Weight.isValid e.weight = true))

lemma checkEdge_eq_ok_iff : checkEdge n e = .ok () ↔ e.Fits n := by
  rw [checkEdge, Edge.Fits]
  split
  · next hs => simp [Nat.not_lt.2 hs]
  · next hs =>
      split
      · next ht => simp [Nat.not_lt.2 ht]
      · next ht =>
          split
          · next hw => simp [Nat.not_le.1 hs, Nat.not_le.1 ht, hw]
          · next hw => simp [hw]

lemma forM_checkEdge_eq_ok_iff : es.forM (checkEdge n) = .ok () ↔ ∀ e ∈ es, e.Fits n := by
  induction es with
  | nil => simp [List.forM_eq_forM, pure, Except.pure]
  | cons e es ih =>
      have hcons : (e :: es).forM (checkEdge n) =
          (checkEdge n e >>= fun _ => es.forM (checkEdge n)) := rfl
      rw [hcons, List.forall_mem_cons, ← checkEdge_eq_ok_iff, ← ih]
      cases checkEdge n e with
      | error _ => simp [bind, Except.bind]
      | ok _ => simp [bind, Except.bind]

/-- A list passes the check if there is a vertex and all its edges fit. -/
theorem checkEdges_eq_ok_iff : checkEdges n es = .ok () ↔ 1 ≤ n ∧ ∀ e ∈ es, e.Fits n := by
  rw [checkEdges]
  split
  · next hn => simp [hn]
  · next hn => rw [forM_checkEdge_eq_ok_iff, and_iff_right (Nat.one_le_iff_ne_zero.2 hn)]

lemma checkEdges_eq_ok (h : checkEdges n es = .ok ()) : 1 ≤ n ∧ Within n es := by
  obtain ⟨hn, hes⟩ := checkEdges_eq_ok_iff.1 h
  exact ⟨hn, fun e he => ⟨(hes e he).1, (hes e he).2.1⟩⟩

/-! ### Refusals -/

/-- What is wrong with an edge: its source before its target, and its weight if both are vertices. -/
inductive Edge.Misfits (n : Nat) (e : Edge W) : GraphError → Prop
  | source : n ≤ e.source → Edge.Misfits n e (.invalidVertex e.source n)
  | target : e.source < n → n ≤ e.target → Edge.Misfits n e (.invalidVertex e.target n)
  | weight : e.source < n → e.target < n → Weight.isValid e.weight = false →
      Edge.Misfits n e (.invalidWeight e.source e.target)

/-- The cause for which a list of edges is refused: there is no vertex, or this is wrong with the first
edge that does not fit. -/
inductive Refused (n : Nat) (es : List (Edge W)) : GraphError → Prop
  | noVertex : n = 0 → Refused n es .emptyGraph
  | edge {before after : List (Edge W)} {e : Edge W} {cause : GraphError} : n ≠ 0 →
      es = before ++ e :: after → (∀ f ∈ before, f.Fits n) → e.Misfits n cause →
      Refused n es cause

lemma checkEdge_eq_error_iff : checkEdge n e = .error cause ↔ e.Misfits n cause := by
  constructor
  · intro h
    rw [checkEdge] at h
    split at h
    · next hs =>
        cases h
        exact .source hs
    · next hs =>
        split at h
        · next ht =>
            cases h
            exact .target (Nat.not_le.1 hs) ht
        · next ht =>
            split at h
            · cases h
            · next hw =>
                cases h
                exact .weight (Nat.not_le.1 hs) (Nat.not_le.1 ht) (Bool.not_eq_true _ ▸ hw)
  · intro h
    rw [checkEdge]
    cases h with
    | source hs => rw [if_pos hs]
    | target hs ht => rw [if_neg (Nat.not_le.2 hs), if_pos ht]
    | weight hs ht hw =>
        rw [if_neg (Nat.not_le.2 hs), if_neg (Nat.not_le.2 ht), hw, if_neg Bool.false_ne_true]

/-- A check of the elements of a list in turn fails at the first element that does not pass. -/
lemma forM_eq_error_iff {α ε : Type} {f : α → Except ε Unit} {as : List α} {cause : ε} :
    as.forM f = .error cause ↔ ∃ before a after, as = before ++ a :: after ∧
      (∀ b ∈ before, f b = .ok ()) ∧ f a = .error cause := by
  induction as with
  | nil => simp [List.forM_eq_forM, pure, Except.pure]
  | cons a as ih =>
      have hcons : (a :: as).forM f = (f a >>= fun _ => as.forM f) := rfl
      rw [hcons]
      cases ha : f a with
      | error cause' =>
          show Except.error cause' = .error cause ↔ _
          constructor
          · rintro ⟨⟩
            exact ⟨[], a, as, rfl, List.forall_mem_nil _, ha⟩
          · rintro ⟨before, b, after, hsplit, hbefore, hb⟩
            cases before with
            | nil =>
                cases hsplit
                exact ha.symm.trans hb
            | cons c before =>
                cases hsplit
                cases ha.symm.trans (hbefore a List.mem_cons_self)
      | ok _ =>
          refine Iff.trans ih ⟨?_, ?_⟩
          · rintro ⟨before, b, after, rfl, hbefore, hb⟩
            exact ⟨a :: before, b, after, rfl, List.forall_mem_cons.2 ⟨ha, hbefore⟩, hb⟩
          · rintro ⟨before, b, after, hsplit, hbefore, hb⟩
            cases before with
            | nil =>
                cases hsplit
                cases ha.symm.trans hb
            | cons c before =>
                cases hsplit
                exact ⟨before, b, after, rfl, (List.forall_mem_cons.1 hbefore).2, hb⟩

lemma forM_checkEdge_eq_error_iff : es.forM (checkEdge n) = .error cause ↔
    ∃ before e after, es = before ++ e :: after ∧ (∀ f ∈ before, f.Fits n) ∧
      e.Misfits n cause := by
  simp only [forM_eq_error_iff, checkEdge_eq_ok_iff, checkEdge_eq_error_iff]

/-- The check names the cause for which a list is refused. -/
theorem checkEdges_eq_error_iff : checkEdges n es = .error cause ↔ Refused n es cause := by
  rw [checkEdges]
  split
  · next hn =>
      constructor
      · rintro ⟨⟩
        exact .noVertex hn
      · rintro (_ | ⟨hne, -, -, -⟩)
        · rfl
        · exact absurd hn hne
  · next hn =>
      rw [forM_checkEdge_eq_error_iff]
      constructor
      · rintro ⟨before, e, after, hsplit, hbefore, he⟩
        exact .edge hn hsplit hbefore he
      · rintro (hz | ⟨-, hsplit, hbefore, he⟩)
        · exact absurd hz hn
        · exact ⟨_, _, _, hsplit, hbefore, he⟩

/-- A list that is refused for no cause passes. -/
lemma checkEdges_eq_ok_iff_not_refused :
    checkEdges n es = .ok () ↔ ∀ cause, ¬ Refused n es cause := by
  simp only [← checkEdges_eq_error_iff]
  cases checkEdges n es with
  | error cause => simp
  | ok _ => simp

end WeightedGraph
