import Mathlib
import WeightedGraph.Graph.Text
import WeightedGraph.Proofs.Weight.Order

/-!
Texts that can be taken apart again.

What is written one after the other can be told apart where each piece is closed by a character that
does not occur in it: a line by its line break, an entry by its parenthesis, a number by whatever is
no digit.

* `append_cons_inj_of_notMem`: a list is cut in one way only at the first place of a value.
* `flatMap_concat_inj`: pieces that are closed by a value can be told apart.
* `lines`: the lines of a text. `lines_unlines_cons` and `unlines_inj`: those of `unlines` are the
  ones it was given.
* `notMem_toDigits`, `toDigits_injective`, `Saturating.notMem_toList_text`,
  `Saturating.text_injective`: what a decimal does not contain, and that it determines its number.
-/

namespace WeightedGraph

/-! ### Pieces -/

section Pieces

variable {α : Type} [DecidableEq α] {c : α} {x y z w : List α} {xs ys : List (List α)}

/-- A list is cut in one way only at the first place of a value. -/
lemma append_cons_inj_of_notMem (hx : c ∉ x) (hy : c ∉ y) (h : x ++ c :: z = y ++ c :: w) :
    x = y ∧ z = w := by
  have hsplit := congrArg (List.splitOn c) h
  rw [List.splitOn_append_cons_self_of_not_mem hx, List.splitOn_append_cons_self_of_not_mem hy]
    at hsplit
  obtain rfl : x = y := (List.cons.inj hsplit).1
  exact ⟨rfl, (List.cons.inj (List.append_cancel_left h)).2⟩

/-- Pieces that are closed by a value which does not occur in them can be told apart. -/
lemma flatMap_concat_inj (hx : ∀ x ∈ xs, c ∉ x) (hy : ∀ y ∈ ys, c ∉ y)
    (h : xs.flatMap (· ++ [c]) = ys.flatMap (· ++ [c])) : xs = ys := by
  induction xs generalizing ys with
  | nil => cases ys <;> simp at h ⊢
  | cons x xs ih =>
      cases ys with
      | nil => simp at h
      | cons y ys =>
          obtain ⟨hcx, hxs⟩ := List.forall_mem_cons.1 hx
          obtain ⟨hcy, hys⟩ := List.forall_mem_cons.1 hy
          simp only [List.flatMap_cons, List.append_assoc, List.singleton_append] at h
          obtain ⟨rfl, hrest⟩ := append_cons_inj_of_notMem hcx hcy h
          rw [ih hxs hys hrest]

end Pieces

/-! ### Lines -/

variable {l : String} {ls ls' : List String}

/-- The lines of a text, that is the pieces between its line breaks; after the last line break there
is an empty one. -/
def lines (s : String) : List (List Char) :=
  s.toList.splitOn '\n'

lemma toList_unlines (ls : List String) :
    (unlines ls).toList = (ls.map String.toList).flatMap (· ++ ['\n']) := by
  rw [unlines, String.toList_join, List.flatMap_map, List.flatMap_map]
  exact congrArg ls.flatMap (funext fun l => String.toList_append)

lemma unlines_append (ls ls' : List String) : unlines (ls ++ ls') = unlines ls ++ unlines ls' := by
  simp [← String.toList_inj, toList_unlines]

lemma lines_unlines_cons (h : '\n' ∉ l.toList) (ls : List String) :
    lines (unlines (l :: ls)) = l.toList :: lines (unlines ls) := by
  rw [lines, toList_unlines, List.map_cons, List.flatMap_cons, List.append_assoc,
    List.singleton_append, List.splitOn_append_cons_self_of_not_mem h, ← toList_unlines, lines]

/-- Lines without line breaks can be told apart. -/
lemma unlines_inj (h : ∀ l ∈ ls, '\n' ∉ l.toList) (h' : ∀ l ∈ ls', '\n' ∉ l.toList)
    (heq : unlines ls = unlines ls') : ls = ls' := by
  have hlists := congrArg String.toList heq
  rw [toList_unlines, toList_unlines] at hlists
  exact List.map_injective_iff.2 (fun _ _ => String.toList_injective)
    (flatMap_concat_inj (by simpa using h) (by simpa using h') hlists)

/-! ### Decimals -/

lemma notMem_toDigits {c : Char} (hc : c.isDigit = false) (n : Nat) : c ∉ Nat.toDigits 10 n :=
  fun hmem => Bool.false_ne_true (hc.symm.trans
    (Nat.isDigit_of_mem_toDigits (by decide) (by decide) hmem))

lemma toDigits_injective : Function.Injective (Nat.toDigits 10) := fun _ _ h =>
  Nat.repr_injective (congrArg String.ofList h)

namespace Saturating

variable {r : IntRange}

/-- The text of an integer consists of digits, after a sign maybe. -/
lemma notMem_toList_text {c : Char} (hc : c.isDigit = false) (hsign : c ≠ '-')
    (a : Saturating r) : c ∉ (Weight.text a).toList := by
  show c ∉ (Int.repr a.val).toList
  cases a.val with
  | ofNat m =>
      rw [Int.repr, Nat.toList_repr]
      exact notMem_toDigits hc m
  | negSucc m =>
      rw [Int.repr, String.toList_append, Nat.toList_repr, List.mem_append, not_or]
      exact ⟨by simpa using hsign, notMem_toDigits hc _⟩

lemma text_injective : Function.Injective (Weight.text (W := Saturating r)) := fun a b h =>
  have hrepr : Int.repr a.val = Int.repr b.val := h
  val_injective (Int.repr_injective hrepr)

end Saturating

end WeightedGraph
