import Mathlib
import WeightedGraph.Proofs.Graph.Reinsertion
import WeightedGraph.Proofs.Text.Quoted

/-!
A graph can be told from its renderings.

Both renderings write one number after the other on lines of any length. What makes them readable is
that no digit is a blank, a comma or a parenthesis, that no line contains a line break, and that an
empty line stands between the vertices and the edges of a drawing.

* `Graph.row_eq_of_rowText_eq`: the line of a vertex determines its entries.
  `Graph.adjacency_eq_of_text_eq`: the lines of all vertices determine the lists.
* `Dot.edgeLine_injective`: the line of an edge determines the edge.
  `Graph.adjacency_eq_of_toDot_eq`: a drawing determines the lists, whatever its title is.
* `Graph.text_and_toDot_inj`: filled graphs with integer weights are the same if their texts are, or
  their drawings with one title.
-/

namespace WeightedGraph

variable {r : IntRange}

/-! ### Texts -/

namespace Graph

variable {g h : Graph (Saturating r)} {v : Vertex}

/-- What stands before the closing parenthesis of an entry. -/
def entryBody (e : Entry (Saturating r)) : List Char :=
  " (".toList ++ (Nat.toDigits 10 e.target ++ ',' :: ' ' :: (Weight.text e.weight).toList)

lemma toList_entryText (e : Entry (Saturating r)) :
    (entryText e).toList = entryBody e ++ [')'] := by
  simp [entryText, entryBody]

lemma notMem_entryBody {c : Char} (hc : c.isDigit = false) (hsign : c ≠ '-')
    (hbody : c ∉ [' ', '(', ',']) (e : Entry (Saturating r)) : c ∉ entryBody e := by
  have hw := Saturating.notMem_toList_text hc hsign e.weight
  have hv := notMem_toDigits hc e.target
  simp_all [entryBody]

lemma entryBody_injective : Function.Injective (entryBody (r := r)) := by
  rintro ⟨v, w⟩ ⟨v', w'⟩ h
  obtain ⟨hv, hw⟩ := append_cons_inj_of_notMem (notMem_toDigits rfl v) (notMem_toDigits rfl v')
    (List.append_cancel_left h)
  obtain rfl := toDigits_injective hv
  obtain rfl := Saturating.text_injective (String.toList_injective (List.cons.inj hw).2)
  rfl

lemma toList_rowText (g : Graph (Saturating r)) (v : Vertex) :
    (g.rowText v).toList = Nat.toDigits 10 v ++ (" ->".toList ++
      ((g.adjacency.row v).map entryBody).flatMap (· ++ [')'])) := by
  rw [rowText, String.toList_append, String.toList_append, String.toList_join, List.flatMap_map,
    List.flatMap_map, Nat.toList_repr, List.append_assoc]
  simp only [toList_entryText]

lemma newline_notMem_rowText (g : Graph (Saturating r)) (v : Vertex) :
    '\n' ∉ (g.rowText v).toList := by
  have hentry := notMem_entryBody (c := '\n') rfl (by decide) (by decide) (r := r)
  simp [toList_rowText, notMem_toDigits, hentry]

/-- The line of a vertex determines its entries. -/
lemma row_eq_of_rowText_eq (heq : g.rowText v = h.rowText v) :
    g.adjacency.row v = h.adjacency.row v := by
  have hlists := congrArg String.toList heq
  rw [toList_rowText, toList_rowText] at hlists
  have hentry := notMem_entryBody (c := ')') rfl (by decide) (by decide) (r := r)
  refine List.map_injective_iff.2 entryBody_injective (flatMap_concat_inj ?_ ?_
    (List.append_cancel_left (List.append_cancel_left hlists)))
  · simpa using fun e _ => hentry e
  · simpa using fun e _ => hentry e

/-- The lines of all vertices determine the lists. -/
theorem adjacency_eq_of_text_eq (heq : g.text = h.text) : g.adjacency = h.adjacency := by
  have hlines : g.vertices.map g.rowText = h.vertices.map h.rowText :=
    unlines_inj (by simpa using fun v _ => newline_notMem_rowText g v)
      (by simpa using fun v _ => newline_notMem_rowText h v) heq
  have hsize : g.size = h.size := by
    simpa [vertices] using congrArg List.length hlines
  rw [vertices, vertices, ← hsize, List.map_inj_left] at hlines
  refine Adjacency.ext_row hsize fun v => ?_
  by_cases hv : v < g.size
  · exact row_eq_of_rowText_eq (hlines v (List.mem_range.2 hv))
  · have hv' : ¬ v < h.size := hsize ▸ hv
    rw [Adjacency.row_of_size_le (Nat.le_of_not_lt hv),
      Adjacency.row_of_size_le (Nat.le_of_not_lt hv')]

end Graph

/-! ### Drawings -/

namespace Dot

lemma toList_vertexLine (v : Vertex) :
    (vertexLine v).toList = "    v".toList ++ (Nat.toDigits 10 v ++ [';']) := by
  simp [vertexLine, Vertex.label]

lemma newline_notMem_vertexLine (v : Vertex) : '\n' ∉ (vertexLine v).toList := by
  simp [toList_vertexLine, notMem_toDigits]

lemma vertexLine_ne_empty (v : Vertex) : vertexLine v ≠ "" := by
  rw [Ne, ← String.toList_inj, toList_vertexLine]
  simp

section Edge

variable {W : Type} [Weight W]

lemma toList_edgeLine (e : Edge W) : (edgeLine e).toList =
    "    v".toList ++ (Nat.toDigits 10 e.source ++ ' ' :: ("-> v".toList ++
      (Nat.toDigits 10 e.target ++ ' ' :: ("[label=\"".toList ++
        ((escape (Weight.text e.weight)).toList ++ '"' :: "];".toList))))) := by
  simp [edgeLine, Vertex.label]

lemma newline_notMem_edgeLine (e : Edge W) : '\n' ∉ (edgeLine e).toList := by
  simp [toList_edgeLine, notMem_toDigits, newline_notMem_escape]

end Edge

/-- What is read from the label of an edge is its weight. -/
lemma edgeLine_injective : Function.Injective (edgeLine (W := Saturating r)) := by
  rintro ⟨u, v, w⟩ ⟨u', v', w'⟩ h
  have hlists := congrArg String.toList h
  rw [toList_edgeLine, toList_edgeLine] at hlists
  obtain ⟨hu, hrest⟩ := append_cons_inj_of_notMem (notMem_toDigits rfl u) (notMem_toDigits rfl u')
    (List.append_cancel_left hlists)
  obtain ⟨hv, hlabel⟩ := append_cons_inj_of_notMem (notMem_toDigits rfl v)
    (notMem_toDigits rfl v') (List.append_cancel_left hrest)
  have hread := congrArg readLabel (List.append_cancel_left hlabel)
  rw [readLabel_escape, readLabel_escape] at hread
  have hreturn : ∀ a : Saturating r,
      (Weight.text a).toList.filter (· ≠ '\r') = (Weight.text a).toList := fun a =>
    List.filter_eq_self.2 fun c hc => decide_eq_true fun hcr =>
      Saturating.notMem_toList_text rfl (by decide) a (hcr ▸ hc)
  rw [hreturn, hreturn] at hread
  obtain rfl := toDigits_injective hu
  obtain rfl := toDigits_injective hv
  obtain rfl := Saturating.text_injective
    (String.toList_injective (congrArg Prod.fst (Option.some.inj hread)))
  rfl

end Dot

namespace Graph

variable {g h : Graph (Saturating r)}

/-- The lines of a drawing that stand below those of its style. -/
def dotBody (g : Graph (Saturating r)) : List String :=
  g.vertices.map Dot.vertexLine ++ "" :: (g.edges.map Dot.edgeLine ++ ["\x7d"])

/-- What stands above the vertices of a drawing depends on the title only. -/
lemma exists_toDot_eq_append (title : Option String) :
    ∃ head, ∀ g : Graph (Saturating r), g.toDot title = head ++ unlines g.dotBody := by
  refine ⟨unlines (["digraph G \x7b"] ++ title.elim [] Dot.titleLines ++ Dot.styleLines ++ [""]),
    fun g => ?_⟩
  rw [← unlines_append, toDot, dotLines, dotBody]
  simp only [List.append_assoc, List.cons_append, List.nil_append]

lemma newline_notMem_of_mem_dotBody {l : String} (hl : l ∈ g.dotBody) : '\n' ∉ l.toList := by
  simp only [dotBody, List.mem_append, List.mem_cons, List.mem_map, List.not_mem_nil,
    or_false] at hl
  rcases hl with ⟨v, -, rfl⟩ | rfl | ⟨e, -, rfl⟩ | rfl
  · exact Dot.newline_notMem_vertexLine v
  · exact List.not_mem_nil
  · exact Dot.newline_notMem_edgeLine e
  · decide

/-- A drawing determines the lists, whatever its title is. -/
theorem adjacency_eq_of_toDot_eq {title : Option String} (heq : g.toDot title = h.toDot title) :
    g.adjacency = h.adjacency := by
  obtain ⟨head, hhead⟩ := exists_toDot_eq_append (r := r) title
  rw [hhead, hhead, String.append_right_inj] at heq
  -- the line between the vertices and the edges is the first empty one
  have hempty : ∀ vs : List Vertex, "" ∉ vs.map Dot.vertexLine := by
    simpa using fun _ v _ => Dot.vertexLine_ne_empty v
  obtain ⟨hvertices, hrest⟩ := append_cons_inj_of_notMem (hempty g.vertices) (hempty h.vertices)
    (unlines_inj (fun _ => newline_notMem_of_mem_dotBody) (fun _ => newline_notMem_of_mem_dotBody)
      heq)
  have hsize : g.size = h.size := by
    simpa [vertices] using congrArg List.length hvertices
  have hedges : g.edges = h.edges :=
    List.map_injective_iff.2 Dot.edgeLine_injective (List.append_cancel_right hrest)
  exact Adjacency.eq_of_edges_eq hsize hedges

/-- Filled graphs with integer weights are the same just when their texts are, and just when their
drawings with some title are. -/
theorem text_and_toDot_inj {n m : Nat} {is js : List (Insertion (Saturating r))} :
    ((filled n is).text = (filled m js).text ↔ filled n is = filled m js) ∧
      ∀ title, (filled n is).toDot title = (filled m js).toDot title ↔
        filled n is = filled m js := by
  refine ⟨⟨fun h => ?_, congrArg text⟩, fun title => ⟨fun h => ?_, fun h => by rw [h]⟩⟩
  · exact filled_eq_of_adjacency_eq (adjacency_eq_of_text_eq h)
  · exact filled_eq_of_adjacency_eq (adjacency_eq_of_toDot_eq h)

end Graph

end WeightedGraph
