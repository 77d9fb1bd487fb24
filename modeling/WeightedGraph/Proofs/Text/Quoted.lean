import Mathlib
import WeightedGraph.Graph.Dot
import WeightedGraph.Proofs.Text.Lines

/-!
Quoted labels of a drawing.

* `Dot.readLabel`: reads a quoted string from behind its opening quote, with the escapes of a
  backslash, a quote and a line break.
* `Dot.readLabel_escape`: an escaped text is read to its end and no further, and gives the text
  without carriage returns.
* `Dot.replaced`: escaping as four replacements, one after the other; `Dot.toList_escape` says that
  it is the escaping of single characters.
* `Graph.lines_toDot_some`: a title adds two lines to a drawing, and its label is read as the title.
-/

namespace WeightedGraph

namespace Dot

variable {c : Char}

/-! ### Reading -/

/-- The character that is meant by a backslash and the given one. -/
def unescape? : Char → Option Char
  | '\\' => some '\\'
  | '"' => some '"'
  | 'n' => some '\n'
  | _ => none

/-- Reads a quoted string from behind its opening quote: the text that is meant, and what comes
after the closing quote. A string without a closing quote cannot be read, nor one with a line break
or with a backslash before anything but a backslash, a quote or the letter of a line break. -/
def readLabel : List Char → Option (List Char × List Char)
  | [] => none
  | '"' :: rest => some ([], rest)
  | '\n' :: _ => none
  | '\\' :: c :: rest =>
      (unescape? c).bind fun d => (readLabel rest).map fun p => (d :: p.1, p.2)
  | c :: rest => (readLabel rest).map fun p => (c :: p.1, p.2)

lemma readLabel_cons (hquote : c ≠ '"') (hbreak : c ≠ '\n') (hbackslash : c ≠ '\\')
    (rest : List Char) :
    readLabel (c :: rest) = (readLabel rest).map fun p => (c :: p.1, p.2) := by
  rw [readLabel]
  exacts [hquote, hbreak, fun _ _ h _ => hbackslash h]

/-- An escaped character is read as this character, unless it is left out. -/
lemma readLabel_escapeChar (c : Char) (rest : List Char) :
    readLabel (escapeChar c ++ rest) =
      (readLabel rest).map fun p => ([c].filter (· ≠ '\r') ++ p.1, p.2) := by
  unfold escapeChar
  split
  · rfl
  · rfl
  · rfl
  · simp
  · next hbackslash hquote hbreak hreturn =>
      have hkept : [c].filter (· ≠ '\r') = [c] := by simp [show c ≠ '\r' from hreturn]
      rw [List.singleton_append, readLabel_cons hquote hbreak hbackslash, hkept]
      rfl

/-- An escaped text is read up to the quote behind it. -/
theorem readLabel_escape (title : String) (rest : List Char) :
    readLabel ((escape title).toList ++ '"' :: rest) =
      some (title.toList.filter (· ≠ '\r'), rest) := by
  rw [escape, String.toList_ofList]
  induction title.toList with
  | nil => rfl
  | cons c cs ih =>
      rw [List.flatMap_cons, List.append_assoc, readLabel_escapeChar, ih, Option.map_some,
        ← List.filter_append, List.singleton_append]

/-! ### Writing -/

/-- The text with another one in place of each occurrence of a character. -/
def replaceChar (c : Char) (new cs : List Char) : List Char :=
  cs.flatMap fun d => if d = c then new else [d]

/-- The text after four replacements. Backslashes have their turn first, since the later ones write
backslashes. -/
def replaced (cs : List Char) : List Char :=
  replaceChar '\r' [] <| replaceChar '\n' ['\\', 'n'] <| replaceChar '"' ['\\', '"'] <|
    replaceChar '\\' ['\\', '\\'] cs

/-- Escaping character by character is what the four replacements do. -/
lemma toList_escape (title : String) : (escape title).toList = replaced title.toList := by
  rw [escape, String.toList_ofList, replaced, replaceChar, replaceChar, replaceChar, replaceChar,
    List.flatMap_assoc, List.flatMap_assoc, List.flatMap_assoc]
  refine congrArg title.toList.flatMap (funext fun c => ?_)
  unfold escapeChar
  split
  · rfl
  · rfl
  · rfl
  · rfl
  · next hbackslash hquote hbreak hreturn =>
      rw [if_neg hbackslash, List.flatMap_singleton, if_neg hquote, List.flatMap_singleton,
        if_neg hbreak, List.flatMap_singleton, if_neg hreturn]

lemma newline_notMem_escape (title : String) : '\n' ∉ (escape title).toList := by
  rw [escape, String.toList_ofList, List.mem_flatMap]
  rintro ⟨c, -, hc⟩
  unfold escapeChar at hc
  split at hc
  · exact absurd hc (by decide)
  · exact absurd hc (by decide)
  · exact absurd hc (by decide)
  · exact absurd hc List.not_mem_nil
  · next hbreak _ => exact hbreak (List.mem_singleton.1 hc).symm

/-- The line of a title holds its label. -/
lemma toList_titleLine (title : String) :
    ("    label=\"" ++ escape title ++ "\";").toList =
      "    label=".toList ++ '"' :: (replaced title.toList ++ ['"', ';']) := by
  rw [String.toList_append, String.toList_append, toList_escape, List.append_assoc]
  rfl

lemma newline_notMem_titleLine (title : String) :
    '\n' ∉ ("    label=\"" ++ escape title ++ "\";").toList := by
  simp [newline_notMem_escape]

end Dot

namespace Graph

variable {W : Type} [Weight W]

/-- A title adds two lines after the first line of a drawing. The first of them holds a label, which
is read from its opening quote to the quote before the semicolon at the end of the line, and as the
title without carriage returns. -/
theorem lines_toDot_some (g : Graph W) (title : String) :
    ∃ first rest, lines (g.toDot none) = first :: rest ∧
      lines (g.toDot (some title)) =
        first :: ("    label=".toList ++ '"' :: (Dot.replaced title.toList ++ ['"', ';'])) ::
          "    labelloc=t;".toList :: rest ∧
      Dot.readLabel (Dot.replaced title.toList ++ ['"', ';']) =
        some (title.toList.filter (· ≠ '\r'), [';']) := by
  have hfirst : '\n' ∉ "digraph G \x7b".toList := by decide
  have hplace : '\n' ∉ "    labelloc=t;".toList := by decide
  obtain ⟨below, hnone, hsome⟩ : ∃ below, g.dotLines none = "digraph G \x7b" :: below ∧
      g.dotLines (some title) = "digraph G \x7b" :: ("    label=\"" ++ Dot.escape title ++ "\";") ::
        "    labelloc=t;" :: below := ⟨_, rfl, rfl⟩
  refine ⟨"digraph G \x7b".toList, lines (unlines below), ?_, ?_, ?_⟩
  · rw [toDot, hnone, lines_unlines_cons hfirst]
  · rw [toDot, hsome, lines_unlines_cons hfirst,
      lines_unlines_cons (Dot.newline_notMem_titleLine title), lines_unlines_cons hplace,
      Dot.toList_titleLine]
  · rw [← Dot.toList_escape]
    exact Dot.readLabel_escape title [';']

end Graph

end WeightedGraph
