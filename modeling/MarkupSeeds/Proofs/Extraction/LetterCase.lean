import MarkupSeeds.Proofs.Extraction.Budget
import MarkupSeeds.Proofs.Markup.LetterCase

/-!
# Extraction and the case of letters

Tags, the ends of elements and the lengths of snippets do not depend on the case of ASCII
letters, and so the course of a scan does not.  A text in lower case has the snippets of the
text in lower case, at the same offsets.
-/

namespace MarkupSeeds

open Markup

theorem length_encode_toLower (text : String) :
    (Utf8.encode text.toLower).length = (Utf8.encode text).length := by
  rw [Utf8.encode_toLower, List.length_map]

theorem sameLetters_encode_toLower (text : String) :
    SameLetters (Utf8.encode text) (Utf8.encode text.toLower) :=
  Utf8.encode_toLower text ▸ sameLetters_map_lower (Utf8.encode text)

theorem IsSlice.toLower {text piece : String} {span : Span} (hslice : IsSlice text span piece) :
    IsSlice text.toLower span piece.toLower := by
  obtain ⟨front, rest, rfl, hstart, hstop⟩ := hslice
  refine ⟨front.toLower, rest.toLower, ?_, ?_, ?_⟩
  · rw [toLower_append, toLower_append]
  · rw [length_encode_toLower, hstart]
  · rw [← toLower_append, length_encode_toLower, hstop]

namespace Extractor

section Positions

variable {e : Extractor} {shape : Shape} {budget : Option Nat} {bytes other : Bytes}

/-- The same candidates are found whatever the case of letters. -/
theorem Candidate.of_sameLetters (hlabels : ∀ name ∈ shape.labels, IsLabel name)
    (hsame : SameLetters bytes other) {start stop : Nat} {tag : Opening}
    (hcandidate : Candidate e shape none bytes start tag stop) :
    Candidate e shape none other start tag stop := by
  have hopens : openingAt? shape.labels other start = some tag :=
    openingAt?_eq_of_sameLetters hlabels hsame start ▸ hcandidate.opens
  cases hkind : shape.kind with
  | void => exact .of_void hopens hkind (hcandidate.stop_eq_of_void hkind)
  | paired =>
      cases hnesting : e.nesting with
      | nearest =>
          have hfirst := hcandidate.firstOccurs_of_nearest hlabels hkind hnesting
          exact .of_firstOccurs hlabels hopens hkind hnesting
            ((ignoresCase_isClosingOf false shape.labels).firstOccurs hsame hfirst)
      | balanced =>
          have hbalances := hcandidate.occurs_balances hlabels hkind hnesting
          exact .of_balances hlabels hopens hkind hnesting
            ((ignoresCase_balances tag.name 1).occurs hsame hbalances)

end Positions

section Texts

variable {e : Extractor} {shape : Shape} {text : String}

theorem keepsSpan_toLower {span : Span} {piece : String} (hslice : IsSlice text span piece) :
    e.keepsSpan (Utf8.encode text.toLower) span = e.keepsSpan (Utf8.encode text) span := by
  rw [Bool.eq_iff_iff, hslice.keepsSpan_iff, hslice.toLower.keepsSpan_iff, length_toLower]

/-- The spans of a text in lower case are those of the text. -/
theorem spans_toLower (hlabels : ∀ name ∈ shape.labels, IsLabel name) :
    e.spans shape (Utf8.encode text.toLower) = e.spans shape (Utf8.encode text) := by
  have hsame := sameLetters_encode_toLower text
  have hcourse : Course e shape (some e.budget) (Utf8.encode text.toLower) 0
      (e.spans shape (Utf8.encode text)) := by
    refine (course_spans hlabels).congr (length_encode_toLower text).symm ?_ ?_
      (fun _ _ _ _ => rfl)
    · intro start tag stop
      rw [candidate_some_budget_iff, candidate_some_budget_iff]
      refine and_congr_left fun _ => ⟨fun hcandidate => ?_, fun hcandidate => ?_⟩
      · exact hcandidate.of_sameLetters hlabels hsame
      · exact hcandidate.of_sameLetters hlabels hsame.symm
    · intro start tag stop hcandidate
      obtain ⟨piece, hslice, -⟩ :=
        exists_slice_of_isElement (hcandidate.occurs_isElement hlabels)
      exact keepsSpan_toLower hslice
  exact hcourse.unique (course_spans hlabels)

theorem snippets_toLower (hlabels : ∀ name ∈ shape.labels, IsLabel name) :
    e.snippets shape text.toLower = (e.snippets shape text).map String.toLower := by
  rw [snippets_eq_map, snippets_eq_map, spans_toLower hlabels, List.map_map]
  apply List.map_congr_left
  intro span hmem
  exact (finds_snippetAt hlabels hmem).slice.toLower.snippetAt_eq

end Texts

/-- The case of ASCII letters has no part in an extraction.  In particular, texts that differ
in nothing else yield snippets at the same positions. -/
theorem extract_ignores_case (e : Extractor) :
    (∀ text : String, e.extract text.toLower = (e.extract text).map String.toLower) ∧
      ∀ text other : String, text.toLower = other.toLower → ∀ shape ∈ shapes,
        e.spans shape (Utf8.encode text) = e.spans shape (Utf8.encode other) := by
  constructor
  · intro text
    rw [extract_eq_flatMap, extract_eq_flatMap, List.map_flatMap]
    apply List.flatMap_congr
    intro shape hshape
    exact snippets_toLower (isLabel_of_mem_shapes hshape)
  · intro text other hlower shape hshape
    have hlabels := isLabel_of_mem_shapes hshape
    calc
      e.spans shape (Utf8.encode text) = e.spans shape (Utf8.encode text.toLower) :=
        (spans_toLower hlabels).symm
      _ = e.spans shape (Utf8.encode other.toLower) := by rw [hlower]
      _ = e.spans shape (Utf8.encode other) := spans_toLower hlabels

/-- Tags in mixed case nest, and letters beyond ASCII stay as they are. -/
theorem extract_ignores_case_of_divisions :
    let e : Extractor := ⟨40, .balanced⟩
    let divisions : Shape := .paired ["div"]
    let text := "<DIV Id=A>É <div>two</DIV > Three</Div></div>"
    let other := "<div id=a>É <Div>TWO</div > tHREE</dIV></DIV>"
    divisions ∈ shapes ∧ e.extract text = ["<DIV Id=A>É <div>two</DIV > Three</Div>"] ∧
      e.extract text.toLower = ["<div id=a>É <div>two</div > three</div>"] ∧
      text.toLower = other.toLower ∧
      e.spans divisions (Utf8.encode text) = e.spans divisions (Utf8.encode other) := by
  intro e divisions text other
  have hshape : divisions ∈ shapes := by decide
  have hextract : e.extract text = ["<DIV Id=A>É <div>two</DIV > Three</Div>"] := by
    decide +kernel
  have hsnippet : "<DIV Id=A>É <div>two</DIV > Three</Div>".toLower =
      "<div id=a>É <div>two</div > three</div>" := by
    rw [← String.toList_inj, toList_toLower]
    decide +kernel
  have hlower : text.toLower = other.toLower := by
    rw [← String.toList_inj, toList_toLower, toList_toLower]
    decide +kernel
  obtain ⟨hsnippets, hspans⟩ := extract_ignores_case e
  refine ⟨hshape, hextract, ?_, hlower, hspans text other hlower divisions hshape⟩
  rw [hsnippets, hextract, List.map_singleton, hsnippet]

end Extractor

end MarkupSeeds
