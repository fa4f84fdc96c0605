import Mathlib.Data.List.Forall2
import MarkupSeeds.Proofs.Extraction.Element

/-!
# Soundness of extraction

Whatever the text, an extraction lists the snippets of the shapes one shape after
the other.  Those of one shape are cut out at disjoint spans from left to right, keep
to the bounds on their length, and are elements of the shape.
-/

namespace MarkupSeeds.Extractor

open Markup

/-- What a snippet owes to the text that it was cut out of. -/
structure Finds (e : Extractor) (shape : Shape) (text : String) (span : Span)
    (snippet : String) : Prop where
  slice : IsSlice text span snippet
  long : 10 < snippet.length
  short : snippet.length ≤ e.maxLength
  element : IsElement e.nesting.spaced shape (Utf8.encode snippet)

theorem snippets_eq_map (e : Extractor) (shape : Shape) (text : String) :
    e.snippets shape text = (e.spans shape (Utf8.encode text)).map (snippetAt text) := rfl

theorem extract_eq_flatMap (e : Extractor) (text : String) :
    e.extract text = shapes.flatMap fun shape => e.snippets shape text := by
  rw [extract, findings, List.flatMap_map]

theorem mem_extract_iff {e : Extractor} {text snippet : String} :
    snippet ∈ e.extract text ↔ ∃ shape ∈ shapes, snippet ∈ e.snippets shape text := by
  rw [extract_eq_flatMap, List.mem_flatMap]

/-- A kept span is cut out as the text that it takes up. -/
theorem finds_snippetAt {e : Extractor} {shape : Shape} {text : String} {span : Span}
    (hlabels : ∀ name ∈ shape.labels, IsLabel name)
    (hmem : span ∈ e.spans shape (Utf8.encode text)) :
    e.Finds shape text span (snippetAt text span) := by
  obtain ⟨hkeeps, tag, hcandidate⟩ := (course_spans hlabels).exists_candidate span hmem
  obtain ⟨piece, hslice, helement⟩ :=
    exists_slice_of_isElement (hcandidate.occurs_isElement hlabels)
  obtain ⟨hlong, hshort⟩ := (hslice.keepsSpan_iff e).mp hkeeps
  rw [hslice.snippetAt_eq]
  exact ⟨hslice, hlong, hshort, helement⟩

/-- Every snippet of a text was found for one of the shapes. -/
theorem exists_finds_of_mem_extract {e : Extractor} {text snippet : String}
    (hmem : snippet ∈ e.extract text) :
    ∃ shape ∈ shapes, ∃ span, e.Finds shape text span snippet := by
  obtain ⟨shape, hshape, hsnippet⟩ := mem_extract_iff.mp hmem
  rw [snippets_eq_map] at hsnippet
  obtain ⟨span, hspan, rfl⟩ := List.mem_map.mp hsnippet
  exact ⟨shape, hshape, span, finds_snippetAt (isLabel_of_mem_shapes hshape) hspan⟩

/-- A snippet begins with a tag. -/
theorem Finds.lt_mem {e : Extractor} {shape : Shape} {text snippet : String} {span : Span}
    (hfinds : e.Finds shape text span snippet) : '<' ∈ snippet.toList := by
  have hhead := bracketed_isElement _ _ _ hfinds.element
  exact Utf8.mem_toList_of_mem_encode (by decide) (List.mem_of_head? hhead)

/-- Extraction is sound in both nesting modes. -/
theorem extract_sound (e : Extractor) (text : String) :
    e.extract text = shapes.flatMap (fun shape => e.snippets shape text) ∧
      ∀ shape ∈ shapes,
        (e.spans shape (Utf8.encode text)).Pairwise (fun left right => left.stop ≤ right.start) ∧
          List.Forall₂ (e.Finds shape text) (e.spans shape (Utf8.encode text))
            (e.snippets shape text) := by
  constructor
  · rw [extract, findings, List.flatMap_map]
  · intro shape hshape
    have hlabels := isLabel_of_mem_shapes hshape
    refine ⟨(course_spans hlabels).pairwise hlabels, ?_⟩
    rw [snippets_eq_map, List.forall₂_map_right_iff, List.forall₂_same]
    intro span hmem
    exact finds_snippetAt hlabels hmem

/-- An outer list that is too long for a snippet, with two items beyond ASCII. -/
theorem extract_sound_of_long_list :
    let e : Extractor := ⟨20, .balanced⟩
    let text := "<ul><li>naïve café</li><LI >✓ done</li ></ul>"
    let items : Shape := .paired ["li"]
    items ∈ shapes ∧ e.extract text = ["<li>naïve café</li>", "<LI >✓ done</li >"] ∧
      List.Forall₂ (e.Finds items text) [⟨4, 25⟩, ⟨25, 44⟩]
        ["<li>naïve café</li>", "<LI >✓ done</li >"] := by
  intro e text items
  have hshape : items ∈ shapes := by decide
  have hspans : e.spans items (Utf8.encode text) = [⟨4, 25⟩, ⟨25, 44⟩] := by decide +kernel
  have hsnippets : e.snippets items text = ["<li>naïve café</li>", "<LI >✓ done</li >"] := by
    decide +kernel
  have hfinds := ((extract_sound e text).2 items hshape).2
  rw [hspans, hsnippets] at hfinds
  exact ⟨hshape, by decide +kernel, hfinds⟩

end MarkupSeeds.Extractor
