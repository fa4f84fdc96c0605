import MarkupSeeds.Proofs.Extraction.Soundness
import MarkupSeeds.Proofs.Markup.Reading

/-!
# Depth in balanced snippets

The balanced rule is a search through the whole text.  The snippets that it cuts out
are balanced in themselves: read on its own, each returns to depth zero with its last
tag and with no tag before it.
-/

namespace MarkupSeeds.Extractor

open Markup

theorem Candidate.occurs_readsBalanced {e : Extractor} {shape : Shape} {budget : Option Nat}
    {bytes : Bytes} {start stop : Nat} {tag : Opening}
    (hlabels : ∀ name ∈ shape.labels, IsLabel name)
    (hcandidate : Candidate e shape budget bytes start tag stop) (hkind : shape.kind = .paired)
    (hnesting : e.nesting = .balanced) :
    Occurs (ReadsBalanced tag.name) bytes start stop := by
  have hlabel := hlabels tag.name hcandidate.name_mem
  apply hcandidate.occurs_opening.append _ (hcandidate.occurs_balances hlabels hkind hnesting)
  intro left right hopening hbalances
  exact readsBalanced_append hlabel hopening hbalances

/-- Every span that the balanced rule emits for a paired shape is depth-balanced in the
tags of one name of the shape. -/
theorem balanced_span_readsBalanced (maxLength : Nat) {shape : Shape} (hshape : shape ∈ shapes)
    (hpaired : shape.kind = .paired) {text : String} {span : Span}
    (hmem : span ∈ (⟨maxLength, .balanced⟩ : Extractor).spans shape (Utf8.encode text)) :
    ∃ snippet, IsSlice text span snippet ∧
      ∃ name ∈ shape.labels, ReadsBalanced name (Utf8.encode snippet) := by
  have hlabels := isLabel_of_mem_shapes hshape
  have hslice := (finds_snippetAt hlabels hmem).slice
  obtain ⟨-, tag, hcandidate⟩ := (course_spans hlabels).exists_candidate span hmem
  have hbalanced := (hcandidate.occurs_readsBalanced hlabels hpaired rfl).take_drop
  rw [hslice.take_drop_eq] at hbalanced
  exact ⟨_, hslice, tag.name, hcandidate.name_mem, hbalanced⟩

/-- A heading in a heading, where an opening tag swallows a whole closing tag. -/
theorem balanced_span_readsBalanced_of_headings :
    let headings : Shape := .paired ["h1", "h2", "h3", "h4", "h5", "h6"]
    let text := "<h2>a<H2 title='</h2>'>b</h2 >c</h3></h2> tail"
    headings ∈ shapes ∧ headings.kind = .paired ∧
      ⟨0, 41⟩ ∈ (⟨2000, .balanced⟩ : Extractor).spans headings (Utf8.encode text) ∧
      ∃ snippet, IsSlice text ⟨0, 41⟩ snippet ∧
        ∃ name ∈ headings.labels, ReadsBalanced name (Utf8.encode snippet) := by
  intro headings text
  have hshape : headings ∈ shapes := by decide
  have hmem : ⟨0, 41⟩ ∈ (⟨2000, .balanced⟩ : Extractor).spans headings (Utf8.encode text) := by
    decide +kernel
  exact ⟨hshape, rfl, hmem, balanced_span_readsBalanced 2000 hshape rfl hmem⟩

end MarkupSeeds.Extractor
