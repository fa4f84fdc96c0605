import MarkupSeeds.Proofs.Extraction.Element

/-!
# Completeness of the balanced scan

The balanced scan is greedy, but it loses an element only to another one.  An
element within the bounds is passed over when it begins inside of a span that was
kept before it, or inside of the opening tag of an element that was rejected.  The
byte limit of the search has no part in this: a snippet that is short enough in
characters is never too long in bytes.
-/

namespace MarkupSeeds

open Markup

theorem IsSlice.stop_eq {text piece : String} {span : Span} (hslice : IsSlice text span piece) :
    span.stop = span.start + (Utf8.encode piece).length := by
  obtain ⟨front, rest, -, hstart, hstop⟩ := hslice
  rw [← hstop, ← hstart, Utf8.encode_append, List.length_append]

theorem IsSlice.stop_le_length {text piece : String} {span : Span}
    (hslice : IsSlice text span piece) : span.stop ≤ (Utf8.encode text).length := by
  obtain ⟨front, rest, rfl, -, hstop⟩ := hslice
  rw [← hstop, Utf8.encode_append (front ++ piece), List.length_append]
  exact Nat.le_add_right ..

namespace Extractor

/-- The offset lies between the `<` and the `>` of an opening tag. -/
def InsideOpening (names : List Bytes) (bytes : Bytes) (p : Nat) : Prop :=
  ∃ start stop, Occurs (IsOpeningOf names) bytes start stop ∧ start < p ∧ p + 1 < stop

/-- The offset lies in a span and is not its first one. -/
def InsideSpan (spans : List Span) (p : Nat) : Prop :=
  ∃ span ∈ spans, span.start < p ∧ p < span.stop

section Positions

variable {e : Extractor} {shape : Shape} {budget : Option Nat} {bytes : Bytes}

/-- No tag begins at the last byte of an opening tag. -/
theorem Candidate.succ_ne_stop {start stop p finish : Nat} {tag : Opening}
    (hcandidate : Candidate e shape budget bytes p tag finish)
    (hoccurs : Occurs (IsOpeningOf shape.labels) bytes start stop) : p + 1 ≠ stop := by
  intro heq
  obtain ⟨piece, rest, hdrop, rfl, name, -, word, attributes, rfl, -⟩ := hoccurs
  obtain ⟨tail, htail, -⟩ := openingAt?_eq_some_iff.mp hcandidate.opens
  have hlast : bytes.drop p = gt :: rest := by
    have hp : p = start + (lt :: (word ++ attributes)).length := by
      simp only [List.length_cons, List.length_append, List.length_nil] at heq ⊢
      omega
    calc
      bytes.drop p = (bytes.drop start).drop (lt :: (word ++ attributes)).length := by
        rw [List.drop_drop, ← hp]
      _ = ((lt :: (word ++ attributes)) ++ gt :: rest).drop (lt :: (word ++ attributes)).length := by
        rw [hdrop]
        simp
      _ = gt :: rest := List.drop_left
  rw [htail, List.cons.injEq] at hlast
  exact absurd hlast.1 (by decide)

/-- What becomes of a candidate that would be kept. -/
theorem Course.covers (hlabels : ∀ name ∈ shape.labels, IsLabel name)
    (hnesting : e.nesting = .balanced) {pos p stop : Nat} {tag : Opening} {spans : List Span}
    (hcourse : Course e shape budget bytes pos spans) (hpos : pos ≤ p)
    (hcandidate : Candidate e shape budget bytes p tag stop)
    (hkeeps : e.keepsSpan bytes ⟨p, stop⟩ = true) :
    ⟨p, stop⟩ ∈ spans ∨ InsideSpan spans p ∨ InsideOpening shape.labels bytes p := by
  induction hcourse with
  | @done pos hend =>
      -- A candidate begins with a byte of the text.
      have hoccurs := hcandidate.occurs_isElement hlabels
      have hlt := (bracketed_isElement _ shape).start_lt_stop hoccurs
      have hle := (bracketed_isElement _ shape).stop_le_length hoccurs
      omega
  | @pass pos spans hnone hrest ih =>
      have hne : pos ≠ p := by
        intro heq
        exact hnone tag stop (heq ▸ hcandidate)
      exact ih (by omega)
  | @keep pos other finish spans hother hkept hrest ih =>
      by_cases hsame : pos = p
      · subst hsame
        obtain ⟨-, rfl⟩ := hother.unique hcandidate
        exact Or.inl List.mem_cons_self
      by_cases hinside : p < finish
      · have hbefore : pos < p := Nat.lt_of_le_of_ne hpos hsame
        exact Or.inr (Or.inl ⟨⟨pos, finish⟩, List.mem_cons_self, hbefore, hinside⟩)
      rcases ih (by omega) with hmem | ⟨span, hmem, hspan⟩ | hopening
      · exact Or.inl (List.mem_cons_of_mem _ hmem)
      · exact Or.inr (Or.inl ⟨span, List.mem_cons_of_mem _ hmem, hspan⟩)
      · exact Or.inr (Or.inr hopening)
  | @reject pos other finish spans hother hrejected hrest ih =>
      have hne : pos ≠ p := by
        intro heq
        subst heq
        obtain ⟨-, rfl⟩ := hother.unique hcandidate
        rw [hkeeps] at hrejected
        cases hrejected
      have hresume : e.resume pos other finish = pos + 1 + other.length := by
        rw [resume, hnesting]
      by_cases hbehind : pos + 1 + other.length ≤ p
      · exact ih (hresume ▸ hbehind)
      · have hoccurs := (occurs_isOpeningOf_iff hlabels).mpr ⟨other, hother.opens, rfl⟩
        have hnotLast := hcandidate.succ_ne_stop hoccurs
        exact Or.inr (Or.inr ⟨pos, pos + 1 + other.length, hoccurs, by omega, by omega⟩)

end Positions

/-- The byte limit does not touch a span whose characters are within the bound. -/
theorem stop_le_limit {maxLength : Nat} {text snippet : String} {span : Span}
    (hsize : (Utf8.encode text).length < UInt64.size) (hslice : IsSlice text span snippet)
    (hshort : snippet.length ≤ maxLength) :
    span.stop ≤ Size.satAdd span.start (Size.satMul maxLength 4) := by
  have hstop := hslice.stop_eq
  have hend := hslice.stop_le_length
  have hbytes := Utf8.length_encode_le snippet
  have hlargest : UInt64.size = Size.largest + 1 := rfl
  rw [Size.satAdd, Size.satMul]
  omega

/-- The balanced scan of a paired shape loses no element within the bounds, except to
one that begins before it. -/
theorem balanced_spans_complete {maxLength : Nat} {shape : Shape} (hshape : shape ∈ shapes)
    (hpaired : shape.kind = .paired) {text snippet : String}
    (hsize : (Utf8.encode text).length < UInt64.size) {p stop : Nat} {tag : Opening}
    (hopens : openingAt? shape.labels (Utf8.encode text) p = some tag)
    (hcloses : balancedClose? tag.name none 1 (p + 1 + tag.length)
      ((Utf8.encode text).drop (p + 1 + tag.length)) = some stop)
    (hslice : IsSlice text ⟨p, stop⟩ snippet) (hlong : 10 < snippet.length)
    (hshort : snippet.length ≤ maxLength) :
    ⟨p, stop⟩ ∈ (⟨maxLength, .balanced⟩ : Extractor).spans shape (Utf8.encode text) ∨
      InsideSpan ((⟨maxLength, .balanced⟩ : Extractor).spans shape (Utf8.encode text)) p ∨
      InsideOpening shape.labels (Utf8.encode text) p := by
  have hlabels := isLabel_of_mem_shapes hshape
  have hends : (⟨maxLength, .balanced⟩ : Extractor).stop? shape (some (Size.satMul maxLength 4)) p
      tag ((Utf8.encode text).drop (p + 1 + tag.length)) = some stop := by
    simp only [stop?, hpaired, Option.map_some]
    rw [balancedClose?_some_limit_iff]
    exact ⟨hcloses, stop_le_limit hsize hslice hshort⟩
  exact (course_spans hlabels).covers hlabels rfl (Nat.zero_le p) ⟨hopens, hends⟩
    ((hslice.keepsSpan_iff _).mpr ⟨hlong, hshort⟩)

/-- The outer element is never closed, and the inner one has 28 characters in 30 bytes. -/
theorem balanced_spans_complete_of_unclosed :
    let divisions : Shape := .paired ["div"]
    let text := "<div>naïve, never closed <div>but this one is ✓</div>"
    let spans := (⟨28, .balanced⟩ : Extractor).spans divisions (Utf8.encode text)
    divisions ∈ shapes ∧ divisions.kind = .paired ∧
      IsSlice text ⟨26, 56⟩ "<div>but this one is ✓</div>" ∧
      (⟨26, 56⟩ ∈ spans ∨ InsideSpan spans 26 ∨
        InsideOpening divisions.labels (Utf8.encode text) 26) := by
  intro divisions text spans
  have hshape : divisions ∈ shapes := by decide
  have hslice : IsSlice text ⟨26, 56⟩ "<div>but this one is ✓</div>" :=
    ⟨"<div>naïve, never closed ", "", by decide +kernel, by decide +kernel, by decide +kernel⟩
  have hopens : openingAt? divisions.labels (Utf8.encode text) 26 =
      some ⟨Utf8.encode "div", 4⟩ := by decide +kernel
  have hcloses : balancedClose? (Utf8.encode "div") none 1 31 ((Utf8.encode text).drop 31) =
      some 56 := by decide +kernel
  exact ⟨hshape, rfl, hslice, balanced_spans_complete hshape rfl (by decide +kernel) hopens hcloses
    hslice (by decide +kernel) (by decide +kernel)⟩

end Extractor

end MarkupSeeds
