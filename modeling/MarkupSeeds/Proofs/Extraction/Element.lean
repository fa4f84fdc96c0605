import MarkupSeeds.Proofs.Extraction.Course
import MarkupSeeds.Proofs.Markup.Locality
import MarkupSeeds.Proofs.Text.Encoding

/-!
# Elements and their texts

Every candidate of a scan takes up an element: an opening tag alone, or an opening
tag and a closing tag with anything between them.  It begins with `<` and ends with
`>`, which are characters of their own, so that the bytes of an element are always
the bytes of a piece of the text.
-/

namespace MarkupSeeds

open Markup

/-- The piece of a text whose bytes take up the offsets of a span. -/
def IsSlice (text : String) (span : Span) (piece : String) : Prop :=
  ∃ front rest, text = front ++ piece ++ rest ∧ (Utf8.encode front).length = span.start ∧
    (Utf8.encode (front ++ piece)).length = span.stop

theorem IsSlice.take_drop_eq {text piece : String} {span : Span}
    (hslice : IsSlice text span piece) :
    ((Utf8.encode text).drop span.start).take (span.stop - span.start) = Utf8.encode piece := by
  obtain ⟨front, rest, rfl, hstart, hstop⟩ := hslice
  rw [Utf8.encode_append, List.length_append] at hstop
  rw [Utf8.encode_append, Utf8.encode_append, List.append_assoc, ← hstart, List.drop_left, hstart,
    ← hstop, hstart, Nat.add_sub_cancel_left, List.take_left]

/-- The text that is cut out for a span. -/
def snippetAt (text : String) (span : Span) : String :=
  Utf8.lossy (span.cut (Utf8.encode text).toArray)

theorem IsSlice.snippetAt_eq {text piece : String} {span : Span}
    (hslice : IsSlice text span piece) : snippetAt text span = piece := by
  rw [snippetAt, Span.cut_toArray, hslice.take_drop_eq, Utf8.lossy_encode]

theorem IsSlice.keepsSpan_iff {text piece : String} {span : Span} (hslice : IsSlice text span piece)
    (e : Extractor) : e.keepsSpan (Utf8.encode text) span = true ↔
      10 < piece.length ∧ piece.length ≤ e.maxLength := by
  rw [Extractor.keepsSpan, hslice.take_drop_eq, Utf8.count_encode, Extractor.keeps,
    Bool.and_eq_true, decide_eq_true_eq, decide_eq_true_eq, minSnippetLength]

/-- A piece from a `<` to a `>` is the encoding of a slice. -/
theorem exists_slice {P : Bytes → Prop} {text : String} {start stop : Nat}
    (hhead : Bracketed P) (hlast : ∀ piece, P piece → piece.getLast? = some gt)
    (hoccurs : Occurs P (Utf8.encode text) start stop) :
    ∃ piece, IsSlice text ⟨start, stop⟩ piece ∧ P (Utf8.encode piece) := by
  have hlt := hhead.start_lt_stop hoccurs
  have hle := hhead.stop_le_length hoccurs
  obtain ⟨piece, rest, hdrop, rfl, hpiece⟩ := hoccurs
  have hbytes : Utf8.encode text = (Utf8.encode text).take start ++ piece ++ rest := by
    rw [List.append_assoc, ← hdrop, List.take_append_drop]
  obtain ⟨front, middle, behind, rfl, hfront, hmiddle, -⟩ :=
    Utf8.exists_text_of_ascii_ends hbytes (hhead piece hpiece) (hlast piece hpiece) (by decide)
      (by decide)
  have hstart : (Utf8.encode front).length = start := by
    rw [hfront, List.length_take]
    omega
  refine ⟨middle, ⟨front, behind, rfl, hstart, ?_⟩, hmiddle.symm ▸ hpiece⟩
  rw [Utf8.encode_append, List.length_append, hstart, hmiddle]

namespace Markup

/-- Whether blanks may stand before the `>` of a closing tag. -/
def Nesting.spaced : Nesting → Bool
  | nearest => false
  | balanced => true

/-- An element of a shape, from the `<` of its opening tag to the `>` of its last tag. -/
inductive IsElement (spaced : Bool) (shape : Shape) : Bytes → Prop
  | void {tag} (hkind : shape.kind = .void) (hopening : IsOpeningOf shape.labels tag) :
      IsElement spaced shape tag
  | paired {tag content closing} (hkind : shape.kind = .paired)
      (hopening : IsOpeningOf shape.labels tag)
      (hclosing : IsClosingOf spaced shape.labels closing) :
      IsElement spaced shape (tag ++ (content ++ closing))

theorem bracketed_isElement (spaced : Bool) (shape : Shape) :
    Bracketed (IsElement spaced shape) := by
  intro piece hpiece
  cases hpiece with
  | void hkind hopening => exact bracketed_isOpeningOf _ _ hopening
  | paired hkind hopening hclosing =>
      rw [List.head?_append, bracketed_isOpeningOf _ _ hopening]
      rfl

theorem getLast?_of_isOpeningOf {names : List Bytes} {tag : Bytes}
    (hopening : IsOpeningOf names tag) : tag.getLast? = some gt := by
  obtain ⟨name, -, word, attributes, rfl, -⟩ := hopening
  rw [← List.append_assoc, ← List.cons_append, List.getLast?_concat]

theorem getLast?_of_isClosingOf {spaced : Bool} {names : List Bytes} {tag : Bytes}
    (hclosing : IsClosingOf spaced names tag) : tag.getLast? = some gt := by
  obtain ⟨name, -, word, blanks, rfl, -⟩ := hclosing
  rw [← List.append_assoc, ← List.cons_append, ← List.cons_append, List.getLast?_concat]

theorem getLast?_of_isElement {spaced : Bool} {shape : Shape} {piece : Bytes}
    (hpiece : IsElement spaced shape piece) : piece.getLast? = some gt := by
  cases hpiece with
  | void hkind hopening => exact getLast?_of_isOpeningOf hopening
  | paired hkind hopening hclosing =>
      rw [List.getLast?_append, List.getLast?_append, getLast?_of_isClosingOf hclosing]
      rfl

/-- An element of a text is itself a text. -/
theorem exists_slice_of_isElement {spaced : Bool} {shape : Shape} {text : String}
    {start stop : Nat} (hoccurs : Occurs (IsElement spaced shape) (Utf8.encode text) start stop) :
    ∃ piece, IsSlice text ⟨start, stop⟩ piece ∧ IsElement spaced shape (Utf8.encode piece) :=
  exists_slice (bracketed_isElement spaced shape) (fun _ => getLast?_of_isElement) hoccurs

end Markup

namespace Extractor

section Candidates

variable {e : Extractor} {shape : Shape} {budget : Option Nat} {bytes : Bytes}
variable {start stop : Nat} {tag : Opening}

theorem Candidate.occurs_opening (hcandidate : Candidate e shape budget bytes start tag stop) :
    Occurs (IsOpening tag.name) bytes start (start + 1 + tag.length) :=
  (occurs_of_openingAt? hcandidate.opens).2

theorem Candidate.name_mem (hcandidate : Candidate e shape budget bytes start tag stop) :
    tag.name ∈ shape.labels :=
  (occurs_of_openingAt? hcandidate.opens).1

theorem Candidate.occurs_isOpeningOf
    (hcandidate : Candidate e shape budget bytes start tag stop) :
    Occurs (IsOpeningOf shape.labels) bytes start (start + 1 + tag.length) :=
  occurs_isOpeningOf_of_mem hcandidate.name_mem hcandidate.occurs_opening

/-! ## Candidates by kind and rule -/

theorem Candidate.of_void (hopens : openingAt? shape.labels bytes start = some tag)
    (hkind : shape.kind = .void) (hstop : start + 1 + tag.length = stop) :
    Candidate e shape budget bytes start tag stop := by
  refine ⟨hopens, ?_⟩
  simp only [stop?, hkind, hstop]

theorem Candidate.stop_eq_of_void (hcandidate : Candidate e shape budget bytes start tag stop)
    (hkind : shape.kind = .void) : start + 1 + tag.length = stop := by
  have hends := hcandidate.ends
  simpa only [stop?, hkind, Option.some.injEq] using hends

theorem Candidate.of_firstOccurs (hlabels : ∀ name ∈ shape.labels, IsLabel name)
    (hopens : openingAt? shape.labels bytes start = some tag) (hkind : shape.kind = .paired)
    (hnesting : e.nesting = .nearest)
    (hfirst : FirstOccurs (IsClosingOf false shape.labels) bytes (start + 1 + tag.length) stop) :
    Candidate e shape budget bytes start tag stop := by
  refine ⟨hopens, ?_⟩
  simp only [stop?, hkind, hnesting]
  exact (nearestClose?_eq_some_iff hlabels rfl).mpr hfirst

theorem Candidate.firstOccurs_of_nearest (hlabels : ∀ name ∈ shape.labels, IsLabel name)
    (hcandidate : Candidate e shape budget bytes start tag stop) (hkind : shape.kind = .paired)
    (hnesting : e.nesting = .nearest) :
    FirstOccurs (IsClosingOf false shape.labels) bytes (start + 1 + tag.length) stop := by
  have hends := hcandidate.ends
  simp only [stop?, hkind, hnesting] at hends
  exact (nearestClose?_eq_some_iff hlabels rfl).mp hends

theorem Candidate.of_balances (hlabels : ∀ name ∈ shape.labels, IsLabel name)
    (hopens : openingAt? shape.labels bytes start = some tag) (hkind : shape.kind = .paired)
    (hnesting : e.nesting = .balanced)
    (hbalances : Occurs (Balances tag.name 1) bytes (start + 1 + tag.length) stop) :
    Candidate e shape none bytes start tag stop := by
  refine ⟨hopens, ?_⟩
  simp only [stop?, hkind, hnesting]
  exact balancedClose?_of_occurs (hlabels _ (occurs_of_openingAt? hopens).1) hbalances

theorem Candidate.occurs_balances (hlabels : ∀ name ∈ shape.labels, IsLabel name)
    (hcandidate : Candidate e shape budget bytes start tag stop) (hkind : shape.kind = .paired)
    (hnesting : e.nesting = .balanced) :
    Occurs (Balances tag.name 1) bytes (start + 1 + tag.length) stop := by
  have hends := hcandidate.ends
  simp only [stop?, hkind, hnesting] at hends
  have hlabel := hlabels tag.name hcandidate.name_mem
  exact exists_balances_of_balancedClose? hlabel (Nat.le_refl 1) hends

/-- Either rule ends a paired element with a closing tag. -/
theorem Candidate.occurs_closed (hlabels : ∀ name ∈ shape.labels, IsLabel name)
    (hcandidate : Candidate e shape budget bytes start tag stop) (hkind : shape.kind = .paired) :
    Occurs (fun piece => ∃ content closing, piece = content ++ closing ∧
      IsClosingOf e.nesting.spaced shape.labels closing) bytes (start + 1 + tag.length) stop := by
  cases hnesting : e.nesting with
  | nearest =>
      obtain ⟨first, hfirst, hclosing, -⟩ :=
        hcandidate.firstOccurs_of_nearest hlabels hkind hnesting
      exact (bracketed_isClosingOf false shape.labels).extend_left
        (fun content closing hpiece => ⟨content, closing, rfl, hpiece⟩) hfirst hclosing
  | balanced =>
      have hbalances := hcandidate.occurs_balances hlabels hkind hnesting
      apply hbalances.mono
      intro piece hpiece
      obtain ⟨content, closing, heq, hclosing⟩ := hpiece.exists_closing
      exact ⟨content, closing, heq, tag.name, hcandidate.name_mem, hclosing⟩

theorem Candidate.occurs_isElement (hlabels : ∀ name ∈ shape.labels, IsLabel name)
    (hcandidate : Candidate e shape budget bytes start tag stop) :
    Occurs (IsElement e.nesting.spaced shape) bytes start stop := by
  have hopening := hcandidate.occurs_isOpeningOf
  cases hkind : shape.kind with
  | void =>
      rw [← hcandidate.stop_eq_of_void hkind]
      exact hopening.mono fun piece hpiece => .void hkind hpiece
  | paired =>
      apply hopening.append _ (hcandidate.occurs_closed hlabels hkind)
      intro left right hleft hright
      obtain ⟨content, closing, rfl, hclosing⟩ := hright
      exact .paired hkind hleft hclosing

end Candidates

end Extractor

end MarkupSeeds
