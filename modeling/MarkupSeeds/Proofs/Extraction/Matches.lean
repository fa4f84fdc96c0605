import MarkupSeeds.Proofs.Extraction.Soundness

/-!
# Matches of the nearest rule

The nearest rule stands for a non-greedy pattern: an opening tag, and anything up to
the first exact closing tag.  `Matches` lists the matches of this pattern without a
scan, each at the least offset behind the match before it.  The nearest scan goes
through exactly these matches and emits those whose length is within the bounds.
-/

namespace MarkupSeeds.Extractor

open Markup

/-- The pattern matches at a span. -/
def IsMatch (shape : Shape) (bytes : Bytes) (found : Span) : Prop :=
  ∃ middle, Occurs (IsOpeningOf shape.labels) bytes found.start middle ∧
    match shape.kind with
    | .void => found.stop = middle
    | .paired => FirstOccurs (IsClosingOf false shape.labels) bytes middle found.stop

/-- The matches from offset `pos` on, each at the least offset at which there is one. -/
inductive Matches (shape : Shape) (bytes : Bytes) : Nat → List Span → Prop
  | done {pos} (hnone : ∀ other, pos ≤ other.start → ¬ IsMatch shape bytes other) :
      Matches shape bytes pos []
  | next {pos found rest} (hpos : pos ≤ found.start) (hmatch : IsMatch shape bytes found)
      (hleast : ∀ other, pos ≤ other.start → other.start < found.start →
        ¬ IsMatch shape bytes other)
      (hrest : Matches shape bytes found.stop rest) : Matches shape bytes pos (found :: rest)

section Positions

variable {e : Extractor} {shape : Shape} {budget : Option Nat} {bytes : Bytes}

/-- The matches are the candidates of a nearest scan. -/
theorem isMatch_iff_exists_candidate (hlabels : ∀ name ∈ shape.labels, IsLabel name)
    (hnesting : e.nesting = .nearest) {found : Span} :
    IsMatch shape bytes found ↔
      ∃ tag, Candidate e shape budget bytes found.start tag found.stop := by
  have hends : ∀ tag : Opening,
      e.stop? shape budget found.start tag (bytes.drop (found.start + 1 + tag.length)) =
          some found.stop ↔
        match shape.kind with
        | .void => found.stop = found.start + 1 + tag.length
        | .paired => FirstOccurs (IsClosingOf false shape.labels) bytes
            (found.start + 1 + tag.length) found.stop := by
    intro tag
    cases hkind : shape.kind with
    | void => simp only [stop?, hkind, Option.some.injEq, eq_comm]
    | paired =>
        simp only [stop?, hkind, hnesting]
        exact nearestClose?_eq_some_iff hlabels rfl
  constructor
  · intro hmatch
    obtain ⟨middle, hopening, hclosing⟩ := hmatch
    obtain ⟨tag, hopens, rfl⟩ := (occurs_isOpeningOf_iff hlabels).mp hopening
    exact ⟨tag, hopens, (hends tag).mpr hclosing⟩
  · intro hcandidate
    obtain ⟨tag, hopens, hstop⟩ := hcandidate
    exact ⟨_, (occurs_isOpeningOf_iff hlabels).mpr ⟨tag, hopens, rfl⟩, (hends tag).mp hstop⟩

theorem Candidate.isMatch (hlabels : ∀ name ∈ shape.labels, IsLabel name)
    (hnesting : e.nesting = .nearest) {start stop : Nat} {tag : Opening}
    (hcandidate : Candidate e shape budget bytes start tag stop) :
    IsMatch shape bytes ⟨start, stop⟩ :=
  (isMatch_iff_exists_candidate hlabels hnesting).mpr ⟨tag, hcandidate⟩

theorem IsMatch.exists_candidate (hlabels : ∀ name ∈ shape.labels, IsLabel name) {found : Span}
    (hmatch : IsMatch shape bytes found) :
    ∃ tag, Candidate ⟨0, .nearest⟩ shape none bytes found.start tag found.stop :=
  (isMatch_iff_exists_candidate hlabels rfl).mp hmatch

theorem IsMatch.occurs_isElement (hlabels : ∀ name ∈ shape.labels, IsLabel name) {found : Span}
    (hmatch : IsMatch shape bytes found) :
    Occurs (IsElement false shape) bytes found.start found.stop := by
  obtain ⟨tag, hcandidate⟩ := hmatch.exists_candidate hlabels
  exact hcandidate.occurs_isElement hlabels

/-- At each offset there is at most one match. -/
theorem IsMatch.unique (hlabels : ∀ name ∈ shape.labels, IsLabel name) {left right : Span}
    (hleft : IsMatch shape bytes left) (hright : IsMatch shape bytes right)
    (hstart : left.start = right.start) : left = right := by
  obtain ⟨leftTag, hleftCandidate⟩ := hleft.exists_candidate hlabels
  obtain ⟨rightTag, hrightCandidate⟩ := hright.exists_candidate hlabels
  rw [hstart] at hleftCandidate
  have hstop : left.stop = right.stop := (hleftCandidate.unique hrightCandidate).2
  calc
    left = ⟨left.start, left.stop⟩ := rfl
    _ = ⟨right.start, right.stop⟩ := by rw [hstart, hstop]
    _ = right := rfl

theorem IsMatch.start_lt_stop (hlabels : ∀ name ∈ shape.labels, IsLabel name) {found : Span}
    (hmatch : IsMatch shape bytes found) : found.start < found.stop :=
  (bracketed_isElement false shape).start_lt_stop (hmatch.occurs_isElement hlabels)

theorem IsMatch.stop_le_length (hlabels : ∀ name ∈ shape.labels, IsLabel name) {found : Span}
    (hmatch : IsMatch shape bytes found) : found.stop ≤ bytes.length :=
  (bracketed_isElement false shape).stop_le_length (hmatch.occurs_isElement hlabels)

/-! ## The list of matches -/

theorem Matches.isMatch {pos : Nat} {spans : List Span} (hspans : Matches shape bytes pos spans) :
    ∀ found ∈ spans, IsMatch shape bytes found := by
  induction hspans with
  | done => simp
  | next hpos hmatch hleast hrest ih =>
      intro other hmem
      rcases List.mem_cons.mp hmem with rfl | hmem
      · exact hmatch
      · exact ih other hmem

theorem Matches.unique (hlabels : ∀ name ∈ shape.labels, IsLabel name) {pos : Nat}
    {left right : List Span} (hleft : Matches shape bytes pos left)
    (hright : Matches shape bytes pos right) : right = left := by
  induction hleft generalizing right with
  | done hnone =>
      cases hright with
      | done => rfl
      | next hpos hmatch => exact absurd hmatch (hnone _ hpos)
  | @next pos found rest hpos hmatch hleast hrest ih =>
      cases hright with
      | done hnone => exact absurd hmatch (hnone _ hpos)
      | @next _ other more hotherPos hother hotherLeast hmore =>
          have hstart : found.start = other.start := by
            apply Nat.le_antisymm
            · exact Nat.not_lt.mp fun hlt => hleast other hotherPos hlt hother
            · exact Nat.not_lt.mp fun hlt => hotherLeast found hpos hlt hmatch
          have hsame := hmatch.unique hlabels hother hstart
          subst hsame
          rw [ih hmore]

/-- An offset at which nothing matches can be passed over. -/
theorem Matches.of_succ {pos : Nat} {spans : List Span}
    (hnone : ∀ stop, ¬ IsMatch shape bytes ⟨pos, stop⟩)
    (hspans : Matches shape bytes (pos + 1) spans) : Matches shape bytes pos spans := by
  have hlater : ∀ other : Span, pos ≤ other.start → IsMatch shape bytes other →
      pos + 1 ≤ other.start := by
    intro other hpos hother
    apply Nat.lt_of_le_of_ne hpos
    intro heq
    subst heq
    exact hnone other.stop hother
  cases hspans with
  | done hdone =>
      apply Matches.done
      intro other hpos hother
      exact hdone other (hlater other hpos hother) hother
  | next hpos hmatch hleast hrest =>
      apply Matches.next (Nat.le_of_succ_le hpos) hmatch _ hrest
      intro other hotherPos hlt hother
      exact hleast other (hlater other hotherPos hother) hlt hother

/-- A nearest scan goes through the matches and keeps some of them. -/
theorem Course.exists_matches (hlabels : ∀ name ∈ shape.labels, IsLabel name)
    (hnesting : e.nesting = .nearest) {pos : Nat} {spans : List Span}
    (hcourse : Course e shape budget bytes pos spans) :
    ∃ found, Matches shape bytes pos found ∧ spans = found.filter (e.keepsSpan bytes) := by
  have hhere : ∀ {start : Nat} (other : Span), start ≤ other.start → other.start < start →
      ¬ IsMatch shape bytes other := fun other hle hlt => absurd hlt (Nat.not_lt.mpr hle)
  induction hcourse with
  | @done pos hend =>
      refine ⟨[], .done ?_, rfl⟩
      intro other hpos hmatch
      have hlt := hmatch.start_lt_stop hlabels
      have hle := hmatch.stop_le_length hlabels
      omega
  | @pass pos spans hnone hrest ih =>
      obtain ⟨found, hfound, hfilter⟩ := ih
      refine ⟨found, hfound.of_succ ?_, hfilter⟩
      intro stop hmatch
      obtain ⟨tag, hcandidate⟩ := (isMatch_iff_exists_candidate hlabels hnesting).mp hmatch
      exact hnone tag stop hcandidate
  | @keep pos tag stop spans hcandidate hkeeps hrest ih =>
      obtain ⟨found, hfound, hfilter⟩ := ih
      have hmatch := hcandidate.isMatch hlabels hnesting
      refine ⟨⟨pos, stop⟩ :: found, .next (Nat.le_refl pos) hmatch hhere hfound, ?_⟩
      rw [List.filter_cons_of_pos hkeeps, hfilter]
  | @reject pos tag stop spans hcandidate hrejects hrest ih =>
      obtain ⟨found, hfound, hfilter⟩ := ih
      rw [resume, hnesting] at hfound
      have hmatch := hcandidate.isMatch hlabels hnesting
      refine ⟨⟨pos, stop⟩ :: found, .next (Nat.le_refl pos) hmatch hhere hfound, ?_⟩
      rw [List.filter_cons_of_neg (Bool.eq_false_iff.mp hrejects), hfilter]

end Positions

/-- The matches of a text are listed once, for all bounds. -/
theorem exists_matches_spans {shape : Shape} (hlabels : ∀ name ∈ shape.labels, IsLabel name)
    (bytes : Bytes) :
    ∃ found, Matches shape bytes 0 found ∧ ∀ maxLength,
      (⟨maxLength, .nearest⟩ : Extractor).spans shape bytes =
        found.filter ((⟨maxLength, .nearest⟩ : Extractor).keepsSpan bytes) := by
  have hscan : ∀ maxLength, ∃ found, Matches shape bytes 0 found ∧
      (⟨maxLength, .nearest⟩ : Extractor).spans shape bytes =
        found.filter ((⟨maxLength, .nearest⟩ : Extractor).keepsSpan bytes) :=
    fun maxLength => (course_spans hlabels).exists_matches hlabels rfl
  obtain ⟨found, hfound, -⟩ := hscan 0
  refine ⟨found, hfound, ?_⟩
  intro maxLength
  obtain ⟨others, hothers, hfilter⟩ := hscan maxLength
  rw [← hfound.unique hlabels hothers]
  exact hfilter

/-- A match is cut out as the text that it takes up. -/
theorem IsMatch.isSlice_snippetAt {shape : Shape} (hlabels : ∀ name ∈ shape.labels, IsLabel name)
    {text : String} {span : Span} (hmatch : IsMatch shape (Utf8.encode text) span) :
    IsSlice text span (snippetAt text span) := by
  obtain ⟨piece, hslice, -⟩ := exists_slice_of_isElement (hmatch.occurs_isElement hlabels)
  exact hslice.snippetAt_eq ▸ hslice

theorem filter_length_le_of_le {less more : Nat} (hle : less ≤ more) (pieces : List String) :
    (pieces.filter fun piece => 10 < piece.length ∧ piece.length ≤ more).filter
        (fun piece => piece.length ≤ less) =
      pieces.filter fun piece => 10 < piece.length ∧ piece.length ≤ less := by
  rw [List.filter_filter]
  apply List.filter_congr
  intro piece _
  rw [← Bool.decide_and, decide_eq_decide]
  omega

/-- The nearest scan emits the matches of the non-greedy pattern that are within the
bounds.  The matches do not depend on the bound, so that a smaller bound filters what
a larger one lets through. -/
theorem nearest_snippets_eq_filter {shape : Shape} (hshape : shape ∈ shapes) (text : String) :
    (∃ spans pieces,
      (∀ others, Matches shape (Utf8.encode text) 0 others ↔ others = spans) ∧
        List.Forall₂ (IsSlice text) spans pieces ∧
        ∀ maxLength, (⟨maxLength, .nearest⟩ : Extractor).snippets shape text =
          pieces.filter fun piece => 10 < piece.length ∧ piece.length ≤ maxLength) ∧
      ∀ less more, less ≤ more →
        (⟨less, .nearest⟩ : Extractor).snippets shape text =
          ((⟨more, .nearest⟩ : Extractor).snippets shape text).filter
            fun piece => piece.length ≤ less := by
  have hlabels := isLabel_of_mem_shapes hshape
  obtain ⟨spans, hmatches, hspans⟩ := exists_matches_spans hlabels (Utf8.encode text)
  have hslice : ∀ span ∈ spans, IsSlice text span (snippetAt text span) :=
    fun span hmem => (hmatches.isMatch span hmem).isSlice_snippetAt hlabels
  have hsnippets : ∀ maxLength, (⟨maxLength, .nearest⟩ : Extractor).snippets shape text =
      (spans.map (snippetAt text)).filter
        fun piece => 10 < piece.length ∧ piece.length ≤ maxLength := by
    intro maxLength
    rw [snippets_eq_map, hspans, List.filter_map]
    apply congrArg
    apply List.filter_congr
    intro span hmem
    rw [Bool.eq_iff_iff, (hslice span hmem).keepsSpan_iff]
    simp
  constructor
  · refine ⟨spans, spans.map (snippetAt text), ?_, ?_, hsnippets⟩
    · intro others
      constructor
      · exact hmatches.unique hlabels
      · intro heq
        rw [heq]
        exact hmatches
    · rw [List.forall₂_map_right_iff, List.forall₂_same]
      exact hslice
  · intro less more hle
    rw [hsnippets, hsnippets, filter_length_le_of_le hle]

/-- Headings end at the first closing tag of any heading, and the last match is too short. -/
theorem nearest_snippets_eq_filter_of_headings :
    let headings : Shape := .paired ["h1", "h2", "h3", "h4", "h5", "h6"]
    let text := "<h1>Start</h2> <H2 id=a>Now <h3>the rest</h1> and </h2><h4>é</h4>"
    let start := "<h1>Start</h2>"
    let rest := "<H2 id=a>Now <h3>the rest</h1>"
    headings ∈ shapes ∧ 14 ≤ 40 ∧
      (⟨40, .nearest⟩ : Extractor).snippets headings text = [start, rest] ∧
      (⟨14, .nearest⟩ : Extractor).snippets headings text =
        [start, rest].filter fun piece => piece.length ≤ 14 := by
  intro headings text start rest
  have hshape : headings ∈ shapes := by decide
  have hwide : (⟨40, .nearest⟩ : Extractor).snippets headings text = [start, rest] := by
    decide +kernel
  have hnarrow := (nearest_snippets_eq_filter hshape text).2 14 40 (by decide)
  rw [hwide] at hnarrow
  exact ⟨hshape, by decide, hwide, hnarrow⟩

end MarkupSeeds.Extractor
