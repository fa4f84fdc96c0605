import MarkupSeeds.Proofs.Extraction.FixedPoint

/-!
# Extraction and the text around

A tag begins with `<` and ends with `>`.  Behind a text without `<` and before one without `>`
a text therefore keeps the tags that it has and gets no others, not even where its end and what
stands behind it look like one.  The limit on the search counts from the start of a span, so it
moves along as well.  The spans are shifted and cut out the same snippets.
-/

namespace MarkupSeeds

open Markup

/-- The span that takes up the same bytes behind a front of the given length. -/
def Span.shift (front : Nat) (span : Span) : Span := ⟨front + span.start, front + span.stop⟩

theorem IsSlice.shift {text piece : String} {span : Span} (hslice : IsSlice text span piece)
    (front rest : String) :
    IsSlice (front ++ text ++ rest) (span.shift (Utf8.encode front).length) piece := by
  obtain ⟨before, behind, rfl, hstart, hstop⟩ := hslice
  refine ⟨front ++ before, behind ++ rest, ?_, ?_, ?_⟩
  · simp only [String.append_assoc]
  · rw [Utf8.encode_append, List.length_append, hstart]
    rfl
  · rw [String.append_assoc, Utf8.encode_append, List.length_append, hstop]
    rfl

section Parts

variable {P : Bytes → Prop} {front piece rest : Bytes} {pos start stop : Nat}

/-- What begins with `<` and ends with `>` lies within a piece that has no `<` before it and no
`>` behind it. -/
theorem Occurs.exists_within (hhead : Bracketed P)
    (hlast : ∀ found, P found → found.getLast? = some gt) (hfront : lt ∉ front) (hrest : gt ∉ rest)
    (hoccurs : Occurs P (front ++ (piece ++ rest)) start stop) :
    ∃ first last, start = front.length + first ∧ stop = front.length + last ∧
      last ≤ piece.length ∧ Occurs P piece first last := by
  have hlt := hhead.getElem?_eq hoccurs
  have hgt := hoccurs.getElem?_last hlast
  have horder := hhead.start_lt_stop hoccurs
  have hstart : front.length ≤ start := by
    by_contra hbefore
    rw [List.getElem?_append_left (by omega)] at hlt
    exact hfront (List.mem_of_getElem? hlt)
  have hstop : stop ≤ front.length + piece.length := by
    by_contra hbehind
    rw [List.getElem?_append_right (by omega), List.getElem?_append_right (by omega)] at hgt
    exact hrest (List.mem_of_getElem? hgt)
  obtain ⟨first, rfl⟩ := Nat.exists_eq_add_of_le hstart
  obtain ⟨last, rfl⟩ := Nat.exists_eq_add_of_le (Nat.le_trans hstart (Nat.le_of_lt horder))
  have hwithin : last ≤ piece.length := by omega
  exact ⟨first, last, rfl, rfl, hwithin, (occurs_append_iff hwithin).mp hoccurs⟩

theorem FirstOccurs.append (hhead : Bracketed P)
    (hlast : ∀ found, P found → found.getLast? = some gt) (hfront : lt ∉ front) (hrest : gt ∉ rest)
    (hfirst : FirstOccurs P piece pos stop) :
    FirstOccurs P (front ++ (piece ++ rest)) (front.length + pos) (front.length + stop) := by
  obtain ⟨start, hpos, hoccurs, hbefore⟩ := hfirst
  have hstop := hhead.stop_le_length hoccurs
  refine ⟨front.length + start, by omega, (occurs_append_iff hstop).mpr hoccurs, ?_⟩
  intro other finish hother hlt hearlier
  obtain ⟨first, last, rfl, rfl, -, hwithin⟩ :=
    hearlier.exists_within hhead hlast hfront hrest
  exact hbefore first last (by omega) (by omega) hwithin

end Parts

namespace Extractor

section Positions

variable {e : Extractor} {shape : Shape} {front piece rest : Bytes} {start stop : Nat}
  {tag : Opening}

theorem Candidate.stop_le_length (hlabels : ∀ name ∈ shape.labels, IsLabel name)
    {budget : Option Nat} (hcandidate : Candidate e shape budget piece start tag stop) :
    stop ≤ piece.length :=
  (bracketed_isElement _ shape).stop_le_length (hcandidate.occurs_isElement hlabels)

/-- A span takes up the same bytes of the piece, wherever the piece stands. -/
theorem keepsSpan_shift (e : Extractor) (hstart : start ≤ stop) (hstop : stop ≤ piece.length) :
    e.keepsSpan (front ++ (piece ++ rest)) ⟨front.length + start, front.length + stop⟩ =
      e.keepsSpan piece ⟨start, stop⟩ := by
  have hlength : front.length + stop - (front.length + start) = stop - start :=
    Nat.add_sub_add_left ..
  rw [keepsSpan, keepsSpan, hlength, List.drop_length_add_append,
    List.drop_append_of_le_length (Nat.le_trans hstart hstop), List.take_append_of_le_length]
  rw [List.length_drop]
  exact Nat.sub_le_sub_right hstop _

theorem resume_shift (e : Extractor) (offset start stop : Nat) (tag : Opening) :
    e.resume (offset + start) tag (offset + stop) = offset + e.resume start tag stop := by
  rw [resume, resume]
  cases e.nesting with
  | nearest => rfl
  | balanced =>
      dsimp only
      omega

section Surrounded

variable (hlabels : ∀ name ∈ shape.labels, IsLabel name) (hfront : lt ∉ front) (hrest : gt ∉ rest)

include hlabels hfront hrest

theorem Candidate.append (hcandidate : Candidate e shape none piece start tag stop) :
    Candidate e shape none (front ++ (piece ++ rest)) (front.length + start) tag
      (front.length + stop) := by
  have hstop := hcandidate.stop_le_length hlabels
  have hle := hcandidate.le_stop hlabels
  have hbody : front.length + start + 1 + tag.length = front.length + (start + 1 + tag.length) := by
    omega
  have hopens : openingAt? shape.labels (front ++ (piece ++ rest)) (front.length + start) =
      some tag := (openingAt?_append_iff hlabels (by omega)).mpr hcandidate.opens
  cases hkind : shape.kind with
  | void =>
      have hend := hcandidate.stop_eq_of_void hkind
      exact .of_void hopens hkind (by omega)
  | paired =>
      cases hnesting : e.nesting with
      | nearest =>
          apply Candidate.of_firstOccurs hlabels hopens hkind hnesting
          rw [hbody]
          exact (hcandidate.firstOccurs_of_nearest hlabels hkind hnesting).append
            (bracketed_isClosingOf false _) (fun _ => getLast?_of_isClosingOf) hfront hrest
      | balanced =>
          apply Candidate.of_balances hlabels hopens hkind hnesting
          rw [hbody, occurs_append_iff hstop]
          exact hcandidate.occurs_balances hlabels hkind hnesting

/-- The candidates of a surrounded piece are those of the piece. -/
theorem Candidate.exists_within
    (hcandidate : Candidate e shape none (front ++ (piece ++ rest)) start tag stop) :
    ∃ first last, start = front.length + first ∧ stop = front.length + last ∧
      Candidate e shape none piece first tag last := by
  obtain ⟨first, last, rfl, rfl, hlast, -⟩ :=
    (hcandidate.occurs_isElement hlabels).exists_within (bracketed_isElement _ shape)
      (fun _ => getLast?_of_isElement) hfront hrest
  exact ⟨first, last, rfl, rfl, hcandidate.of_append hlabels hlast⟩

/-! ## With the limit -/

variable (hfits : (front ++ (piece ++ rest)).length ≤ Size.largest)

include hfits

omit hlabels hfront hrest in
/-- A limit that counts from the start moves along with it. -/
theorem le_limit_shift_iff {limit : Nat} (hstop : stop ≤ piece.length) :
    front.length + stop ≤ Size.satAdd (front.length + start) limit ↔
      stop ≤ Size.satAdd start limit := by
  rw [List.length_append, List.length_append] at hfits
  rw [Size.satAdd, Size.satAdd]
  omega

theorem Candidate.append_of_limit {limit : Nat}
    (hcandidate : Candidate e shape (some limit) piece start tag stop) :
    Candidate e shape (some limit) (front ++ (piece ++ rest)) (front.length + start) tag
      (front.length + stop) := by
  have hstop := hcandidate.stop_le_length hlabels
  obtain ⟨hwhole, hlimit⟩ := candidate_some_budget_iff.mp hcandidate
  apply candidate_some_budget_iff.mpr
  refine ⟨hwhole.append hlabels hfront hrest, ?_⟩
  intro hkind hnesting
  exact (le_limit_shift_iff hfits hstop).mpr (hlimit hkind hnesting)

theorem Candidate.exists_within_of_limit {limit : Nat}
    (hcandidate : Candidate e shape (some limit) (front ++ (piece ++ rest)) start tag stop) :
    ∃ first last, start = front.length + first ∧ stop = front.length + last ∧
      Candidate e shape (some limit) piece first tag last := by
  obtain ⟨hwhole, hlimit⟩ := candidate_some_budget_iff.mp hcandidate
  obtain ⟨first, last, rfl, rfl, hwithin⟩ := hwhole.exists_within hlabels hfront hrest
  have hlast := hwithin.stop_le_length hlabels
  refine ⟨first, last, rfl, rfl, candidate_some_budget_iff.mpr ⟨hwithin, ?_⟩⟩
  intro hkind hnesting
  exact (le_limit_shift_iff hfits hlast).mp (hlimit hkind hnesting)

/-- Behind the last offset of the piece nothing is found any more. -/
theorem Course.done_of_surrounded {limit pos : Nat} (hend : piece.length ≤ pos) :
    Course e shape (some limit) (front ++ (piece ++ rest)) (front.length + pos) [] := by
  apply Course.pass_to (Nat.le_max_left _ (front ++ (piece ++ rest)).length)
  · intro p hpos hlater tag stop hcandidate
    obtain ⟨first, last, rfl, rfl, hwithin⟩ :=
      hcandidate.exists_within_of_limit hlabels hfront hrest hfits
    have hlt := hwithin.start_lt_length
    omega
  · exact .done (Nat.le_max_right ..)

/-- The scan of a surrounded piece takes the course of the scan of the piece. -/
theorem Course.append {limit pos : Nat} {spans : List Span}
    (hcourse : Course e shape (some limit) piece pos spans) :
    Course e shape (some limit) (front ++ (piece ++ rest)) (front.length + pos)
      (spans.map (Span.shift front.length)) := by
  have hkeeps : ∀ {start tag stop}, Candidate e shape (some limit) piece start tag stop →
      e.keepsSpan (front ++ (piece ++ rest)) ⟨front.length + start, front.length + stop⟩ =
        e.keepsSpan piece ⟨start, stop⟩ := by
    intro start tag stop hcandidate
    have hle := hcandidate.le_stop hlabels
    exact keepsSpan_shift e (by omega) (hcandidate.stop_le_length hlabels)
  induction hcourse with
  | done hend => exact .done_of_surrounded hlabels hfront hrest hfits hend
  | pass hnone _ ih =>
      refine .pass ?_ ih
      intro tag stop hcandidate
      obtain ⟨first, last, hfirst, rfl, hwithin⟩ :=
        hcandidate.exists_within_of_limit hlabels hfront hrest hfits
      exact hnone tag last (Nat.add_left_cancel hfirst ▸ hwithin)
  | keep hcandidate hkept _ ih =>
      have hshifted := hcandidate.append_of_limit hlabels hfront hrest hfits
      exact .keep hshifted ((hkeeps hcandidate).trans hkept) ih
  | reject hcandidate hrejected _ ih =>
      have hshifted := hcandidate.append_of_limit hlabels hfront hrest hfits
      refine .reject hshifted ((hkeeps hcandidate).trans hrejected) ?_
      rw [resume_shift]
      exact ih

theorem spans_append :
    e.spans shape (front ++ (piece ++ rest)) =
      (e.spans shape piece).map (Span.shift front.length) := by
  have hpiece := (course_spans hlabels).append (e := e) hlabels hfront hrest hfits
  have hwhole : Course e shape (some e.budget) (front ++ (piece ++ rest)) 0
      ((e.spans shape piece).map (Span.shift front.length)) := by
    apply Course.pass_to (Nat.zero_le (front.length + 0)) _ hpiece
    intro p _ hbefore tag stop hcandidate
    obtain ⟨first, last, rfl, rfl, -⟩ :=
      hcandidate.exists_within_of_limit hlabels hfront hrest hfits
    omega
  exact hwhole.unique (course_spans hlabels)

end Surrounded

end Positions

section Texts

variable {e : Extractor} {shape : Shape} {front text rest : String}
  (hfront : '<' ∉ front.toList) (hrest : '>' ∉ rest.toList)
  (hfits : (Utf8.encode (front ++ text ++ rest)).length ≤ Size.largest)

include hfront hrest hfits

theorem spans_surrounded (hlabels : ∀ name ∈ shape.labels, IsLabel name) :
    e.spans shape (Utf8.encode (front ++ text ++ rest)) =
      (e.spans shape (Utf8.encode text)).map (Span.shift (Utf8.encode front).length) := by
  have hopening : lt ∉ Utf8.encode front :=
    fun hmem => hfront (Utf8.mem_toList_of_mem_encode (by decide) hmem)
  have hclosing : gt ∉ Utf8.encode rest :=
    fun hmem => hrest (Utf8.mem_toList_of_mem_encode (by decide) hmem)
  rw [Utf8.encode_append, Utf8.encode_append, List.append_assoc] at hfits ⊢
  exact spans_append hlabels hopening hclosing hfits

theorem snippets_surrounded (hlabels : ∀ name ∈ shape.labels, IsLabel name) :
    e.snippets shape (front ++ text ++ rest) = e.snippets shape text := by
  rw [snippets_eq_map, snippets_eq_map, spans_surrounded hfront hrest hfits hlabels, List.map_map]
  apply List.map_congr_left
  intro span hmem
  have hslice := (finds_snippetAt hlabels hmem).slice
  exact (hslice.shift front rest).snippetAt_eq

/-- A text without `<` before a text and one without `>` behind it have no part in an
extraction.  The spans of each shape are those of the text, shifted by what stands before it. -/
theorem extract_surrounded (e : Extractor) :
    e.extract (front ++ text ++ rest) = e.extract text ∧
      ∀ shape ∈ shapes, e.spans shape (Utf8.encode (front ++ text ++ rest)) =
        (e.spans shape (Utf8.encode text)).map (Span.shift (Utf8.encode front).length) := by
  constructor
  · rw [extract_eq_flatMap, extract_eq_flatMap]
    apply List.flatMap_congr
    intro shape hshape
    exact snippets_surrounded hfront hrest hfits (isLabel_of_mem_shapes hshape)
  · intro shape hshape
    exact spans_surrounded hfront hrest hfits (isLabel_of_mem_shapes hshape)

end Texts

/-- The text begins and ends inside of tags, which what stands around it does not complete. -/
theorem extract_surrounded_by_fragments :
    let e : Extractor := ⟨30, .balanced⟩
    let paragraphs : Shape := .paired ["p"]
    let front := "é class='x'> one /p> "
    let text := "two> <p>three <p>four</p ></p> </p"
    let rest := " <p title='five' </p \n<"
    '<' ∉ front.toList ∧ '>' ∉ rest.toList ∧
      (Utf8.encode (front ++ text ++ rest)).length ≤ Size.largest ∧ paragraphs ∈ shapes ∧
      e.extract (front ++ text ++ rest) = ["<p>three <p>four</p ></p>"] ∧
      e.spans paragraphs (Utf8.encode (front ++ text ++ rest)) = [⟨22 + 5, 22 + 30⟩] := by
  intro e paragraphs front text rest
  have hfront : '<' ∉ front.toList := by decide
  have hrest : '>' ∉ rest.toList := by decide
  have hfits : (Utf8.encode (front ++ text ++ rest)).length ≤ Size.largest := by decide +kernel
  have hshape : paragraphs ∈ shapes := by decide
  have hsnippets : e.extract text = ["<p>three <p>four</p ></p>"] := by decide +kernel
  have hshifted : (e.spans paragraphs (Utf8.encode text)).map
      (Span.shift (Utf8.encode front).length) = [⟨22 + 5, 22 + 30⟩] := by decide +kernel
  obtain ⟨hextract, hspans⟩ := extract_surrounded hfront hrest hfits e
  exact ⟨hfront, hrest, hfits, hshape, hextract.trans hsnippets,
    (hspans paragraphs hshape).trans hshifted⟩

end Extractor

end MarkupSeeds
