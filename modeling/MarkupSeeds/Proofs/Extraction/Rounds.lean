import MarkupSeeds.Proofs.Extraction.Element
import MarkupSeeds.Proofs.Markup.Rounds

/-!
# The scan round by round

A scan is a loop over offsets as well.  A round of it looks for the next `<` and for an element
there, cuts the element out of the text if there is one, and moves on.  Offsets count bytes and
tags are recognised by bytes, but an element begins and ends with bytes that are characters, so
that a piece of the text can always be cut out.
-/

namespace MarkupSeeds.Extractor

open Markup Loop

/-- Where a scan stands: the offset at which it goes on, and the spans that it has kept. -/
structure Scanning where
  pos : Nat
  kept : List Span

/-- One round of a scan. -/
def scanRound (e : Extractor) (shape : Shape) (budget : Option Nat) (bytes : Bytes)
    (state : Scanning) : Round Scanning (List Span) :=
  match ltFrom? bytes state.pos with
  | none => .done state.kept
  | some start =>
    match openingAt? shape.labels bytes start with
    | none => .again { state with pos := start + 1 }
    | some tag =>
      match e.stop? shape budget start tag (bytes.drop (start + 1 + tag.length)) with
      | none => .again { state with pos := start + 1 }
      | some stop =>
        if e.keepsSpan bytes ⟨start, stop⟩ then .again ⟨stop, state.kept ++ [⟨start, stop⟩]⟩
        else .again { state with pos := e.resume start tag stop }

section Rounds

variable {e : Extractor} {shape : Shape} {budget : Option Nat} {bytes : Bytes}

/-! ## The scan is the loop -/

theorem scanRound_of_candidate {start stop : Nat} {tag : Opening} (kept : List Span)
    (hcandidate : Candidate e shape budget bytes start tag stop) :
    e.scanRound shape budget bytes ⟨start, kept⟩ =
      if e.keepsSpan bytes ⟨start, stop⟩ then .again ⟨stop, kept ++ [⟨start, stop⟩]⟩
      else .again ⟨e.resume start tag stop, kept⟩ := by
  obtain ⟨tail, hdrop, -⟩ := openingAt?_eq_some_iff.mp hcandidate.opens
  simp only [scanRound, ltFrom?_of_lt hdrop, hcandidate.opens, hcandidate.ends]

theorem scanRound_of_no_candidate {start : Nat} {tail : Bytes} (kept : List Span)
    (hdrop : bytes.drop start = lt :: tail)
    (hnone : ∀ tag stop, ¬ Candidate e shape budget bytes start tag stop) :
    e.scanRound shape budget bytes ⟨start, kept⟩ = .again ⟨start + 1, kept⟩ := by
  simp only [scanRound, ltFrom?_of_lt hdrop]
  cases hopens : openingAt? shape.labels bytes start with
  | none => rfl
  | some tag =>
      cases hends : e.stop? shape budget start tag (bytes.drop (start + 1 + tag.length)) with
      | none => simp only [hends]
      | some stop => exact absurd ⟨hopens, hends⟩ (hnone tag stop)

/-- The rounds from an offset on add the spans of the course from there. -/
theorem Course.ends {pos : Nat} {spans : List Span}
    (hcourse : Course e shape budget bytes pos spans) (kept : List Span) :
    Ends (e.scanRound shape budget bytes) ⟨pos, kept⟩ (kept ++ spans) := by
  induction hcourse generalizing kept with
  | done hend =>
      apply Ends.done
      rw [scanRound, ltFrom?_of_drop_eq_nil (List.drop_eq_nil_of_le hend), List.append_nil]
  | @pass pos spans hnone hrest ih =>
      cases hdrop : bytes.drop pos with
      | nil =>
          -- A course may pass on behind the text, where the loop has nothing left to look for.
          have hbehind : bytes.drop (pos + 1) = [] := by
            rw [← List.drop_drop, hdrop, List.drop_nil]
          refine Ends.congr ?_ (ih kept)
          rw [scanRound, scanRound, ltFrom?_of_drop_eq_nil hdrop, ltFrom?_of_drop_eq_nil hbehind]
      | cons b tail =>
          by_cases hb : b = lt
          · subst hb
            exact Ends.again (scanRound_of_no_candidate kept hdrop hnone) (ih kept)
          · refine Ends.congr ?_ (ih kept)
            rw [scanRound, scanRound, ltFrom?_of_ne hdrop hb]
  | @keep pos tag stop spans hcandidate hkeeps hrest ih =>
      have hround := scanRound_of_candidate kept hcandidate
      rw [if_pos hkeeps] at hround
      have hends := ih (kept ++ [⟨pos, stop⟩])
      rw [List.append_assoc, List.singleton_append] at hends
      exact Ends.again hround hends
  | @reject pos tag stop spans hcandidate hrejects hrest ih =>
      have hround := scanRound_of_candidate kept hcandidate
      rw [hrejects, if_neg Bool.false_ne_true] at hround
      exact Ends.again hround (ih kept)

/-! ## What a round can do -/

/-- What a round can do that does not end the scan. -/
inductive Proceeds (e : Extractor) (shape : Shape) (budget : Option Nat) (bytes : Bytes)
    (start : Nat) (kept : List Span) : Scanning → Prop
  /-- No tag of the shape, or none that is closed. -/
  | passes : Proceeds e shape budget bytes start kept ⟨start + 1, kept⟩
  | keeps {tag stop} (hcandidate : Candidate e shape budget bytes start tag stop) :
      Proceeds e shape budget bytes start kept ⟨stop, kept ++ [⟨start, stop⟩]⟩
  | rejects {tag stop} (hcandidate : Candidate e shape budget bytes start tag stop) :
      Proceeds e shape budget bytes start kept ⟨e.resume start tag stop, kept⟩

theorem proceeds_of_scanRound {state next : Scanning}
    (hround : e.scanRound shape budget bytes state = .again next) :
    ∃ start, ltFrom? bytes state.pos = some start ∧
      Proceeds e shape budget bytes start state.kept next := by
  rw [scanRound] at hround
  split at hround
  · cases hround
  rename_i start hstart
  refine ⟨start, hstart, ?_⟩
  split at hround
  · cases hround
    exact .passes
  rename_i tag hopens
  split at hround
  · cases hround
    exact .passes
  rename_i stop hends
  split at hround
  · cases hround
    exact .keeps ⟨hopens, hends⟩
  · cases hround
    exact .rejects ⟨hopens, hends⟩

theorem Candidate.resume_le_stop (hlabels : ∀ name ∈ shape.labels, IsLabel name) {start stop : Nat}
    {tag : Opening} (hcandidate : Candidate e shape budget bytes start tag stop) :
    e.resume start tag stop ≤ stop := by
  rw [resume]
  cases e.nesting with
  | nearest => exact Nat.le_refl stop
  | balanced => exact hcandidate.le_stop hlabels

theorem advances_scanRound (hlabels : ∀ name ∈ shape.labels, IsLabel name) (budget : Option Nat)
    (bytes : Bytes) : Advances (e.scanRound shape budget bytes) Scanning.pos bytes.length := by
  intro state next hround
  obtain ⟨start, hstart, hproceeds⟩ := proceeds_of_scanRound hround
  obtain ⟨hle, hlt⟩ := bounds_of_ltFrom? hstart
  cases hproceeds with
  | passes => exact ⟨Nat.lt_succ_of_le hle, hlt⟩
  | @keeps tag stop hcandidate =>
      have hoccurs := hcandidate.occurs_isElement hlabels
      exact (bracketed_isElement _ shape).leads_on hoccurs hle
  | @rejects tag stop hcandidate =>
      have hoccurs := hcandidate.occurs_isElement hlabels
      have hend := (bracketed_isElement _ shape).stop_le_length hoccurs
      exact ⟨Nat.lt_of_le_of_lt hle (hcandidate.lt_resume hlabels),
        Nat.le_trans (hcandidate.resume_le_stop hlabels) hend⟩

end Rounds

/-- What it takes to cut an element out of a text: its offsets are in order and in the text, the
text can be cut at both of its ends, and its name is one of those that were looked for. -/
structure CanBeCut (shape : Shape) (text : String) (start : Nat) (tag : Opening) (stop : Nat) :
    Prop where
  start_lt : start < start + 1 + tag.length
  tag_le : start + 1 + tag.length ≤ stop
  stop_le : stop ≤ (Utf8.encode text).length
  slice : ∃ piece, IsSlice text ⟨start, stop⟩ piece
  name : ∃ index, ∃ hindex : index < shape.labels.length, shape.labels[index] = tag.name

theorem Candidate.canBeCut {e : Extractor} {shape : Shape} {budget : Option Nat} {text : String}
    (hlabels : ∀ name ∈ shape.labels, IsLabel name) {start stop : Nat} {tag : Opening}
    (hcandidate : Candidate e shape budget (Utf8.encode text) start tag stop) :
    CanBeCut shape text start tag stop := by
  have hoccurs := hcandidate.occurs_isElement hlabels
  obtain ⟨piece, hslice, -⟩ := exists_slice_of_isElement hoccurs
  exact {
    start_lt := (bracketed_isOpening tag.name).start_lt_stop hcandidate.occurs_opening
    tag_le := hcandidate.le_stop hlabels
    stop_le := (bracketed_isElement _ shape).stop_le_length hoccurs
    slice := ⟨piece, hslice⟩
    name := List.getElem_of_mem hcandidate.name_mem }

/-- Whatever the text, all elements that a scan comes to can be cut out of it, and the loops of the
scan and of both searches move on within the text until they end with what they look for.  The
balanced search closes an element only while one is open. -/
theorem rounds_stay_in_text (e : Extractor) (text : String) {shape : Shape}
    (hshape : shape ∈ shapes) :
    let bytes := Utf8.encode text
    (∀ start tag stop, Candidate e shape (some e.budget) bytes start tag stop →
        CanBeCut shape text start tag stop) ∧
      (Advances (e.scanRound shape (some e.budget) bytes) Scanning.pos bytes.length ∧
        Ends (e.scanRound shape (some e.budget) bytes) ⟨0, []⟩ (e.spans shape bytes)) ∧
      (Advances (nearestRound shape.labels bytes) id bytes.length ∧
        ∀ pos, Ends (nearestRound shape.labels bytes) pos
          (nearestClose? shape.labels pos (bytes.drop pos))) ∧
      ∀ name ∈ shape.labels, ∀ limit,
        Advances (balancedRound name limit bytes) Balancing.pos bytes.length ∧
          ∀ pos, Ends (balancedRound name limit bytes) ⟨1, pos⟩
              (balancedClose? name limit 1 pos (bytes.drop pos)) ∧
            ∀ state, Reaches (balancedRound name limit bytes) ⟨1, pos⟩ state → 1 ≤ state.depth := by
  intro bytes
  have hlabels := isLabel_of_mem_shapes hshape
  refine ⟨fun start tag stop hcandidate => hcandidate.canBeCut hlabels, ?_, ?_, ?_⟩
  · exact ⟨advances_scanRound hlabels _ bytes, (course_spans hlabels).ends []⟩
  · exact ⟨advances_nearestRound shape.labels bytes, fun pos => ends_nearestClose? rfl⟩
  · intro name hname limit
    refine ⟨advances_balancedRound (hlabels name hname) limit bytes, fun pos => ?_⟩
    exact ⟨ends_balancedClose? rfl, fun state hreaches => depth_pos_of_reaches hreaches⟩

/-- A torn text: an element between characters beyond ASCII, with another one open in it. -/
theorem rounds_stay_in_text_of_torn_text :
    let e : Extractor := {}
    let divisions : Shape := .paired ["div"]
    let name := Utf8.encode "div"
    let text := "<é<DIV\n>naïve <div>✓</div ></div>ü</p><div"
    let bytes := Utf8.encode text
    divisions ∈ shapes ∧ Candidate e divisions (some e.budget) bytes 3 ⟨name, 5⟩ 37 ∧
      CanBeCut divisions text 3 ⟨name, 5⟩ 37 ∧
      Reaches (balancedRound name none bytes) ⟨1, 9⟩ ⟨2, 21⟩ ∧ 1 ≤ (⟨2, 21⟩ : Balancing).depth := by
  intro e divisions name text bytes
  have hshape : divisions ∈ shapes := by decide
  have hname : name ∈ divisions.labels := by decide
  have hcandidate : Candidate e divisions (some e.budget) bytes 3 ⟨name, 5⟩ 37 :=
    ⟨by decide +kernel, by decide +kernel⟩
  have hround : balancedRound name none bytes ⟨1, 9⟩ = .again ⟨2, 21⟩ := by decide +kernel
  have hreaches : Reaches (balancedRound name none bytes) ⟨1, 9⟩ ⟨2, 21⟩ :=
    Relation.ReflTransGen.single hround
  obtain ⟨hcut, -, -, hbalanced⟩ := rounds_stay_in_text e text hshape
  exact ⟨hshape, hcandidate, hcut 3 ⟨name, 5⟩ 37 hcandidate, hreaches,
    ((hbalanced name hname none).2 9).2 ⟨2, 21⟩ hreaches⟩

end MarkupSeeds.Extractor
