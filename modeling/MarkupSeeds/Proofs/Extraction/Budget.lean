import MarkupSeeds.Proofs.Extraction.Completeness
import MarkupSeeds.Proofs.Extraction.Soundness

/-!
# The limit on the balanced search

The search for a balancing tag is cut off where a span is certainly too long.  The span
would be rejected either way, but the scan goes on at different offsets: behind the
opening tag if the span was found and rejected, and inside of the opening tag if it was
cut off.  The limit therefore shows where a snippet begins inside of the opening tag of
an element, and nowhere else.
-/

namespace MarkupSeeds

namespace Markup

/-- The first `>` behind the beginning of an opening tag is its last byte. -/
theorem throughGt?_of_occurs {names : List Bytes} (hlabels : ∀ name ∈ names, IsLabel name)
    {bytes : Bytes} {start stop : Nat} (hoccurs : Occurs (IsOpeningOf names) bytes start stop) :
    throughGt? (bytes.drop start) = some (stop - start) := by
  obtain ⟨piece, rest, hdrop, rfl, name, hname, hpiece⟩ := hoccurs
  rw [hdrop, hpiece.throughGt?_append (hlabels name hname), Nat.add_sub_cancel_left]

/-- An opening tag that begins inside of another one ends with it. -/
theorem stop_eq_of_inside {names : List Bytes} (hlabels : ∀ name ∈ names, IsLabel name)
    {bytes : Bytes} {start stop inner finish : Nat}
    (houter : Occurs (IsOpeningOf names) bytes start stop)
    (hinner : Occurs (IsOpeningOf names) bytes inner finish) (hstart : start ≤ inner)
    (hinside : inner < stop) : finish = stop := by
  have hlt := (bracketed_isOpeningOf names).start_lt_stop hinner
  have hrest := throughGt?_drop (throughGt?_of_occurs hlabels houter)
    (show inner - start < stop - start by omega)
  have hsum : start + (inner - start) = inner := by omega
  rw [List.drop_drop, hsum, throughGt?_of_occurs hlabels hinner, Option.some.injEq] at hrest
  omega

/-- No element ends inside of an opening tag. -/
theorem stop_le_of_isElement {names : List Bytes} (hlabels : ∀ name ∈ names, IsLabel name)
    {spaced : Bool} {shape : Shape} {bytes : Bytes} {start stop first last : Nat}
    (hopening : Occurs (IsOpeningOf names) bytes start stop)
    (helement : Occurs (IsElement spaced shape) bytes first last) (hbefore : start < last) :
    stop ≤ last := by
  have hlast := helement.getElem?_last fun _ => getLast?_of_isElement
  have hindex : start + (last - 1 - start) = last - 1 := by omega
  rw [← hindex, ← List.getElem?_drop] at hlast
  have hle := throughGt?_le_of_getElem? (throughGt?_of_occurs hlabels hopening) hlast
  omega

end Markup

namespace Extractor

open Markup

/-- The spans of a scan whose search for a balancing tag has no limit. -/
def unlimitedSpans (e : Extractor) (shape : Shape) (bytes : Bytes) : List Span :=
  e.scan shape none 0 bytes

/-- All snippets of a text if the search for a balancing tag has no limit. -/
def unlimitedExtract (e : Extractor) (text : String) : List String :=
  shapes.flatMap fun shape => (e.unlimitedSpans shape (Utf8.encode text)).map (snippetAt text)

/-- The offset lies between the `<` and the `>` of the opening tag of an element, however
long the element may be. -/
def InsideElementTag (e : Extractor) (shape : Shape) (bytes : Bytes) (p : Nat) : Prop :=
  ∃ start tag stop, Candidate e shape none bytes start tag stop ∧ start < p ∧
    p < start + 1 + tag.length

section Positions

variable {e : Extractor} {shape : Shape} {budget : Option Nat} {bytes : Bytes}

/-- A limit takes away the candidates of the balanced rule that end beyond it. -/
theorem candidate_some_budget_iff {limit start stop : Nat} {tag : Opening} :
    Candidate e shape (some limit) bytes start tag stop ↔
      Candidate e shape none bytes start tag stop ∧
        (shape.kind = .paired → e.nesting = .balanced → stop ≤ Size.satAdd start limit) := by
  have hends : ∀ body, e.stop? shape (some limit) start tag body = some stop ↔
      e.stop? shape none start tag body = some stop ∧
        (shape.kind = .paired → e.nesting = .balanced → stop ≤ Size.satAdd start limit) := by
    intro body
    cases hkind : shape.kind with
    | void => simp [stop?, hkind]
    | paired =>
        cases hnesting : e.nesting with
        | nearest => simp [stop?, hkind, hnesting]
        | balanced =>
            simp only [stop?, hkind, hnesting, Option.map_some, Option.map_none, true_imp_iff]
            exact balancedClose?_some_limit_iff
  constructor
  · intro hcandidate
    obtain ⟨hstop, hlimit⟩ := (hends _).mp hcandidate.ends
    exact ⟨⟨hcandidate.opens, hstop⟩, hlimit⟩
  · intro hfound
    exact ⟨hfound.1.opens, (hends _).mpr ⟨hfound.1.ends, hfound.2⟩⟩

/-- A scan that keeps nothing inside of an opening tag comes out right behind it. -/
theorem Course.behind_opening (hlabels : ∀ name ∈ shape.labels, IsLabel name)
    (hnesting : e.nesting = .balanced) {start stop pos : Nat} {spans : List Span}
    (hopening : Occurs (IsOpeningOf shape.labels) bytes start stop)
    (hcourse : Course e shape budget bytes pos spans) (hstart : start ≤ pos) (hstop : pos ≤ stop)
    (hfree : ∀ span ∈ spans, stop ≤ span.start) : Course e shape budget bytes stop spans := by
  induction hcourse with
  | done hend => exact .done (Nat.le_trans hend hstop)
  | @pass pos spans hnone hrest ih =>
      by_cases hbehind : pos = stop
      · subst hbehind
        exact .pass hnone hrest
      · exact ih (Nat.le_succ_of_le hstart) (by omega) hfree
  | @keep pos tag finish spans hcandidate hkeeps hrest ih =>
      have hbehind : pos = stop :=
        Nat.le_antisymm hstop (hfree ⟨pos, finish⟩ List.mem_cons_self)
      subst hbehind
      exact .keep hcandidate hkeeps hrest
  | @reject pos tag finish spans hcandidate hrejects hrest ih =>
      by_cases hbehind : pos = stop
      · subst hbehind
        exact .reject hcandidate hrejects hrest
      · have hresume : e.resume pos tag finish = stop := by
          rw [resume, hnesting]
          exact stop_eq_of_inside hlabels hopening hcandidate.occurs_isOpeningOf hstart (by omega)
        rw [hresume] at hrest
        exact hrest

/-- A scan without a limit never keeps a span that begins inside of the opening tag of an
element, as it visits the element first. -/
theorem Course.start_of_unlimited (hlabels : ∀ name ∈ shape.labels, IsLabel name)
    (hnesting : e.nesting = .balanced) {pos start stop : Nat} {tag : Opening} {spans : List Span}
    (hcourse : Course e shape none bytes pos spans) (hpos : pos ≤ start)
    (hcandidate : Candidate e shape none bytes start tag stop) :
    ∀ span ∈ spans, start < span.start → start + 1 + tag.length ≤ span.start := by
  induction hcourse with
  | done => simp
  | @pass pos spans hnone hrest ih =>
      have hne : pos ≠ start := fun heq => hnone tag stop (heq ▸ hcandidate)
      exact ih (by omega)
  | @keep pos other finish spans hother hkeeps hrest ih =>
      intro span hmem hlt
      rcases List.mem_cons.mp hmem with rfl | hmem
      · exact absurd hlt (Nat.not_lt.mpr hpos)
      by_cases hbehind : finish ≤ start
      · exact ih hbehind span hmem hlt
      · have hle := stop_le_of_isElement hlabels hcandidate.occurs_isOpeningOf
          (hother.occurs_isElement hlabels) (Nat.not_le.mp hbehind)
        exact Nat.le_trans hle (hrest.start_le hlabels span hmem)
  | @reject pos other finish spans hother hrejects hrest ih =>
      have hresume : e.resume pos other finish = pos + 1 + other.length := by
        rw [resume, hnesting]
      rw [hresume] at hrest ih
      by_cases hbehind : pos + 1 + other.length ≤ start
      · exact ih hbehind
      · intro span hmem _
        rw [stop_eq_of_inside hlabels hother.occurs_isOpeningOf hcandidate.occurs_isOpeningOf hpos
          (Nat.not_le.mp hbehind)]
        exact hrest.start_le hlabels span hmem

/-- Two scans from the same offset, of which only one has a limit, keep the same spans if
the limit spares what would be kept and nothing is kept inside of an opening tag. -/
theorem Course.eq_unlimited (hlabels : ∀ name ∈ shape.labels, IsLabel name)
    (hnesting : e.nesting = .balanced) {limit : Nat}
    (hspares : ∀ {start stop : Nat} {tag : Opening},
      Candidate e shape none bytes start tag stop → e.keepsSpan bytes ⟨start, stop⟩ = true →
        Candidate e shape (some limit) bytes start tag stop)
    {pos : Nat} {spans unlimited : List Span}
    (hunlimited : Course e shape none bytes pos unlimited)
    (hcourse : Course e shape (some limit) bytes pos spans)
    (hfree : ∀ span ∈ spans, ¬ InsideElementTag e shape bytes span.start) :
    spans = unlimited := by
  induction hunlimited generalizing spans with
  | done hend => exact hcourse.eq_nil hend
  | pass hnone hrest ih =>
      have hnolimit : ∀ tag stop, ¬ Candidate e shape (some limit) bytes _ tag stop :=
        fun tag stop hcandidate => hnone tag stop (candidate_some_budget_iff.mp hcandidate).1
      exact ih (hcourse.of_no_candidate hnolimit) hfree
  | keep hcandidate hkeeps hrest ih =>
      rcases hcourse.of_candidate (hspares hcandidate hkeeps) with
        ⟨-, rest, rfl, hlimited⟩ | ⟨hrejects, -⟩
      · rw [ih hlimited fun span hmem => hfree span (List.mem_cons_of_mem _ hmem)]
      · rw [hkeeps] at hrejects
        cases hrejects
  | @reject pos tag stop unlimited hcandidate hrejects hrest ih =>
      have hresume : e.resume pos tag stop = pos + 1 + tag.length := by
        rw [resume, hnesting]
      by_cases hfound : Candidate e shape (some limit) bytes pos tag stop
      · rcases hcourse.of_candidate hfound with ⟨hkeeps, -⟩ | ⟨-, hlimited⟩
        · rw [hkeeps] at hrejects
          cases hrejects
        · exact ih hlimited hfree
      · -- The limit cuts this search off, so the scan enters the opening tag.
        have hnone : ∀ other finish, ¬ Candidate e shape (some limit) bytes pos other finish := by
          intro other finish hother
          obtain ⟨rfl, rfl⟩ := hcandidate.unique (candidate_some_budget_iff.mp hother).1
          exact hfound hother
        have hinside := hcourse.of_no_candidate hnone
        have hbehind : ∀ span ∈ spans, pos + 1 + tag.length ≤ span.start := by
          intro span hmem
          by_contra hbefore
          exact hfree span hmem ⟨pos, tag, stop, hcandidate, hinside.start_le hlabels span hmem,
            Nat.not_le.mp hbefore⟩
        have hlimited := hinside.behind_opening hlabels hnesting hcandidate.occurs_isOpeningOf
          (Nat.le_succ pos) (Nat.le_add_right ..) hbehind
        exact ih (hresume ▸ hlimited) hfree

end Positions

/-- The limit spares every span that is short enough in characters. -/
theorem Candidate.of_keepsSpan {maxLength : Nat} {shape : Shape}
    (hlabels : ∀ name ∈ shape.labels, IsLabel name) {text : String}
    (hsize : (Utf8.encode text).length < UInt64.size) {start stop : Nat} {tag : Opening}
    (hcandidate : Candidate ⟨maxLength, .balanced⟩ shape none (Utf8.encode text) start tag stop)
    (hkeeps : (⟨maxLength, .balanced⟩ : Extractor).keepsSpan (Utf8.encode text) ⟨start, stop⟩ =
      true) :
    Candidate ⟨maxLength, .balanced⟩ shape (some (⟨maxLength, .balanced⟩ : Extractor).budget)
      (Utf8.encode text) start tag stop := by
  obtain ⟨snippet, hslice, -⟩ := exists_slice_of_isElement (hcandidate.occurs_isElement hlabels)
  have hshort := ((hslice.keepsSpan_iff _).mp hkeeps).2
  exact candidate_some_budget_iff.mpr
    ⟨hcandidate, fun _ _ => stop_le_limit hsize hslice hshort⟩

theorem spans_eq_unlimitedSpans_iff (maxLength : Nat) {shape : Shape}
    (hlabels : ∀ name ∈ shape.labels, IsLabel name) {text : String}
    (hsize : (Utf8.encode text).length < UInt64.size) :
    (⟨maxLength, .balanced⟩ : Extractor).spans shape (Utf8.encode text) =
        (⟨maxLength, .balanced⟩ : Extractor).unlimitedSpans shape (Utf8.encode text) ↔
      ∀ span ∈ (⟨maxLength, .balanced⟩ : Extractor).spans shape (Utf8.encode text),
        ¬ InsideElementTag ⟨maxLength, .balanced⟩ shape (Utf8.encode text) span.start := by
  have hunlimited : Course ⟨maxLength, .balanced⟩ shape none (Utf8.encode text) 0
      ((⟨maxLength, .balanced⟩ : Extractor).unlimitedSpans shape (Utf8.encode text)) :=
    course_scan hlabels rfl
  constructor
  · intro heq span hmem hinside
    obtain ⟨start, tag, stop, hcandidate, hstart, hstop⟩ := hinside
    have hbehind := hunlimited.start_of_unlimited hlabels rfl (Nat.zero_le start) hcandidate span
      (heq ▸ hmem) hstart
    exact absurd hstop (Nat.not_lt.mpr hbehind)
  · exact hunlimited.eq_unlimited hlabels rfl
      (fun hcandidate => hcandidate.of_keepsSpan hlabels hsize) (course_spans hlabels)

theorem extract_eq_unlimitedExtract {e : Extractor} {text : String}
    (hspans : ∀ shape ∈ shapes,
      e.spans shape (Utf8.encode text) = e.unlimitedSpans shape (Utf8.encode text)) :
    e.extract text = e.unlimitedExtract text := by
  rw [extract_eq_flatMap, unlimitedExtract]
  apply List.flatMap_congr
  intro shape hshape
  rw [snippets_eq_map, hspans shape hshape]

/-- The limit on the search makes no difference to the spans of a shape exactly if none of
them begins inside of the opening tag of an element.  It makes no difference to an extraction
if this holds of all shapes. -/
theorem budget_is_harmless_iff (maxLength : Nat) {text : String}
    (hsize : (Utf8.encode text).length < UInt64.size) :
    (∀ shape ∈ shapes,
        (⟨maxLength, .balanced⟩ : Extractor).spans shape (Utf8.encode text) =
            (⟨maxLength, .balanced⟩ : Extractor).unlimitedSpans shape (Utf8.encode text) ↔
          ∀ span ∈ (⟨maxLength, .balanced⟩ : Extractor).spans shape (Utf8.encode text),
            ¬ InsideElementTag ⟨maxLength, .balanced⟩ shape (Utf8.encode text) span.start) ∧
      ((∀ shape ∈ shapes,
          ∀ span ∈ (⟨maxLength, .balanced⟩ : Extractor).spans shape (Utf8.encode text),
            ¬ InsideElementTag ⟨maxLength, .balanced⟩ shape (Utf8.encode text) span.start) →
        (⟨maxLength, .balanced⟩ : Extractor).extract text =
          (⟨maxLength, .balanced⟩ : Extractor).unlimitedExtract text) := by
  constructor
  · intro shape hshape
    exact spans_eq_unlimitedSpans_iff maxLength (isLabel_of_mem_shapes hshape) hsize
  · intro hfree
    apply extract_eq_unlimitedExtract
    intro shape hshape
    exact (spans_eq_unlimitedSpans_iff maxLength (isLabel_of_mem_shapes hshape) hsize).mpr
      (hfree shape hshape)

/-- The search from the outer opening tag is cut off, and the element in its content is found
as it would be without a limit. -/
theorem budget_is_harmless_of_content :
    let e : Extractor := ⟨12, .balanced⟩
    let text := "<p>longer than the limit of the search, with <p>Hello</p></p>"
    (Utf8.encode text).length < UInt64.size ∧
      (∀ shape ∈ shapes, ∀ span ∈ e.spans shape (Utf8.encode text),
        ¬ InsideElementTag e shape (Utf8.encode text) span.start) ∧
      e.extract text = ["<p>Hello</p>"] ∧ e.unlimitedExtract text = ["<p>Hello</p>"] := by
  intro e text
  have hsize : (Utf8.encode text).length < UInt64.size := by decide +kernel
  have hsame : ∀ shape ∈ shapes, e.spans shape (Utf8.encode text) =
      e.unlimitedSpans shape (Utf8.encode text) := by decide +kernel
  have hfree : ∀ shape ∈ shapes, ∀ span ∈ e.spans shape (Utf8.encode text),
      ¬ InsideElementTag e shape (Utf8.encode text) span.start :=
    fun shape hshape => ((budget_is_harmless_iff 12 hsize).1 shape hshape).mp (hsame shape hshape)
  have hextract : e.extract text = ["<p>Hello</p>"] := by decide +kernel
  have hequal := (budget_is_harmless_iff 12 hsize).2 hfree
  exact ⟨hsize, hfree, hextract, hequal.symm.trans hextract⟩

/-- The inner element begins in an attribute of the outer one.  With the limit it is found,
without a limit the scan goes on behind it. -/
theorem budget_shows_in_attribute :
    let e : Extractor := ⟨12, .balanced⟩
    let text := "<p title='longer than the limit of the search <p>Hello</p>"
    e.extract text = ["<p>Hello</p>"] ∧ e.unlimitedExtract text = [] := by
  decide +kernel

end Extractor

end MarkupSeeds
