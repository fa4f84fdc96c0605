import MarkupSeeds.Proofs.Extraction.Budget
import MarkupSeeds.Proofs.Markup.Locality

/-!
# Flat markup

The two rules differ in which closing tag ends an element, in the closing tags that they
accept, and in where they go on after an element that is too long or too short.  None of
this shows in flat markup, where elements of a shape neither nest nor end with the closing
tag of another name: both rules then end an element at the same tag, and what the balanced
rule enters and the nearest rule skips holds no opening tag.
-/

namespace MarkupSeeds

open Markup

namespace Markup

/-- Behind an opening tag of the shape, the first closing tag of the shape, if there is one,
is an exact closing tag of the same name, and no opening tag of the shape begins between the
beginnings of the two. -/
def IsFlat (shape : Shape) (bytes : Bytes) : Prop :=
  ∀ name ∈ shape.labels, ∀ start middle close stop,
    Occurs (IsOpening name) bytes start middle →
      IsFirst (IsClosingOf true shape.labels) bytes middle close stop →
        Occurs (IsClosing false name) bytes close stop ∧
          ∀ inner finish, start < inner → inner < close →
            ¬ Occurs (IsOpeningOf shape.labels) bytes inner finish

section Ends

variable {shape : Shape} {bytes name : Bytes} {start middle close stop : Nat}

/-- Both rules end an element of flat markup at the first closing tag behind its opening tag. -/
theorem IsFlat.ends (hflat : IsFlat shape bytes) (hname : name ∈ shape.labels)
    (hopening : Occurs (IsOpening name) bytes start middle)
    (hfirst : IsFirst (IsClosingOf true shape.labels) bytes middle close stop) :
    FirstOccurs (IsClosingOf false shape.labels) bytes middle stop ∧
      Occurs (Balances name 1) bytes middle stop := by
  obtain ⟨hexact, hnone⟩ := hflat name hname start middle close stop hopening hfirst
  have hbefore : start < middle :=
    (bracketed_isOpeningOf shape.labels).start_lt_stop (occurs_isOpeningOf_of_mem hname hopening)
  constructor
  · refine ⟨close, hfirst.le, occurs_isClosingOf_of_mem hname hexact, ?_⟩
    intro other finish hother hlt hoccurs
    exact hfirst.least other finish hother hlt (occurs_isClosingOf_of_exact hoccurs)
  · apply occurs_balances_of_first hfirst.le (hexact.mono fun _ hpiece => hpiece.of_exact)
    intro p finish hp hlt
    constructor
    · intro hoccurs
      exact hfirst.least p finish hp hlt (occurs_isClosingOf_of_mem hname hoccurs)
    · intro hoccurs
      exact hnone p finish (Nat.lt_of_lt_of_le hbefore hp) hlt
        (occurs_isOpeningOf_of_mem hname hoccurs)

/-- The nearest closing tag is the first one of all. -/
theorem IsFlat.exists_isFirst (hlabels : ∀ name ∈ shape.labels, IsLabel name)
    (hflat : IsFlat shape bytes) (hname : name ∈ shape.labels)
    (hopening : Occurs (IsOpening name) bytes start middle)
    (hnearest : FirstOccurs (IsClosingOf false shape.labels) bytes middle stop) :
    ∃ close, IsFirst (IsClosingOf true shape.labels) bytes middle close stop := by
  obtain ⟨here, hexact⟩ := firstOccurs_iff_exists_isFirst.mp hnearest
  obtain ⟨close, finish, hfirst⟩ :=
    (occurs_isClosingOf_of_exact hexact.occurs).exists_isFirst hexact.le
  have hends := (hflat.ends hname hopening hfirst).1
  rw [← nearestClose?_eq_some_iff hlabels rfl] at hnearest hends
  rw [hnearest, Option.some.injEq] at hends
  exact ⟨close, hends ▸ hfirst⟩

/-- No opening tag of the shape begins inside of an element of flat markup. -/
theorem IsFlat.not_occurs_inside (hlabels : ∀ name ∈ shape.labels, IsLabel name)
    (hflat : IsFlat shape bytes) (hname : name ∈ shape.labels)
    (hopening : Occurs (IsOpening name) bytes start middle)
    (hfirst : IsFirst (IsClosingOf true shape.labels) bytes middle close stop) {p : Nat}
    (hstart : start < p) (hstop : p < stop) (finish : Nat) :
    ¬ Occurs (IsOpeningOf shape.labels) bytes p finish := by
  intro hoccurs
  obtain ⟨hexact, hnone⟩ := hflat name hname start middle close stop hopening hfirst
  rcases Nat.lt_trichotomy p close with hbefore | rfl | hbehind
  · exact hnone p finish hstart hbefore hoccurs
  · obtain ⟨piece, rest, hdrop, hlength, other, hother, hpiece⟩ := hoccurs
    exact not_occurs_isOpening_of_isClosing (hlabels other hother) hexact
      ⟨piece, rest, hdrop, hlength, hpiece⟩
  · exact hexact.getElem?_ne_lt (fun _ hpiece => hpiece.lt_not_mem_tail (hlabels name hname))
      hbehind hstop ((bracketed_isOpeningOf shape.labels).getElem?_eq hoccurs)

end Ends

/-! ## Checking for flat markup -/

/-- The first closing tag at or after `pos` begins at `close`. -/
def ClosesFirst (names : List Bytes) (bytes : Bytes) (pos close : Nat) : Prop :=
  pos ≤ close ∧ closingAt? true names bytes close ≠ none ∧
    ∀ other < close, pos ≤ other → closingAt? true names bytes other = none

instance (names : List Bytes) (bytes : Bytes) (pos close : Nat) :
    Decidable (ClosesFirst names bytes pos close) :=
  inferInstanceAs (Decidable (_ ∧ _ ∧ _))

theorem closesFirst_iff {names : List Bytes} (hlabels : ∀ name ∈ names, IsLabel name)
    {bytes : Bytes} {pos close : Nat} :
    ClosesFirst names bytes pos close ↔
      ∃ stop, IsFirst (IsClosingOf true names) bytes pos close stop := by
  simp only [ClosesFirst, closingAt?_eq_none_iff hlabels, ne_eq, not_forall, not_not]
  constructor
  · intro hcloses
    obtain ⟨hpos, ⟨stop, hoccurs⟩, hleast⟩ := hcloses
    exact ⟨stop, hpos, hoccurs, fun other finish hother hlt => hleast other hlt hother finish⟩
  · intro hfirst
    obtain ⟨stop, hpos, hoccurs, hleast⟩ := hfirst
    exact ⟨hpos, ⟨stop, hoccurs⟩, fun other hlt hother finish => hleast other finish hother hlt⟩

/-- What `IsFlat` says of one opening tag, in terms of the recognisers. -/
def IsFlatAt (shape : Shape) (bytes : Bytes) (start : Nat) (tag : Opening) : Prop :=
  ∀ close < bytes.length, ClosesFirst shape.labels bytes (start + 1 + tag.length) close →
    closingAt? false [tag.name] bytes close ≠ none ∧
      ∀ inner < close, start < inner → openingAt? shape.labels bytes inner = none

instance (shape : Shape) (bytes : Bytes) (start : Nat) (tag : Opening) :
    Decidable (IsFlatAt shape bytes start tag) :=
  inferInstanceAs (Decidable (∀ close < bytes.length, _))

theorem IsFlat.isFlatAt {shape : Shape} (hlabels : ∀ name ∈ shape.labels, IsLabel name)
    {bytes : Bytes} (hflat : IsFlat shape bytes) {start : Nat} {tag : Opening}
    (hopens : openingAt? shape.labels bytes start = some tag) : IsFlatAt shape bytes start tag := by
  intro close _ hcloses
  obtain ⟨hname, hopening⟩ := occurs_of_openingAt? hopens
  obtain ⟨stop, hfirst⟩ := (closesFirst_iff hlabels).mp hcloses
  obtain ⟨hexact, hnone⟩ := hflat tag.name hname start _ close stop hopening hfirst
  constructor
  · intro habsent
    rw [closingAt?_eq_none_iff (List.forall_mem_singleton.mpr (hlabels _ hname))] at habsent
    exact habsent stop (occurs_isClosingOf_of_mem (List.mem_singleton_self _) hexact)
  · intro inner hlt hinner
    rw [openingAt?_eq_none_iff hlabels]
    intro finish
    exact hnone inner finish hinner hlt

/-- Whether markup is flat can be found out with the recognisers. -/
theorem isFlat_iff {shape : Shape} (hlabels : ∀ name ∈ shape.labels, IsLabel name)
    {bytes : Bytes} :
    IsFlat shape bytes ↔
      ∀ start < bytes.length, ∀ tag ∈ openingAt? shape.labels bytes start,
        IsFlatAt shape bytes start tag := by
  constructor
  · intro hflat start _ tag hopens
    exact hflat.isFlatAt hlabels hopens
  · intro hcheck name hname start middle close stop hopening hfirst
    have hP := bracketed_isOpeningOf shape.labels
    have hQ := bracketed_isClosingOf true shape.labels
    have hmiddle := hP.start_lt_stop (occurs_isOpeningOf_of_mem hname hopening)
    have hopenEnd := hP.stop_le_length (occurs_isOpeningOf_of_mem hname hopening)
    have hclose := hQ.start_lt_stop hfirst.occurs
    have hcloseEnd := hQ.stop_le_length hfirst.occurs
    obtain ⟨length, rfl⟩ : ∃ length, middle = start + 1 + length := Nat.exists_eq_add_of_le hmiddle
    have hopens : openingAt? shape.labels bytes start = some ⟨name, length⟩ :=
      (openingAt?_eq_some_iff_occurs hlabels).mpr ⟨hname, hopening⟩
    obtain ⟨hexact, hnone⟩ := hcheck start (by omega) _ hopens close (by omega)
      ((closesFirst_iff hlabels).mpr ⟨stop, hfirst⟩)
    constructor
    · obtain ⟨finish, hfinish⟩ := Option.ne_none_iff_exists'.mp hexact
      rw [closingAt?_eq_some_iff (List.forall_mem_singleton.mpr (hlabels _ hname))] at hfinish
      have hclosing : Occurs (IsClosing false name) bytes close finish :=
        isClosingOf_singleton false name ▸ hfinish
      -- Both descriptions are of the tag that the recogniser finds at `close`.
      have hstop := (closingAt?_eq_some_iff hlabels).mpr hfirst.occurs
      have hend := (closingAt?_eq_some_iff hlabels).mpr
        (occurs_isClosingOf_of_exact (occurs_isClosingOf_of_mem hname hclosing))
      rw [Option.some.inj (hstop.symm.trans hend)]
      exact hclosing
    · intro inner finish hinner hlt
      exact (openingAt?_eq_none_iff hlabels).mp (hnone inner hlt hinner) finish

end Markup

namespace Extractor

section Positions

variable {shape : Shape} {budget : Option Nat} {bytes : Bytes} {maxLength : Nat}

/-- In flat markup the nearest rule and the unlimited balanced rule find the same elements. -/
theorem candidate_iff_of_isFlat (hlabels : ∀ name ∈ shape.labels, IsLabel name)
    (hkind : shape.kind = .paired) (hflat : IsFlat shape bytes) {start stop : Nat} {tag : Opening} :
    Candidate ⟨maxLength, .nearest⟩ shape budget bytes start tag stop ↔
      Candidate ⟨maxLength, .balanced⟩ shape none bytes start tag stop := by
  constructor
  · intro hcandidate
    obtain ⟨close, hfirst⟩ := hflat.exists_isFirst hlabels hcandidate.name_mem
      hcandidate.occurs_opening (hcandidate.firstOccurs_of_nearest hlabels hkind rfl)
    exact .of_balances hlabels hcandidate.opens hkind rfl
      (hflat.ends hcandidate.name_mem hcandidate.occurs_opening hfirst).2
  · intro hcandidate
    have hname := hcandidate.name_mem
    obtain ⟨close, hle, hclosing⟩ :=
      exists_closing_of_occurs (hcandidate.occurs_balances hlabels hkind rfl)
    obtain ⟨first, finish, hfirst⟩ := (occurs_isClosingOf_of_mem hname hclosing).exists_isFirst hle
    obtain ⟨hends, hbalances⟩ := hflat.ends hname hcandidate.occurs_opening hfirst
    -- The balancing tag is the first closing tag, as both end the same element.
    have hsame : Candidate ⟨maxLength, .balanced⟩ shape none bytes start tag finish :=
      .of_balances hlabels hcandidate.opens hkind rfl hbalances
    rw [(hcandidate.unique hsame).2]
    exact .of_firstOccurs hlabels hcandidate.opens hkind rfl hends

/-- No element of flat markup begins inside of another one. -/
theorem Candidate.not_inside (hlabels : ∀ name ∈ shape.labels, IsLabel name)
    (hkind : shape.kind = .paired) (hflat : IsFlat shape bytes) {start stop : Nat} {tag : Opening}
    (hcandidate : Candidate ⟨maxLength, .nearest⟩ shape budget bytes start tag stop)
    {e : Extractor} {limit : Option Nat} {p : Nat} (hstart : start < p) (hstop : p < stop)
    (other : Opening) (finish : Nat) : ¬ Candidate e shape limit bytes p other finish := by
  intro hother
  obtain ⟨close, hfirst⟩ := hflat.exists_isFirst hlabels hcandidate.name_mem
    hcandidate.occurs_opening (hcandidate.firstOccurs_of_nearest hlabels hkind rfl)
  exact hflat.not_occurs_inside hlabels hcandidate.name_mem hcandidate.occurs_opening hfirst
    hstart hstop _ hother.occurs_isOpeningOf

/-- The balanced scan of flat markup keeps what the nearest scan keeps.  After a rejected
element it comes out where the nearest scan goes on. -/
theorem Course.balanced_of_nearest (hlabels : ∀ name ∈ shape.labels, IsLabel name)
    (hkind : shape.kind = .paired) (hflat : IsFlat shape bytes) {limit : Nat}
    (hspares : ∀ {start stop : Nat} {tag : Opening},
      Candidate ⟨maxLength, .balanced⟩ shape none bytes start tag stop →
        (⟨maxLength, .balanced⟩ : Extractor).keepsSpan bytes ⟨start, stop⟩ = true →
          Candidate ⟨maxLength, .balanced⟩ shape (some limit) bytes start tag stop)
    {pos : Nat} {spans : List Span}
    (hcourse : Course ⟨maxLength, .nearest⟩ shape (some limit) bytes pos spans) :
    Course ⟨maxLength, .balanced⟩ shape (some limit) bytes pos spans := by
  induction hcourse with
  | done hend => exact .done hend
  | pass hnone hrest ih =>
      refine .pass (fun tag stop hcandidate => hnone tag stop ?_) ih
      exact (candidate_iff_of_isFlat hlabels hkind hflat).mpr
        (candidate_some_budget_iff.mp hcandidate).1
  | keep hcandidate hkeeps hrest ih =>
      have hunlimited := (candidate_iff_of_isFlat hlabels hkind hflat).mp hcandidate
      exact .keep (hspares hunlimited hkeeps) hkeeps ih
  | @reject pos tag stop spans hcandidate hrejects hrest ih =>
      have hle := hcandidate.le_stop hlabels
      by_cases hfound : Candidate ⟨maxLength, .balanced⟩ shape (some limit) bytes pos tag stop
      · refine .reject hfound hrejects (Course.pass_to hle ?_ ih)
        intro p hp hlt
        have hbehind : pos + 1 + tag.length ≤ p := hp
        exact hcandidate.not_inside hlabels hkind hflat (by omega) hlt
      · -- The limit cuts the search off, and the scan enters the opening tag.
        have hnone : ∀ p, pos ≤ p → p < stop → ∀ other finish,
            ¬ Candidate ⟨maxLength, .balanced⟩ shape (some limit) bytes p other finish := by
          intro p hp hlt other finish hother
          rcases Nat.eq_or_lt_of_le hp with rfl | hinside
          · have hunlimited := (candidate_iff_of_isFlat hlabels hkind hflat).mp hcandidate
            obtain ⟨rfl, rfl⟩ := hunlimited.unique (candidate_some_budget_iff.mp hother).1
            exact hfound hother
          · exact hcandidate.not_inside hlabels hkind hflat hinside hlt other finish hother
        exact Course.pass_to (by omega) hnone ih

/-- The rules make no difference to a shape without closing tags. -/
theorem Course.of_void (hkind : shape.kind = .void) {rule other : Nesting} {pos : Nat}
    {spans : List Span} (hcourse : Course ⟨maxLength, rule⟩ shape budget bytes pos spans) :
    Course ⟨maxLength, other⟩ shape budget bytes pos spans := by
  have hsame : ∀ {rule other : Nesting} {start stop : Nat} {tag : Opening},
      Candidate ⟨maxLength, rule⟩ shape budget bytes start tag stop →
        Candidate ⟨maxLength, other⟩ shape budget bytes start tag stop := by
    intro rule other start stop tag hcandidate
    refine ⟨hcandidate.opens, ?_⟩
    simpa only [stop?, hkind] using hcandidate.ends
  have hresume : ∀ (rule : Nesting) {start stop : Nat} {tag : Opening},
      start + 1 + tag.length = stop →
        (⟨maxLength, rule⟩ : Extractor).resume start tag stop = stop := by
    intro rule start stop tag hstop
    cases rule with
    | nearest => rfl
    | balanced => exact hstop
  refine hcourse.congr rfl (fun _ _ _ => ?_) (fun _ _ _ _ => ?_) ?_
  · exact ⟨hsame, hsame⟩
  · rfl
  · intro start tag stop hcandidate
    have hstop := hcandidate.stop_eq_of_void hkind
    rw [hresume other hstop, hresume rule hstop]

end Positions

theorem spans_nearest_eq_balanced {shape : Shape} (hlabels : ∀ name ∈ shape.labels, IsLabel name)
    (maxLength : Nat) {text : String} (hsize : (Utf8.encode text).length < UInt64.size)
    (hflat : shape.kind = .paired → IsFlat shape (Utf8.encode text)) :
    (⟨maxLength, .nearest⟩ : Extractor).spans shape (Utf8.encode text) =
      (⟨maxLength, .balanced⟩ : Extractor).spans shape (Utf8.encode text) := by
  have hnearest : Course ⟨maxLength, .nearest⟩ shape
      (some (⟨maxLength, .balanced⟩ : Extractor).budget) (Utf8.encode text) 0
      ((⟨maxLength, .nearest⟩ : Extractor).spans shape (Utf8.encode text)) := course_spans hlabels
  refine Course.unique (course_spans hlabels) ?_
  cases hkind : shape.kind with
  | void => exact hnearest.of_void hkind
  | paired =>
      exact hnearest.balanced_of_nearest hlabels hkind (hflat hkind)
        fun hcandidate => hcandidate.of_keepsSpan hlabels hsize

/-- In a text that is flat in all shapes, both nesting rules extract the same snippets. -/
theorem extract_nearest_eq_balanced_of_isFlat (maxLength : Nat) {text : String}
    (hsize : (Utf8.encode text).length < UInt64.size)
    (hflat : ∀ shape ∈ shapes, shape.kind = .paired → IsFlat shape (Utf8.encode text)) :
    (⟨maxLength, .nearest⟩ : Extractor).extract text =
      (⟨maxLength, .balanced⟩ : Extractor).extract text := by
  rw [extract_eq_flatMap, extract_eq_flatMap]
  apply List.flatMap_congr
  intro shape hshape
  rw [snippets_eq_map, snippets_eq_map,
    spans_nearest_eq_balanced (isLabel_of_mem_shapes hshape) maxLength hsize (hflat shape hshape)]

/-- The list is too long, even for the limit on the search, the paragraph is left open, and
a tag stands in the attribute of another one. -/
theorem extract_nearest_eq_balanced_of_menu :
    let text := "<ul class=menu><li>one item</li><LI id=x>naïve</Li></ul>" ++
      "<p>left open <h2>Title</H2><input value='<input>'>"
    (Utf8.encode text).length < UInt64.size ∧
      (∀ shape ∈ shapes, shape.kind = .paired → IsFlat shape (Utf8.encode text)) ∧
      (⟨14, .nearest⟩ : Extractor).extract text = ["<h2>Title</H2>"] ∧
      (⟨14, .nearest⟩ : Extractor).extract text = (⟨14, .balanced⟩ : Extractor).extract text := by
  intro text
  have hsize : (Utf8.encode text).length < UInt64.size := by decide +kernel
  have hflat : ∀ shape ∈ shapes, shape.kind = .paired → IsFlat shape (Utf8.encode text) := by
    intro shape hshape
    rw [isFlat_iff (isLabel_of_mem_shapes hshape)]
    revert shape
    decide +kernel
  exact ⟨hsize, hflat, by decide +kernel, extract_nearest_eq_balanced_of_isFlat 14 hsize hflat⟩

end Extractor

end MarkupSeeds
