import Mathlib.Data.Nat.Init
import MarkupSeeds.Extractor
import MarkupSeeds.Proofs.Markup.Balance
import MarkupSeeds.Proofs.Markup.Occurrence

/-!
# The course of a scan

A scan carries the bytes that are left.  `Course` follows the same scan by offsets
of the whole text, with one rule for each thing that it does at an offset: it ends,
passes over a byte, keeps a span, or rejects one.  What holds of all scans is shown
here by induction on the course: the spans that are kept are ordered and disjoint,
and each of them takes up an element of the shape.
-/

namespace MarkupSeeds.Extractor

open Markup

/-- An element of the shape is found at `start`, with this opening tag and this end. -/
structure Candidate (e : Extractor) (shape : Shape) (budget : Option Nat) (bytes : Bytes)
    (start : Nat) (tag : Opening) (stop : Nat) : Prop where
  opens : openingAt? shape.labels bytes start = some tag
  ends : e.stop? shape budget start tag (bytes.drop (start + 1 + tag.length)) = some stop

def keepsSpan (e : Extractor) (bytes : Bytes) (span : Span) : Bool :=
  e.keeps (Utf8.count ((bytes.drop span.start).take (span.stop - span.start)))

/-- Where a scan goes on after a span that it rejects. -/
def resume (e : Extractor) (start : Nat) (tag : Opening) (stop : Nat) : Nat :=
  match e.nesting with
  | .nearest => stop
  | .balanced => start + 1 + tag.length

/-- A scan from offset `pos` on and the spans that it keeps. -/
inductive Course (e : Extractor) (shape : Shape) (budget : Option Nat) (bytes : Bytes) :
    Nat → List Span → Prop
  | done {pos} (hend : bytes.length ≤ pos) : Course e shape budget bytes pos []
  | pass {pos spans} (hnone : ∀ tag stop, ¬ Candidate e shape budget bytes pos tag stop)
      (hrest : Course e shape budget bytes (pos + 1) spans) : Course e shape budget bytes pos spans
  | keep {pos tag stop spans} (hcandidate : Candidate e shape budget bytes pos tag stop)
      (hkeeps : e.keepsSpan bytes ⟨pos, stop⟩ = true)
      (hrest : Course e shape budget bytes stop spans) :
      Course e shape budget bytes pos (⟨pos, stop⟩ :: spans)
  | reject {pos tag stop spans} (hcandidate : Candidate e shape budget bytes pos tag stop)
      (hrejects : e.keepsSpan bytes ⟨pos, stop⟩ = false)
      (hrest : Course e shape budget bytes (e.resume pos tag stop) spans) :
      Course e shape budget bytes pos spans

section Positions

variable {e : Extractor} {shape : Shape} {budget : Option Nat} {bytes : Bytes}

theorem le_of_stop? (hlabels : ∀ name ∈ shape.labels, IsLabel name) {start stop : Nat}
    {tag : Opening}
    (hstop : e.stop? shape budget start tag (bytes.drop (start + 1 + tag.length)) = some stop) :
    start + 1 + tag.length ≤ stop := by
  rw [stop?] at hstop
  cases hkind : shape.kind with
  | void =>
      simp only [hkind, Option.some.injEq] at hstop
      exact Nat.le_of_eq hstop
  | paired =>
      cases hnesting : e.nesting with
      | nearest =>
          simp only [hkind, hnesting] at hstop
          obtain ⟨first, hfirst, hoccurs, -⟩ := (nearestClose?_eq_some_iff hlabels rfl).mp hstop
          have hlt := (bracketed_isClosingOf false shape.labels).start_lt_stop hoccurs
          exact Nat.le_of_lt (Nat.lt_of_le_of_lt hfirst hlt)
      | balanced =>
          simp only [hkind, hnesting] at hstop
          exact Nat.le_of_lt (lt_of_balancedClose? hstop)

theorem Candidate.le_stop (hlabels : ∀ name ∈ shape.labels, IsLabel name) {start stop : Nat}
    {tag : Opening} (hcandidate : Candidate e shape budget bytes start tag stop) :
    start + 1 + tag.length ≤ stop := le_of_stop? hlabels hcandidate.ends

/-- At each offset there is at most one candidate. -/
theorem Candidate.unique {start stop otherStop : Nat} {tag otherTag : Opening}
    (hcandidate : Candidate e shape budget bytes start tag stop)
    (hother : Candidate e shape budget bytes start otherTag otherStop) :
    tag = otherTag ∧ stop = otherStop := by
  have htag : tag = otherTag := Option.some.inj (hcandidate.opens.symm.trans hother.opens)
  subst htag
  exact ⟨rfl, Option.some.inj (hcandidate.ends.symm.trans hother.ends)⟩

theorem Candidate.start_lt_length {start stop : Nat} {tag : Opening}
    (hcandidate : Candidate e shape budget bytes start tag stop) : start < bytes.length := by
  obtain ⟨tail, hdrop, -⟩ := openingAt?_eq_some_iff.mp hcandidate.opens
  by_contra hbeyond
  rw [List.drop_eq_nil_of_le (Nat.not_lt.mp hbeyond)] at hdrop
  cases hdrop

theorem candidate_iff {start stop : Nat} {tag : Opening} {tail : Bytes}
    (hdrop : bytes.drop start = lt :: tail) :
    Candidate e shape budget bytes start tag stop ↔
      opening? shape.labels tail = some tag ∧
        e.stop? shape budget start tag (tail.drop tag.length) = some stop := by
  have hbody : bytes.drop (start + 1 + tag.length) = tail.drop tag.length :=
    drop_succ_of_drop_eq_cons hdrop tag.length
  have hopens : openingAt? shape.labels bytes start = opening? shape.labels tail := by
    rw [openingAt?, hdrop]
    exact if_pos rfl
  constructor
  · intro hcandidate
    exact ⟨hopens ▸ hcandidate.opens, hbody ▸ hcandidate.ends⟩
  · intro hfound
    exact ⟨hopens ▸ hfound.1, hbody ▸ hfound.2⟩

/-- The scan follows the course. -/
theorem course_scan (hlabels : ∀ name ∈ shape.labels, IsLabel name) {pos : Nat} {rest : Bytes}
    (hrest : bytes.drop pos = rest) :
    Course e shape budget bytes pos (e.scan shape budget pos rest) := by
  have hnext : ∀ {start stop : Nat} {tag : Opening} {b : UInt8} {tail : Bytes},
      bytes.drop start = b :: tail → Candidate e shape budget bytes start tag stop →
        bytes.drop stop = tail.drop (stop - (start + 1)) := by
    intro start stop tag b tail hdrop hcandidate
    have hle := hcandidate.le_stop hlabels
    rw [← drop_succ_of_drop_eq_cons hdrop]
    congr 1
    omega
  fun_induction scan e shape budget pos rest with
  | case1 pos => exact .done (List.drop_eq_nil_iff.mp hrest)
  | case2 pos tail hnone ih =>
      apply Course.pass _ (ih (drop_succ_of_drop_eq_cons hrest 0))
      intro tag stop hcandidate
      rw [candidate_iff hrest, hnone] at hcandidate
      cases hcandidate.1
  | case3 pos tail tag htag hnone ih =>
      apply Course.pass _ (ih (drop_succ_of_drop_eq_cons hrest 0))
      intro other stop hcandidate
      rw [candidate_iff hrest, htag] at hcandidate
      cases hcandidate.1
      rw [hnone] at hcandidate
      cases hcandidate.2
  | case4 pos tail tag htag stop hstop hkeeps ih =>
      have hcandidate := (candidate_iff hrest).mpr ⟨htag, hstop⟩
      apply Course.keep hcandidate _ (ih (hnext hrest hcandidate))
      rw [keepsSpan, hrest]
      exact hkeeps
  | case5 pos tail tag htag stop hstop hnesting hrejects ih =>
      have hcandidate := (candidate_iff hrest).mpr ⟨htag, hstop⟩
      apply Course.reject hcandidate
      · rw [keepsSpan, hrest]
        exact Bool.eq_false_iff.mpr hrejects
      · rw [resume, hnesting]
        exact ih (hnext hrest hcandidate)
  | case6 pos tail tag htag stop hstop hnesting hrejects ih =>
      have hcandidate := (candidate_iff hrest).mpr ⟨htag, hstop⟩
      apply Course.reject hcandidate
      · rw [keepsSpan, hrest]
        exact Bool.eq_false_iff.mpr hrejects
      · rw [resume, hnesting]
        exact ih (drop_succ_of_drop_eq_cons hrest tag.length)
  | case7 pos b tail hb ih =>
      apply Course.pass _ (ih (drop_succ_of_drop_eq_cons hrest 0))
      intro tag stop hcandidate
      obtain ⟨other, hother, -⟩ := openingAt?_eq_some_iff.mp hcandidate.opens
      rw [hrest, List.cons.injEq] at hother
      exact hb hother.1

theorem course_spans (hlabels : ∀ name ∈ shape.labels, IsLabel name) :
    Course e shape (some e.budget) bytes 0 (e.spans shape bytes) :=
  course_scan hlabels rfl

/-- What a scan does at an offset without a candidate. -/
theorem Course.of_no_candidate {pos : Nat} {spans : List Span}
    (hcourse : Course e shape budget bytes pos spans)
    (hnone : ∀ tag stop, ¬ Candidate e shape budget bytes pos tag stop) :
    Course e shape budget bytes (pos + 1) spans := by
  cases hcourse with
  | done hend => exact .done (Nat.le_succ_of_le hend)
  | pass _ hrest => exact hrest
  | keep hcandidate => exact absurd hcandidate (hnone _ _)
  | reject hcandidate => exact absurd hcandidate (hnone _ _)

/-- What a scan does at a candidate. -/
theorem Course.of_candidate {pos stop : Nat} {tag : Opening} {spans : List Span}
    (hcourse : Course e shape budget bytes pos spans)
    (hcandidate : Candidate e shape budget bytes pos tag stop) :
    (e.keepsSpan bytes ⟨pos, stop⟩ = true ∧
        ∃ rest, spans = ⟨pos, stop⟩ :: rest ∧ Course e shape budget bytes stop rest) ∨
      (e.keepsSpan bytes ⟨pos, stop⟩ = false ∧
        Course e shape budget bytes (e.resume pos tag stop) spans) := by
  cases hcourse with
  | done hend => exact absurd hcandidate.start_lt_length (Nat.not_lt.mpr hend)
  | pass hnone => exact absurd hcandidate (hnone tag stop)
  | keep hother hkeeps hrest =>
      obtain ⟨-, rfl⟩ := hcandidate.unique hother
      exact Or.inl ⟨hkeeps, _, rfl, hrest⟩
  | reject hother hrejects hrest =>
      obtain ⟨rfl, rfl⟩ := hcandidate.unique hother
      exact Or.inr ⟨hrejects, hrest⟩

theorem Course.eq_nil {pos : Nat} {spans : List Span}
    (hcourse : Course e shape budget bytes pos spans) (hend : bytes.length ≤ pos) :
    spans = [] := by
  induction hcourse with
  | done => rfl
  | pass hnone hrest ih => exact ih (Nat.le_succ_of_le hend)
  | keep hcandidate => exact absurd hcandidate.start_lt_length (Nat.not_lt.mpr hend)
  | reject hcandidate => exact absurd hcandidate.start_lt_length (Nat.not_lt.mpr hend)

/-- There is one course only. -/
theorem Course.unique {pos : Nat} {spans others : List Span}
    (hcourse : Course e shape budget bytes pos spans)
    (hother : Course e shape budget bytes pos others) : others = spans := by
  induction hcourse generalizing others with
  | done hend => exact hother.eq_nil hend
  | pass hnone hrest ih => exact ih (hother.of_no_candidate hnone)
  | keep hcandidate hkeeps hrest ih =>
      rcases hother.of_candidate hcandidate with ⟨-, more, rfl, hmore⟩ | ⟨hrejects, -⟩
      · rw [ih hmore]
      · rw [hkeeps] at hrejects
        cases hrejects
  | reject hcandidate hrejects hrest ih =>
      rcases hother.of_candidate hcandidate with ⟨hkeeps, -⟩ | ⟨-, hmore⟩
      · rw [hrejects] at hkeeps
        cases hkeeps
      · exact ih hmore

/-- Scans that meet the same candidates, keep the same of them and go on alike behind them
take the same course. -/
theorem Course.congr {e' : Extractor} {budget' : Option Nat} {bytes' : Bytes}
    (hlength : bytes.length = bytes'.length)
    (hcandidates : ∀ start tag stop, Candidate e shape budget bytes start tag stop ↔
      Candidate e' shape budget' bytes' start tag stop)
    (hkeep : ∀ start tag stop, Candidate e shape budget bytes start tag stop →
      e'.keepsSpan bytes' ⟨start, stop⟩ = e.keepsSpan bytes ⟨start, stop⟩)
    (hresume : ∀ start tag stop, Candidate e shape budget bytes start tag stop →
      e'.resume start tag stop = e.resume start tag stop)
    {pos : Nat} {spans : List Span} (hcourse : Course e shape budget bytes pos spans) :
    Course e' shape budget' bytes' pos spans := by
  induction hcourse with
  | done hend => exact .done (hlength ▸ hend)
  | pass hnone hrest ih =>
      exact .pass (fun tag stop hfound => hnone tag stop ((hcandidates _ tag stop).mpr hfound)) ih
  | keep hcandidate hkeeps hrest ih =>
      exact .keep ((hcandidates ..).mp hcandidate) ((hkeep _ _ _ hcandidate).trans hkeeps) ih
  | reject hcandidate hrejects hrest ih =>
      refine .reject ((hcandidates ..).mp hcandidate)
        ((hkeep _ _ _ hcandidate).trans hrejects) ?_
      rw [hresume _ _ _ hcandidate]
      exact ih

/-- A scan passes over offsets without candidates. -/
theorem Course.pass_to {pos later : Nat} {spans : List Span} (hle : pos ≤ later)
    (hnone : ∀ p, pos ≤ p → p < later → ∀ tag stop, ¬ Candidate e shape budget bytes p tag stop)
    (hcourse : Course e shape budget bytes later spans) :
    Course e shape budget bytes pos spans := by
  induction hle using Nat.decreasingInduction with
  | self => exact hcourse
  | of_succ pos hlt ih =>
      apply Course.pass (hnone pos (Nat.le_refl pos) hlt)
      exact ih fun p hp => hnone p (Nat.le_of_succ_le hp)

/-! ## The spans that are kept -/

theorem Candidate.lt_resume (hlabels : ∀ name ∈ shape.labels, IsLabel name) {start stop : Nat}
    {tag : Opening} (hcandidate : Candidate e shape budget bytes start tag stop) :
    start < e.resume start tag stop := by
  have hle := hcandidate.le_stop hlabels
  rw [resume]
  cases e.nesting with
  | nearest => exact Nat.lt_of_lt_of_le (by omega) hle
  | balanced => exact Nat.lt_of_lt_of_le (Nat.lt_succ_self start) (Nat.le_add_right ..)

theorem Course.start_le (hlabels : ∀ name ∈ shape.labels, IsLabel name) {pos : Nat}
    {spans : List Span} (hcourse : Course e shape budget bytes pos spans) :
    ∀ span ∈ spans, pos ≤ span.start := by
  induction hcourse with
  | done => simp
  | pass hnone hrest ih =>
      intro span hmem
      exact Nat.le_of_succ_le (ih span hmem)
  | keep hcandidate hkeeps hrest ih =>
      have hle := hcandidate.le_stop hlabels
      intro span hmem
      rcases List.mem_cons.mp hmem with rfl | hmem
      · exact Nat.le_refl _
      · exact Nat.le_trans (by omega) (ih span hmem)
  | reject hcandidate hrejects hrest ih =>
      intro span hmem
      exact Nat.le_trans (Nat.le_of_lt (hcandidate.lt_resume hlabels)) (ih span hmem)

theorem Course.pairwise (hlabels : ∀ name ∈ shape.labels, IsLabel name) {pos : Nat}
    {spans : List Span} (hcourse : Course e shape budget bytes pos spans) :
    spans.Pairwise fun left right => left.stop ≤ right.start := by
  induction hcourse with
  | done => exact .nil
  | pass hnone hrest ih => exact ih
  | keep hcandidate hkeeps hrest ih => exact .cons (hrest.start_le hlabels) ih
  | reject hcandidate hrejects hrest ih => exact ih

theorem Course.exists_candidate {pos : Nat} {spans : List Span}
    (hcourse : Course e shape budget bytes pos spans) :
    ∀ span ∈ spans, e.keepsSpan bytes span = true ∧
      ∃ tag, Candidate e shape budget bytes span.start tag span.stop := by
  induction hcourse with
  | done => simp
  | pass hnone hrest ih => exact ih
  | keep hcandidate hkeeps hrest ih =>
      intro span hmem
      rcases List.mem_cons.mp hmem with rfl | hmem
      · exact ⟨hkeeps, _, hcandidate⟩
      · exact ih span hmem
  | reject hcandidate hrejects hrest ih => exact ih

end Positions

end MarkupSeeds.Extractor
