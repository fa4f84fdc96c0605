import Mathlib.Data.List.Forall2
import MarkupSeeds.Proofs.Run.Counters
import MarkupSeeds.Proofs.Run.Texts

/-!
# Pooling in batches

Fixtures can be pooled in several calls, each on top of the report that the one before has left.
What counts documents and snippets adds up to the counts of a single call, and the corpora hold
together what its corpus would.  The number of unique snippets is entered anew by each call, so
it speaks of the last batch only.  All of this holds of counters that are words, whether a build
stops at a sum that is too large for them or not.
-/

namespace MarkupSeeds

/-- The number of snippets of all texts that were read, repeated ones included. -/
def snippetCount (e : Extractor) (fixtures : List Fixture) : Nat :=
  ((readTexts fixtures).map fun text => (e.extract text).length).sum

theorem length_snippetsOf (e : Extractor) (fixtures : List Fixture) :
    (snippetsOf e fixtures).length = snippetCount e fixtures :=
  List.length_flatMap

theorem Fixture.isSome_text? (fixture : Fixture) : fixture.text?.isSome = fixture.document.isOk := by
  rw [text?]
  cases fixture.document <;> rfl

theorem Fixture.text?_eq_some_iff {fixture : Fixture} {text : String} :
    fixture.text? = some text ↔
      ∃ document, fixture.document = .ok document ∧ document.text = text := by
  rw [text?]
  cases fixture.document <;> simp

theorem exists_mem_readTexts_iff {fixtures : List Fixture} {p : String → Prop} :
    (∃ text ∈ readTexts fixtures, p text) ↔
      ∃ fixture ∈ fixtures, ∃ document, fixture.document = .ok document ∧ p document.text := by
  constructor
  · rintro ⟨text, htext, hp⟩
    obtain ⟨fixture, hmem, hread⟩ := List.mem_filterMap.mp htext
    obtain ⟨document, hdocument, rfl⟩ := Fixture.text?_eq_some_iff.mp hread
    exact ⟨fixture, hmem, document, hdocument, hp⟩
  · rintro ⟨fixture, hmem, document, hdocument, hp⟩
    have hread := Fixture.text?_eq_some_iff.mpr ⟨document, hdocument, rfl⟩
    exact ⟨document.text, List.mem_filterMap.mpr ⟨fixture, hmem, hread⟩, hp⟩

theorem length_readTexts (fixtures : List Fixture) :
    (readTexts fixtures).length = fixtures.countP fun fixture => fixture.document.isOk := by
  rw [readTexts, List.length_filterMap_eq_countP]
  simp only [Fixture.isSome_text?]

theorem failures_eq (fixtures : List Fixture) :
    failures fixtures = fixtures.countP fun fixture => !fixture.document.isOk := by
  refine List.countP_congr fun fixture _ => ?_
  rw [← Fixture.isSome_text?, Option.not_isSome, decide_eq_true_iff, Option.isNone_iff_eq_none]

/-- What a report counts, said of the documents that were loaded. -/
theorem Report.pool_eq (r : Report) (e : Extractor) (fixtures : List Fixture) :
    r.pool e fixtures =
      { r with
        fixturesRead := r.fixturesRead + fixtures.countP fun fixture => fixture.document.isOk
        fixturesFailed :=
          r.fixturesFailed + fixtures.countP fun fixture => !fixture.document.isOk
        snippetsFound := r.snippetsFound + snippetCount e fixtures } := by
  rw [pool, length_readTexts, failures_eq, length_snippetsOf]

/-- Counting two lists of fixtures one after the other is counting both at once. -/
theorem Report.pool_append (r : Report) (e : Extractor) (fixtures more : List Fixture) :
    r.pool e (fixtures ++ more) = (r.pool e fixtures).pool e more := by
  simp [pool, readTexts, failures, snippetsOf, Nat.add_assoc]

namespace Pool

/-- The pools of calls one after another, each on top of the report of the one before. -/
def ofBatches? (overflow : Overflow) (e : Extractor) :
    List (List Fixture) → Report → Option (List Pool)
  | [], _ => some []
  | batch :: batches, report => do
      let pool ← inWords? overflow e batch report
      let pools ← ofBatches? overflow e batches pool.report
      return pool :: pools

/-- The report that some calls leave. -/
def lastReport (report : Report) (pools : List Pool) : Report :=
  (pools.getLast?.map Pool.report).getD report

theorem lastReport_cons (report : Report) (pool : Pool) (pools : List Pool) :
    lastReport report (pool :: pools) = lastReport pool.report pools := by
  rw [lastReport, lastReport, List.getLast?_cons]
  cases pools.getLast? <;> rfl

variable {overflow : Overflow} {e : Extractor} {report : Report}
  {fixtures more batch : List Fixture} {batches : List (List Fixture)} {pools : List Pool}

theorem ofBatches?_cons_eq_some_iff :
    ofBatches? overflow e (batch :: batches) report = some pools ↔
      ∃ pool rest, inWords? overflow e batch report = some pool ∧
        ofBatches? overflow e batches pool.report = some rest ∧ pools = pool :: rest := by
  simp only [ofBatches?, Option.bind_eq_bind, Option.bind_eq_some_iff, Option.pure_def,
    Option.some.injEq]
  constructor
  · rintro ⟨pool, hpool, rest, hrest, rfl⟩
    exact ⟨pool, rest, hpool, hrest, rfl⟩
  · rintro ⟨pool, rest, hpool, hrest, rfl⟩
    exact ⟨pool, hpool, rest, hrest, rfl⟩

theorem isSome_ofBatches?_cons {pool : Pool}
    (hpool : inWords? overflow e batch report = some pool) :
    (ofBatches? overflow e (batch :: batches) report).isSome =
      (ofBatches? overflow e batches pool.report).isSome := by
  simp only [ofBatches?, hpool, Option.bind_eq_bind, Option.bind_some]
  cases ofBatches? overflow e batches pool.report <;> rfl

/-! ### What the counters come to -/

/-- Whether counters fit does not depend on the number of unique snippets. -/
theorem fits_pool_ofFixtures_iff :
    ((ofFixtures e fixtures report).report.pool e more).Fits ↔
      (report.pool e (fixtures ++ more)).Fits := by
  rw [report_ofFixtures, Report.pool_append]
  constructor
  · intro hfits
    exact ⟨hfits.fixturesRead, hfits.fixturesFailed, hfits.snippetsFound⟩
  · intro hfits
    exact ⟨hfits.fixturesRead, hfits.fixturesFailed, hfits.snippetsFound⟩

/-- Batches are pooled to the end exactly if their fixtures would be in one call. -/
theorem isSome_ofBatches?_iff (hbefore : report.Fits) :
    (ofBatches? overflow e batches report).isSome ↔
      overflow = .wraps ∨ (report.pool e batches.flatten).Fits := by
  induction batches generalizing report with
  | nil => exact iff_of_true rfl (Or.inr hbefore)
  | cons batch batches ih =>
      have hfirst : (inWords? overflow e batch report).isSome ↔
          overflow = .wraps ∨ (report.pool e batch).Fits := isSome_inWords?_iff hbefore
      rw [List.flatten_cons]
      cases hpool : inWords? overflow e batch report with
      | none =>
          rw [hpool] at hfirst
          have hnot := not_or.mp fun hor => Bool.false_ne_true (hfirst.mpr hor)
          rw [ofBatches?, hpool]
          refine iff_of_false Bool.false_ne_true (not_or.mpr ⟨hnot.1, fun hfits => hnot.2 ?_⟩)
          rw [Report.pool_append] at hfits
          exact hfits.of_pool
      | some pool =>
          have hkeeps := keepsOf_of_inWords? hbefore hpool
          have hafter : pool.report.Fits := hkeeps.report ▸ Report.fits_wrapped _
          rw [isSome_ofBatches?_cons hpool, ih hafter]
          refine or_congr_right' fun hstops => ?_
          -- A build that stops has come this far only because nothing was lost yet.
          have hfits := (hfirst.mp (by rw [hpool]; rfl)).resolve_left hstops
          rw [inWords?_of_fits hfits] at hpool
          cases hpool
          exact fits_pool_ofFixtures_iff

/-- The report goes through the batches as it would through their fixtures, but for the number of
unique snippets. -/
theorem exists_lastReport_eq (hbefore : report.Fits)
    (hpools : ofBatches? overflow e batches report = some pools) :
    ∃ unique, lastReport report pools =
      { (report.pool e batches.flatten).wrapped with uniqueSnippets := unique } := by
  induction batches generalizing report pools with
  | nil =>
      cases hpools
      exact ⟨report.uniqueSnippets, hbefore.wrapped_eq.symm⟩
  | cons batch batches ih =>
      obtain ⟨pool, rest, hpool, hrest, rfl⟩ := ofBatches?_cons_eq_some_iff.mp hpools
      have hreport := (keepsOf_of_inWords? hbefore hpool).report
      obtain ⟨unique, hlast⟩ := ih (hreport ▸ Report.fits_wrapped _) hrest
      refine ⟨unique, ?_⟩
      rw [lastReport_cons, hlast, hreport, Report.wrapped_pool, report_ofFixtures,
        List.flatten_cons, Report.pool_append]
      rfl

/-! ### What the corpora come to -/

/-- Each call has the corpus of its own batch. -/
theorem forall₂_keepsOf (hbefore : report.Fits)
    (hpools : ofBatches? overflow e batches report = some pools) :
    List.Forall₂ (fun batch pool => ∃ before, KeepsOf pool (ofFixtures e batch before)) batches
      pools := by
  induction batches generalizing report pools with
  | nil =>
      cases hpools
      exact .nil
  | cons batch batches ih =>
      obtain ⟨pool, rest, hpool, hrest, rfl⟩ := ofBatches?_cons_eq_some_iff.mp hpools
      have hkeeps := keepsOf_of_inWords? hbefore hpool
      exact .cons ⟨report, hkeeps⟩ (ih (hkeeps.report ▸ Report.fits_wrapped _) hrest)

/-- The corpora of the batches hold together what the corpus of all fixtures holds. -/
theorem mem_corpora_iff (hbefore : report.Fits)
    (hpools : ofBatches? overflow e batches report = some pools) {t : String} :
    (∃ pool ∈ pools, t ∈ pool.corpus.texts) ↔
      ∃ text ∈ readTexts batches.flatten, t ∈ e.extract text := by
  have hcorpora := forall₂_keepsOf hbefore hpools
  clear hpools
  induction hcorpora with
  | nil => simp [readTexts]
  | cons hkeeps _ ih =>
      obtain ⟨before, hcorpus, -⟩ := hkeeps
      rw [List.flatten_cons, readTexts, List.filterMap_append, ← readTexts, ← readTexts]
      simp only [List.mem_cons, List.mem_append, or_and_right, exists_or, exists_eq_left,
        hcorpus, mem_ofFixtures, ih]

theorem uniqueSnippets_le_snippetCount (e : Extractor) (fixtures : List Fixture)
    (report : Report) :
    (ofFixtures e fixtures report).report.uniqueSnippets ≤ snippetCount e fixtures := by
  rw [report_ofFixtures, ← length_snippetsOf]
  exact Corpus.size_ofList_le _

theorem forall₂_uniqueSnippets_le (hbefore : report.Fits)
    (hpools : ofBatches? overflow e batches report = some pools) :
    List.Forall₂ (fun batch pool => pool.report.uniqueSnippets ≤ snippetCount e batch) batches
      pools := by
  refine (forall₂_keepsOf hbefore hpools).imp ?_
  rintro batch pool ⟨before, -, hreport⟩
  rw [hreport]
  exact uniqueSnippets_le_snippetCount e batch before

/-! ### Both together -/

theorem fits_pool_iff :
    (report.pool e fixtures).Fits ↔
      report.fixturesRead + fixtures.countP (fun fixture => fixture.document.isOk) ≤ Size.largest ∧
        report.fixturesFailed + fixtures.countP (fun fixture => !fixture.document.isOk) ≤
          Size.largest ∧
        report.snippetsFound + snippetCount e fixtures ≤ Size.largest := by
  rw [Report.pool_eq]
  constructor
  · intro hfits
    exact ⟨hfits.fixturesRead, hfits.fixturesFailed, hfits.snippetsFound⟩
  · rintro ⟨hread, hfailed, hfound⟩
    exact ⟨hread, hfailed, hfound⟩

-- Both pages have a snippet of their own, but what is left counts the second page only.
example :
    let first : Fixture := ⟨⟨"a.html"⟩, .ok ⟨"a.html", "<p>Hello</p>"⟩⟩
    let second : Fixture := ⟨⟨"b.html"⟩, .ok ⟨"b.html", "<p>there</p>"⟩⟩
    (ofBatches? .stops {} [[first], [second]] {}).map
        (fun pools => (lastReport {} pools).uniqueSnippets) = some 1 ∧
      (inWords? .stops {} [first, second] {}).map (fun pool => pool.report.uniqueSnippets) =
        some 2 := by decide +kernel

end Pool

end MarkupSeeds
