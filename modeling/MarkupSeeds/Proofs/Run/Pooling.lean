import MarkupSeeds.Proofs.Corpus.Members
import MarkupSeeds.Run

/-!
# What a pool counts

Pooling fixtures comes to this: every text that was read is counted and its snippets are put into
the corpus, and every fixture that could not be read is counted as failed.
-/

namespace MarkupSeeds

/-! ## Counting fixtures -/

/-- The text of a fixture that could be read. -/
def Fixture.text? (fixture : Fixture) : Option String :=
  match fixture.document with
  | .ok document => some document.text
  | .error _ => none

/-- The texts of the fixtures that could be read. -/
def readTexts (fixtures : List Fixture) : List String := fixtures.filterMap Fixture.text?

/-- All snippets of the texts that were read, repeated ones included. -/
def snippetsOf (e : Extractor) (fixtures : List Fixture) : List String :=
  (readTexts fixtures).flatMap e.extract

/-- Fixtures that could not be read. -/
def failures (fixtures : List Fixture) : Nat := fixtures.countP fun fixture => fixture.text? = none

theorem length_readTexts_add_failures (fixtures : List Fixture) :
    (readTexts fixtures).length + failures fixtures = fixtures.length := by
  induction fixtures with
  | nil => rfl
  | cons fixture rest ih =>
      rw [readTexts, failures] at ih ⊢
      rw [List.filterMap_cons, List.countP_cons, List.length_cons]
      cases hread : fixture.text? with
      | none => simp; omega
      | some text => simp; omega

/-- A report after some fixtures more. -/
def Report.pool (r : Report) (e : Extractor) (fixtures : List Fixture) : Report :=
  { r with
    fixturesRead := r.fixturesRead + (readTexts fixtures).length
    fixturesFailed := r.fixturesFailed + failures fixtures
    snippetsFound := r.snippetsFound + (snippetsOf e fixtures).length }

namespace Pool

variable {e : Extractor} {p : Pool} {fixture : Fixture}

theorem add_of_some {text : String} (hread : fixture.text? = some text) :
    (p.add e fixture).corpus = p.corpus.extend (e.extract text) ∧
      (p.add e fixture).report = { p.report with
        fixturesRead := p.report.fixturesRead + 1
        snippetsFound := p.report.snippetsFound + (e.extract text).length } := by
  rw [Fixture.text?] at hread
  split at hread
  · rename_i document hdocument
    cases hread
    rw [add, addBy, hdocument]
    exact ⟨rfl, rfl⟩
  · cases hread

theorem add_of_none (hread : fixture.text? = none) :
    (p.add e fixture).corpus = p.corpus ∧
      (p.add e fixture).report =
        { p.report with fixturesFailed := p.report.fixturesFailed + 1 } := by
  rw [Fixture.text?] at hread
  split at hread
  · cases hread
  · rename_i error hdocument
    rw [add, addBy, hdocument]
    exact ⟨rfl, rfl⟩

/-- Fixtures that are added one after another count together. -/
theorem foldl_add (e : Extractor) (p : Pool) (fixtures : List Fixture) :
    (fixtures.foldl (add e) p).corpus = p.corpus.extend (snippetsOf e fixtures) ∧
      (fixtures.foldl (add e) p).report = p.report.pool e fixtures := by
  induction fixtures generalizing p with
  | nil => exact ⟨rfl, rfl⟩
  | cons fixture rest ih =>
      obtain ⟨hcorpus, hreport⟩ := ih (p.add e fixture)
      rw [List.foldl_cons, hcorpus, hreport, Report.pool, Report.pool, snippetsOf, snippetsOf,
        failures, failures, readTexts, readTexts, List.filterMap_cons, List.countP_cons]
      cases hread : fixture.text? with
      | none =>
          obtain ⟨hsame, hcounted⟩ := add_of_none (e := e) (p := p) hread
          rw [hsame, hcounted]
          simp [Nat.add_assoc, Nat.add_comm 1]
      | some text =>
          obtain ⟨hextended, hcounted⟩ := add_of_some (e := e) (p := p) hread
          rw [hextended, hcounted]
          simp [Corpus.extend_append, Nat.add_assoc, Nat.add_comm 1]

theorem corpus_ofFixtures (e : Extractor) (fixtures : List Fixture) (report : Report) :
    (ofFixtures e fixtures report).corpus = Corpus.ofList (snippetsOf e fixtures) :=
  (foldl_add e ⟨Corpus.empty, report, []⟩ fixtures).1

theorem report_ofFixtures (e : Extractor) (fixtures : List Fixture) (report : Report) :
    (ofFixtures e fixtures report).report =
      { report.pool e fixtures with
        uniqueSnippets := (Corpus.ofList (snippetsOf e fixtures)).size } := by
  obtain ⟨hcorpus, hreport⟩ := foldl_add e ⟨Corpus.empty, report, []⟩ fixtures
  rw [ofFixtures, conclude, hcorpus, hreport]
  rfl

end Pool

/-- What a run has counted and pooled before it hands over any seed. -/
theorem exists_of_collect {d : Disk} {config : Config} {report : Report} {pool : Pool}
    (hcollect : collect d config report = .ok pool) :
    ∃ fixtures, Fixtures.inDirectory d config.fixturesDir = .ok fixtures ∧
      pool.corpus = Corpus.ofList (snippetsOf config.extractor (fixtures.readAll d)) ∧
      pool.report =
        { report.pool config.extractor (fixtures.readAll d) with
          uniqueSnippets := pool.corpus.size } := by
  rw [collect] at hcollect
  split at hcollect
  · rename_i fixtures hlisted
    cases hcollect
    refine ⟨fixtures, hlisted, Pool.corpus_ofFixtures _ _ _, ?_⟩
    dsimp only
    rw [Pool.report_ofFixtures, Pool.corpus_ofFixtures]
  · cases hcollect

end MarkupSeeds
