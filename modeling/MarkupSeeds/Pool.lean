import MarkupSeeds.Corpus
import MarkupSeeds.Extractor
import MarkupSeeds.Fixture
import MarkupSeeds.Report

/-!
# Pooling fixtures

The snippets of all documents are pooled into one corpus, while the report counts the
documents and their snippets.  Fixtures that could not be read are counted and skipped.

The counts go on top of a report that the caller hands in.  Counters are 64-bit words, so a sum
may be too large for one of them; a run, which counts from zero, never comes near that.
-/

namespace MarkupSeeds

/-- What a build of the program does with a sum that is too large for a counter. -/
inductive Overflow
  /-- The program ends. -/
  | stops
  /-- The counter keeps the lower 64 bits. -/
  | wraps
  deriving DecidableEq, Repr

/-- A counter that was raised, or nothing if the program ends. -/
def Overflow.raise? (overflow : Overflow) (count amount : Nat) : Option Nat :=
  if count + amount ≤ Size.largest then some (count + amount)
  else match overflow with
    | .stops => none
    | .wraps => some (Size.wrap (count + amount))

structure Pool where
  corpus : Corpus
  report : Report
  notices : List Notice

namespace Pool

/-- Pools one more fixture, with counters that are raised by `raise`. -/
def addBy {m : Type → Type} [Monad m] (raise : Nat → Nat → m Nat) (e : Extractor) (p : Pool)
    (fixture : Fixture) : m Pool :=
  match fixture.document with
  | .ok document => do
    let findings := e.findings document.text
    let snippets := findings.flatMap Prod.snd
    let fixturesRead ← raise p.report.fixturesRead 1
    let snippetsFound ← raise p.report.snippetsFound snippets.length
    return {
      corpus := p.corpus.extend snippets
      report := { p.report with fixturesRead, snippetsFound }
      notices := p.notices ++ findings.map Extractor.notice
        ++ [.info (document.name ++ ": found " ++ toString snippets.length ++ " snippets")] }
  | .error error => do
    let fixturesFailed ← raise p.report.fixturesFailed 1
    return { p with
      report := { p.report with fixturesFailed }
      notices := p.notices
        ++ [⟨.warn, .run, "skipping " ++ fixture.path.text ++ ": " ++ error.message⟩] }

/-- Pools one more fixture, with counters that have room for every sum. -/
def add (e : Extractor) (p : Pool) (fixture : Fixture) : Pool :=
  Id.run (addBy (fun count amount => pure (count + amount)) e p fixture)

/-- Enters the size of the corpus into the report. -/
def conclude (p : Pool) : Pool :=
  { p with
    report := { p.report with uniqueSnippets := p.corpus.size }
    notices := p.notices
      ++ [.info (toString p.report.snippetsFound ++ " snippets total, "
        ++ toString p.corpus.size ++ " unique")] }

/-- Pools fixtures on top of what a report has counted so far. -/
def ofFixtures (e : Extractor) (fixtures : List Fixture) (report : Report) : Pool :=
  (fixtures.foldl (add e) ⟨Corpus.empty, report, []⟩).conclude

/-- Pools fixtures with counters that are words. -/
def inWords? (overflow : Overflow) (e : Extractor) (fixtures : List Fixture) (report : Report) :
    Option Pool := do
  let p ← fixtures.foldlM (addBy overflow.raise? e) ⟨Corpus.empty, report, []⟩
  return p.conclude

end Pool

end MarkupSeeds
