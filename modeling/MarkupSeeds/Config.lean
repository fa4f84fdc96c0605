import MarkupSeeds.Disk.Path
import MarkupSeeds.Extractor
import MarkupSeeds.Pairing

/-!
# Configuration

Everything that a run needs to know, with the defaults for what a caller leaves open.
-/

namespace MarkupSeeds

def defaultFixturesDir : Path := ⟨"tests/fixtures"⟩

def defaultCorpusDir : Path := ⟨"fuzz/corpus/apply_parity"⟩

def defaultRandomSeed : UInt64 := 42

structure Config where
  fixturesDir : Path := defaultFixturesDir
  corpusDir : Path := defaultCorpusDir
  maxLength : Nat := defaultMaxLength
  mutateLimit : Nat := defaultMutateLimit
  crossLimit : Nat := defaultCrossLimit
  randomSeed : UInt64 := defaultRandomSeed
  nesting : Markup.Nesting := .balanced
  /-- Count the seeds without writing them. -/
  dryRun : Bool := false
  deriving DecidableEq, Repr

namespace Config

def extractor (c : Config) : Extractor := ⟨c.maxLength, c.nesting⟩

def synthesizer (c : Config) : Synthesizer := ⟨c.mutateLimit, c.crossLimit⟩

def generator (c : Config) : Generator := Generator.ofSeed c.randomSeed

end Config

end MarkupSeeds
