import MarkupSeeds.Config
import MarkupSeeds.Pool
import MarkupSeeds.Writer

/-!
# A run

A run makes the corpus directory, lists the fixtures, pools their snippets, and stores
the pairs made from them one after another.  An error ends it; what was stored before
stays.
-/

namespace MarkupSeeds

/-- The corpus of the fixtures of a directory, with the notices on the way. -/
def collect (d : Disk) (config : Config) (report : Report) : Except SeedError Pool :=
  match Fixtures.inDirectory d config.fixturesDir with
  | .ok fixtures =>
    let pool := Pool.ofFixtures config.extractor (fixtures.readAll d) report
    let listed := Notice.info
      (toString fixtures.remaining ++ " fixtures in " ++ config.fixturesDir.text)
    .ok { pool with notices := listed :: pool.notices }
  | .error error => .error error

/-- How far a run has come, and the error that has ended it. -/
structure Progress where
  report : Report
  writer : Writer
  disk : Disk
  notices : List Notice
  failure : Option SeedError := none

namespace Progress

/-- Hands one pair to the writer and counts the outcome. -/
def step (p : Progress) (seed : Strategy × Pair) : Progress :=
  let storing := p.writer.write p.disk seed.1 seed.2
  let p := { p with
    writer := storing.writer
    disk := storing.disk
    notices := p.notices ++ storing.notices }
  match storing.result with
  | .ok outcome => { p with report := p.report.record seed.1 outcome }
  | .error error => { p with failure := some error }

/-- Hands over pairs until one fails. -/
def steps (p : Progress) : List (Strategy × Pair) → Progress
  | [] => p
  | seed :: rest =>
    let p := p.step seed
    if p.failure.isSome then p else p.steps rest

end Progress

/-- The closing notices of a run: each strategy's counts, and the seeds made in all. -/
def Report.notices (r : Report) (corpusDir : Path) : List Notice :=
  (Strategy.all.map fun strategy =>
    let t := r.tally strategy
    Notice.info (strategy.display ++ ": " ++ toString t.pairs ++ " pairs, "
      ++ toString t.created ++ " new, " ++ toString t.existing ++ " already present"))
    ++ [Notice.info ("created " ++ toString r.seedsCreated ++ " new seed files in "
      ++ corpusDir.text)]

/-- What a run leaves behind. -/
structure Run where
  result : Except SeedError Report
  disk : Disk
  notices : List Notice

/-- The writer that a configuration asks for. -/
def Config.writer (config : Config) (d : Disk) : Except SeedError Writer × Disk :=
  if config.dryRun then (.ok (Writer.ofDryRun config.corpusDir), d)
  else Writer.create d config.corpusDir

/-- The pairs of a corpus, and the notice of their random part. -/
def Config.stream (config : Config) (corpus : Corpus) : List (Strategy × Pair) × Notice :=
  let crossing := config.synthesizer.crossed corpus config.generator
  (config.synthesizer.stream corpus crossing, crossing.notice)

def run (d : Disk) (config : Config) : Run :=
  match config.writer d with
  | (.error error, d) => ⟨.error error, d, []⟩
  | (.ok writer, d) =>
    match collect d config {} with
    | .error error => ⟨.error error, d, []⟩
    | .ok pool =>
      let (seeds, notice) := config.stream pool.corpus
      let p := Progress.steps ⟨pool.report, writer, d, pool.notices ++ [notice], none⟩ seeds
      match p.failure with
      | some error => ⟨.error error, p.disk, p.notices⟩
      | none => ⟨.ok p.report, p.disk, p.notices ++ p.report.notices config.corpusDir⟩

end MarkupSeeds
