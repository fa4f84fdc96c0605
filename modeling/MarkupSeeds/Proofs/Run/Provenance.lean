import MarkupSeeds.Proofs.Run.Again
import MarkupSeeds.Proofs.Run.Balance

/-!
# Where seeds come from

A seed that was handed over is in its place when a run has succeeded.  Its name is the digest of
what is stored there, and its pair can be had back from it.  Unless the pair was written by hand,
it is made of pieces of the fixtures that were read.
-/

namespace MarkupSeeds

namespace Config

variable {config : Config} {d : Disk}

/-- A run has the decoded text of one of its fixtures. -/
def Reads (config : Config) (d : Disk) (text : String) : Prop :=
  ∃ fixtures, Fixtures.inDirectory (config.writer d).2 config.fixturesDir = .ok fixtures ∧
    ∃ path ∈ fixtures.pending, ∃ content,
      (config.writer d).2.read path = .ok content ∧ Utf8.lossy content = text

/-- A piece of a fixture that is neither too short nor too long. -/
structure CutsOut (config : Config) (d : Disk) (snippet : String) : Prop where
  long : 10 < snippet.length
  short : snippet.length ≤ config.maxLength
  verbatim : ∃ front rest, config.Reads d (front ++ snippet ++ rest)

/-- How the pairs of each strategy come about. -/
inductive Derives (config : Config) (d : Disk) : Strategy × Pair → Prop
  | mutated {pair} (hbefore : config.CutsOut d pair.before)
      (hafter : pair.after = spaceOut pair.before) (hne : pair.after ≠ pair.before) :
      Derives config d (.mutated, pair)
  | crossed {pair} (hbefore : config.CutsOut d pair.before) (hafter : config.CutsOut d pair.after)
      (hne : pair.before ≠ pair.after) : Derives config d (.crossed, pair)
  | curated {pair} (hmem : pair ∈ curatedPairs) : Derives config d (.curated, pair)

end Config

/-- The texts of fixtures are what is decoded from their files. -/
theorem mem_readTexts_readAll {d : Disk} {fixtures : Fixtures} {text : String} :
    text ∈ readTexts (fixtures.readAll d) ↔
      ∃ path ∈ fixtures.pending, ∃ content, d.read path = .ok content ∧
        Utf8.lossy content = text := by
  rw [readTexts, Fixtures.readAll, List.filterMap_map, List.mem_filterMap]
  refine exists_congr fun path => and_congr_right fun _ => ?_
  rw [Function.comp_apply, Fixture.text?, Document.read]
  cases d.read path with
  | ok content => simp
  | error fault => simp

section

variable {d made : Disk} {config : Config} {w : Writer} {pool : Pool}
  (hwriter : config.writer d = (.ok w, made)) (hcollect : collect made config {} = .ok pool)

include hwriter hcollect

/-- Every pooled snippet is a piece of a fixture. -/
theorem cutsOut_of_collect {snippet : String} (hmem : snippet ∈ pool.corpus.texts) :
    config.CutsOut d snippet := by
  obtain ⟨fixtures, hlisted, text, htext, shape, span, hfinds⟩ :=
    exists_finds_of_collect hcollect hmem
  obtain ⟨front, rest, rfl, -, -⟩ := hfinds.slice
  refine ⟨hfinds.long, hfinds.short, front, rest, fixtures, ?_⟩
  rw [hwriter]
  exact ⟨hlisted, mem_readTexts_readAll.mp htext⟩

theorem derives_of_mem_seeds {seed : Strategy × Pair} (hmem : seed ∈ config.seeds d) :
    config.Derives d seed := by
  rw [seeds_eq hwriter hcollect] at hmem
  obtain ⟨strategy, pair⟩ := seed
  have hpart := Synthesizer.mem_stream_iff.mp hmem
  cases strategy with
  | mutated =>
      obtain ⟨hbefore, hafter, hne⟩ := Synthesizer.mem_mutated_iff.mp hpart
      exact .mutated (cutsOut_of_collect hwriter hcollect (List.mem_of_mem_take hbefore)) hafter hne
  | crossed =>
      obtain ⟨hbefore, hafter, hne⟩ := Synthesizer.mem_crossed hpart
      exact .crossed (cutsOut_of_collect hwriter hcollect hbefore)
        (cutsOut_of_collect hwriter hcollect hafter) hne
  | curated => exact .curated hpart

end

/-- Every seed of a real run that succeeds is stored as a whole under the name that its content
has, and its pair comes from the fixtures in the way of its strategy. -/
theorem stored_seeds_come_from_fixtures {d : Disk} {config : Config} {report : Report}
    (hreal : config.dryRun = false) (hrun : (run d config).result = .ok report)
    (hnames : NoCollision (config.seeds d)) :
    ∀ seed ∈ config.seeds d,
      (∃ content,
        (run d config).disk.read (config.corpusDir.join (seed.2.name seed.1)) = .ok content ∧
          Pair.decode? content = some seed.2 ∧
          seed.2.name seed.1 = seed.1.mark ++ Hex.encode (Sha1.digest content)) ∧
        config.Derives d seed := by
  intro seed hmem
  obtain ⟨w, made, pool, hwriter, hcollect, hgoes, -⟩ := exists_progress_of_run hrun
  obtain ⟨hdir, dir, hserves, hok, hdisk⟩ := handOver_of_progress hreal hwriter hgoes
  refine ⟨⟨seed.2.encode, ?_, Pair.decode?_eq_some_iff.mpr rfl, rfl⟩,
    derives_of_mem_seeds hwriter hcollect hmem⟩
  rw [seeds_eq hwriter hcollect] at hnames hmem
  rw [(result_run hwriter hcollect).2, hdisk, ← hdir]
  exact Writer.read_handOver hserves hok hnames hmem

theorem stored_seeds_come_from_fixtures_of_pages :
    (.crossed, ⟨"<p>there</p>", "<p>Hello</p>"⟩) ∈ pagesConfig.seeds pagesDisk ∧
      (∃ content, (run pagesDisk pagesConfig).disk.read
          ⟨"corpus/new/fixture_pair_5b575500a7ddae6195213fbb4af4dc49f87706f7"⟩ = .ok content ∧
        Pair.decode? content = some ⟨"<p>there</p>", "<p>Hello</p>"⟩) ∧
      pagesConfig.CutsOut pagesDisk "<p>there</p>" := by
  have hmem : (.crossed, ⟨"<p>there</p>", "<p>Hello</p>"⟩) ∈ pagesConfig.seeds pagesDisk := by
    decide +kernel
  have hpath : pagesConfig.corpusDir.join (Pair.name ⟨"<p>there</p>", "<p>Hello</p>"⟩ .crossed) =
      ⟨"corpus/new/fixture_pair_5b575500a7ddae6195213fbb4af4dc49f87706f7"⟩ := by
    decide +kernel
  obtain ⟨⟨content, hread, hdecode, -⟩, hderives⟩ := stored_seeds_come_from_fixtures rfl
    result_run_pagesDisk noCollision_pagesDisk _ hmem
  refine ⟨hmem, ⟨content, hpath ▸ hread, hdecode⟩, ?_⟩
  cases hderives with
  | crossed hbefore => exact hbefore

end MarkupSeeds
