import MarkupSeeds.Proofs.Run.Pooling
import MarkupSeeds.Proofs.Run.Steps

/-!
# What the seeds depend on

The corpus holds the snippets of all texts that were read, in ascending order.  What the
fixtures are called, in which order they come, how often a text occurs and what could not be
read is lost on the way, so it cannot show in the seeds.
-/

namespace MarkupSeeds

namespace Pool

section

variable {e : Extractor} {fixtures others : List Fixture} {t : String}

/-- A text is pooled if it is a snippet of a text that was read. -/
theorem mem_ofFixtures {report : Report} :
    t ∈ (ofFixtures e fixtures report).corpus.texts ↔
      ∃ text ∈ readTexts fixtures, t ∈ e.extract text := by
  rw [corpus_ofFixtures, Corpus.mem_ofList, snippetsOf, List.mem_flatMap]

theorem corpus_eq_of_readTexts {report report' : Report}
    (htexts : ∀ text, text ∈ readTexts fixtures ↔ text ∈ readTexts others) :
    (ofFixtures e fixtures report).corpus = (ofFixtures e others report').corpus := by
  apply Corpus.eq_of_mem_iff
  intro t
  simp only [mem_ofFixtures, htexts]

end

end Pool

/-- The fixtures that a run reads. -/
def Config.fixtures? (config : Config) (d : Disk) : Except SeedError (List Fixture) :=
  match Fixtures.inDirectory (config.writer d).2 config.fixturesDir with
  | .ok fixtures => .ok (fixtures.readAll (config.writer d).2)
  | .error error => .error error

/-- The seeds of a run are made from the corpus of its fixtures. -/
theorem seeds_of_fixtures? {config : Config} {d : Disk} {fixtures : List Fixture}
    (hfixtures : config.fixtures? d = .ok fixtures) :
    config.seeds d = config.synthesizer.synthesize
      (Pool.ofFixtures config.extractor fixtures {}).corpus config.generator := by
  rw [Config.fixtures?] at hfixtures
  split at hfixtures
  · rename_i listed hlisted
    cases hfixtures
    rw [Config.seeds, collect, hlisted]
    rfl
  · cases hfixtures

/-- A run reads the given fixtures, cuts snippets out of them with an extractor and pairs the
snippets with a synthesizer that starts from a random seed. -/
structure Config.Makes (config : Config) (d : Disk) (fixtures : List Fixture) (e : Extractor)
    (s : Synthesizer) (randomSeed : UInt64) : Prop where
  fixtures? : config.fixtures? d = .ok fixtures
  extractor : config.extractor = e
  synthesizer : config.synthesizer = s
  randomSeed : config.randomSeed = randomSeed

theorem Config.Makes.seeds_eq {config : Config} {d : Disk} {fixtures : List Fixture}
    {e : Extractor} {s : Synthesizer} {randomSeed : UInt64}
    (hmakes : config.Makes d fixtures e s randomSeed) :
    config.seeds d =
      s.synthesize (Pool.ofFixtures e fixtures {}).corpus (Generator.ofSeed randomSeed) := by
  obtain ⟨hfixtures, rfl, rfl, rfl⟩ := hmakes
  exact seeds_of_fixtures? hfixtures

/-- Fixtures with the same set of texts lead to the same corpus and to the same pairs, whatever
they are called and however often and in whichever order they come.  So two runs that read the
same set of texts hand over the same seeds. -/
theorem seeds_depend_on_readTexts {fixtures others : List Fixture} (e : Extractor)
    (s : Synthesizer) (randomSeed : UInt64) (report report' : Report)
    (htexts : ∀ text, text ∈ readTexts fixtures ↔ text ∈ readTexts others) :
    (Pool.ofFixtures e fixtures report).corpus = (Pool.ofFixtures e others report').corpus ∧
      s.synthesize (Pool.ofFixtures e fixtures report).corpus (Generator.ofSeed randomSeed) =
        s.synthesize (Pool.ofFixtures e others report').corpus (Generator.ofSeed randomSeed) ∧
      ∀ (config config' : Config) (d d' : Disk), config.Makes d fixtures e s randomSeed →
        config'.Makes d' others e s randomSeed → config.seeds d = config'.seeds d' := by
  have hcorpus : ∀ report report', (Pool.ofFixtures e fixtures report).corpus =
      (Pool.ofFixtures e others report').corpus :=
    fun _ _ => Pool.corpus_eq_of_readTexts htexts
  refine ⟨hcorpus report report', by rw [hcorpus report report'], ?_⟩
  intro config config' d d' hmakes hothers
  rw [hmakes.seeds_eq, hothers.seeds_eq, hcorpus {} {}]

/-- Two pages and, beside them, three copies under other names. -/
def copiedDisk : Disk where
  entries :=
    [(["pages"], .directory),
     (["pages", "a.html"], .file (Utf8.encode "<p>Hello</p>")),
     (["pages", "b.html"], .file (Utf8.encode "<b>there</b>")),
     (["copies"], .directory),
     (["copies", "x.html"], .file (Utf8.encode "<b>there</b>")),
     (["copies", "y.HTML"], .file (Utf8.encode "<p>Hello</p>")),
     (["copies", "z.html"], .file (Utf8.encode "<b>there</b>"))]
  closed := by decide
  named := by decide
  workingDirectory := []

theorem exists_of_map_eq_ok {ε α β : Type} {f : α → β} {a? : Except ε α} {b : β}
    (hmap : a?.map f = .ok b) : ∃ a, a? = .ok a ∧ f a = b := by
  cases a? with
  | error error => cases hmap
  | ok a => exact ⟨a, rfl, Except.ok.inj hmap⟩

theorem seeds_depend_on_readTexts_of_copies :
    Config.seeds { fixturesDir := ⟨"pages"⟩, dryRun := true } copiedDisk =
      Config.seeds { fixturesDir := ⟨"copies"⟩, corpusDir := ⟨"copies/seeds"⟩ } copiedDisk := by
  have hpages : (Config.fixtures? { fixturesDir := ⟨"pages"⟩, dryRun := true } copiedDisk).map
      readTexts = .ok ["<p>Hello</p>", "<b>there</b>"] := by
    decide +kernel
  have hcopies : (Config.fixtures? { fixturesDir := ⟨"copies"⟩, corpusDir := ⟨"copies/seeds"⟩ }
      copiedDisk).map readTexts = .ok ["<b>there</b>", "<p>Hello</p>", "<b>there</b>"] := by
    decide +kernel
  obtain ⟨fixtures, hfixtures, htexts⟩ := exists_of_map_eq_ok hpages
  obtain ⟨others, hothers, htexts'⟩ := exists_of_map_eq_ok hcopies
  have hsame : ∀ text, text ∈ readTexts fixtures ↔ text ∈ readTexts others := by
    rw [htexts, htexts']
    simp only [List.mem_cons, List.not_mem_nil, or_false]
    tauto
  exact (seeds_depend_on_readTexts _ _ _ {} {} hsame).2.2 _ _ _ _ ⟨hfixtures, rfl, rfl, rfl⟩
    ⟨hothers, rfl, rfl, rfl⟩

end MarkupSeeds
