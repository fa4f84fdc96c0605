import Mathlib.Data.Finset.Card
import Mathlib.Data.Finset.Dedup
import Mathlib.Data.Finset.SDiff
import MarkupSeeds.Proofs.Extraction.Soundness
import MarkupSeeds.Proofs.Pairing.Streams
import MarkupSeeds.Proofs.Run.DryRun
import MarkupSeeds.Proofs.Run.Pooling
import MarkupSeeds.Proofs.Writer.Fresh

/-!
# The balance of a report

Every fixture that was listed is counted as read or as failed, and every pair that was handed over
as created or as present.  The pairs of a strategy are as many as the stream has for it.  Where
nothing lay under the names of the seeds, each of them is created once, so the seeds created are
as many as there are different pairs.
-/

namespace MarkupSeeds

/-! ## Recording one outcome -/

theorem Report.tally_record (r : Report) (strategy other : Strategy) (outcome : Outcome) :
    (r.record strategy outcome).tally other =
      if strategy = other then (r.tally other).record outcome else r.tally other := by
  cases strategy <;> cases other <;> rfl

/-- Each pair was either created or present. -/
def Tally.Balanced (t : Tally) : Prop := t.pairs = t.created + t.existing

theorem Tally.Balanced.record {t : Tally} (hbalanced : t.Balanced) (outcome : Outcome) :
    (t.record outcome).Balanced := by
  rw [Balanced] at hbalanced ⊢
  cases outcome with
  | created =>
      change t.pairs + 1 = t.created + 1 + t.existing
      omega
  | alreadyPresent =>
      change t.pairs + 1 = t.created + (t.existing + 1)
      omega

/-- The counts of fixtures and snippets. -/
def Report.pooled (r : Report) : Nat × Nat × Nat × Nat :=
  (r.fixturesRead, r.fixturesFailed, r.snippetsFound, r.uniqueSnippets)

theorem Report.pooled_record (r : Report) (strategy : Strategy) (outcome : Outcome) :
    (r.record strategy outcome).pooled = r.pooled := by
  cases strategy <;> rfl

/-! ## Counting the steps of a run -/

namespace Progress

/-- What recording an outcome preserves is true of a report after any steps. -/
theorem report_steps_of_record {P : Report → Prop}
    (hrecord : ∀ r strategy outcome, P r → P (r.record strategy outcome)) {p : Progress}
    (hstart : P p.report) (seeds : List (Strategy × Pair)) : P (p.steps seeds).report := by
  induction seeds generalizing p with
  | nil => exact hstart
  | cons seed rest ih =>
      have hstep : P (p.step seed).report := by
        rw [step_eq]
        dsimp only
        split
        · exact hrecord _ _ _ hstart
        · exact hstart
      rw [steps]
      split
      · exact hstep
      · exact ih hstep

variable {p : Progress} {seeds : List (Strategy × Pair)}

/-- Where no step fails, the first one counts its seed and the others follow. -/
theorem exists_outcome_of_steps {seed : Strategy × Pair} (hstart : p.failure = none)
    (hgoes : (p.steps (seed :: seeds)).failure = none) :
    ∃ outcome, (p.writer.write p.disk seed.1 seed.2).result = .ok outcome ∧
      (p.step seed).failure = none ∧ (p.step seed).report = p.report.record seed.1 outcome ∧
      p.steps (seed :: seeds) = (p.step seed).steps seeds := by
  cases hresult : (p.writer.write p.disk seed.1 seed.2).result with
  | ok outcome => exact ⟨outcome, rfl, steps_cons_of_ok seeds hstart hresult⟩
  | error error =>
      obtain ⟨hstops, hsteps⟩ := steps_cons_of_error seeds hresult
      rw [hsteps, hstops] at hgoes
      cases hgoes

/-- Where no step fails, every seed counts as a pair of its strategy. -/
theorem pairs_steps (hstart : p.failure = none) (hgoes : (p.steps seeds).failure = none)
    (strategy : Strategy) :
    ((p.steps seeds).report.tally strategy).pairs =
      (p.report.tally strategy).pairs + (seeds.filter (·.1 = strategy)).length := by
  induction seeds generalizing p with
  | nil => rfl
  | cons seed rest ih =>
      obtain ⟨outcome, -, hstep, hreport, hsteps⟩ := exists_outcome_of_steps hstart hgoes
      have hone : ((p.report.tally strategy).record outcome).pairs =
          (p.report.tally strategy).pairs + 1 := by
        cases outcome <;> rfl
      rw [hsteps] at hgoes ⊢
      rw [ih hstep hgoes, hreport, Report.tally_record]
      split
      · rename_i hstrategy
        rw [hone, List.filter_cons_of_pos (by simpa using hstrategy), List.length_cons]
        omega
      · rename_i hstrategy
        rw [List.filter_cons_of_neg (by simpa using hstrategy)]

end Progress

/-- What is new in a list is its first entry, unless that is old, and what is new behind it. -/
theorem card_filter_insert_sdiff {α : Type} [DecidableEq α] (P : α → Prop) [DecidablePred P]
    (a : α) (rest old : Finset α) :
    ((insert a rest \ old).filter P).card =
      ((rest \ insert a old).filter P).card + if a ∉ old ∧ P a then 1 else 0 := by
  by_cases hold : a ∈ old
  · rw [Finset.insert_sdiff_of_mem _ hold, Finset.insert_eq_of_mem hold,
      if_neg fun hnew => hnew.1 hold, Nat.add_zero]
  · have hsplit : insert a rest \ old = insert a (rest \ insert a old) := by
      ext other
      by_cases hother : other = a
      · simp [hother, hold]
      · simp [hother]
    have hfresh : a ∉ (rest \ insert a old).filter P := by simp
    rw [hsplit, Finset.filter_insert]
    split
    · rename_i hwanted
      rw [Finset.card_insert_of_notMem hfresh, if_pos ⟨hold, hwanted⟩]
    · rename_i hunwanted
      rw [if_neg fun hboth => hunwanted hboth.2, Nat.add_zero]

/-- Where nothing lies under their names, the seeds created are the different ones. -/
theorem Progress.created_steps {all done seeds : List (Strategy × Pair)} (hnames : NoCollision all)
    {p : Progress} (hawaits : Writer.Awaits all done p.writer p.disk) (hsubset : seeds ⊆ all)
    (hstart : p.failure = none) (hgoes : (p.steps seeds).failure = none) (strategy : Strategy) :
    ((p.steps seeds).report.tally strategy).created =
      (p.report.tally strategy).created +
        ((seeds.toFinset \ done.toFinset).filter (·.1 = strategy)).card := by
  induction seeds generalizing p done with
  | nil => simp [steps]
  | cons seed rest ih =>
      obtain ⟨hmem, hrest⟩ := List.cons_subset.mp hsubset
      obtain ⟨outcome, hresult, hstep, hreport, hsteps⟩ := exists_outcome_of_steps hstart hgoes
      obtain ⟨hfirst, hawaits'⟩ := hawaits.write hnames hmem (by rw [hresult]; rfl)
      rw [hresult, Except.ok.injEq] at hfirst
      have hone : ((p.report.tally strategy).record outcome).created =
          (p.report.tally strategy).created + if seed ∉ done then 1 else 0 := by
        rw [hfirst, Writer.firstOutcome]
        by_cases hdone : seed ∈ done
        · rw [if_pos hdone, if_neg (not_not.mpr hdone)]
          rfl
        · rw [if_neg hdone, if_pos hdone]
          rfl
      rw [← writer_step, ← disk_step] at hawaits'
      rw [hsteps] at hgoes ⊢
      rw [ih hawaits' hrest hstep hgoes, hreport, Report.tally_record, List.toFinset_cons,
        List.toFinset_cons, card_filter_insert_sdiff]
      simp only [List.mem_toFinset]
      by_cases hstrategy : seed.1 = strategy
      · simp only [hstrategy, hone, if_true, and_true]
        omega
      · simp only [hstrategy, if_false, and_false]
        omega

/-! ## Free names -/

/-- Where the corpus is kept, nothing lies under the names of the seeds of a run. -/
def Config.Vacant (config : Config) (d : Disk) : Prop :=
  ∀ dir, (config.writer d).2.Reaches config.corpusDir dir →
    ∀ seed ∈ config.seeds d, d.node? (seedLocation dir seed) = none

/-- A file that is read lies in the place where the path of its directory leads. -/
theorem Disk.exists_reaches_of_read {d : Disk} {dir : Path} {name : String} {content : Bytes}
    (hstep : ¬ isStep name) (hread : d.read (dir.join name) = .ok content) :
    ∃ parent, d.Reaches dir parent ∧ d.node? (parent ++ [name]) = some (.file content) := by
  cases hwalk : d.walk (d.start dir) dir.stem with
  | error fault =>
      rw [read_eq_ok_iff, find_join_of_walk_error hwalk (isName_iff_not_isStep.mpr hstep)] at hread
      cases hread
  | ok parent => exact ⟨parent, hwalk, ((read_join_eq_ok_iff hwalk hstep).mp hread).2⟩

section

variable {d made : Disk} {config : Config} {w : Writer} {pool : Pool}
  (hwriter : config.writer d = (.ok w, made)) (hcollect : collect made config {} = .ok pool)
  (hgoes : (config.progress w made pool).failure = none)

include hwriter hcollect hgoes in
theorem awaits_of_vacant (hvacant : config.Vacant d) : w.Awaits (config.seeds d) [] made := by
  cases hlooks : config.dryRun with
  | true =>
      have hdry : config.writer d = (.ok (Writer.ofDryRun config.corpusDir), d) := by
        rw [Config.writer, if_pos hlooks]
      rw [Config.Vacant, hdry] at hvacant
      rw [hdry] at hwriter
      cases hwriter
      refine .looking rfl (fun seed _ => iff_of_false List.not_mem_nil List.not_mem_nil) ?_
      intro seed hmem content hread
      obtain ⟨dir, hreaches, hnode⟩ :=
        Disk.exists_reaches_of_read (not_isStep_seedName seed.1 seed.2.encode) hread
      have hnone : d.node? (dir ++ [seed.2.name seed.1]) = none := hvacant dir hreaches seed hmem
      cases hnone.symm.trans hnode
  | false =>
      obtain ⟨hdir, dir, hserves, hok, -⟩ := handOver_of_progress hlooks hwriter hgoes
      rw [Config.Vacant, hwriter, ← hdir] at hvacant
      refine .storing hserves (fun seed _ hdone => absurd hdone List.not_mem_nil) ?_
      intro seed hmem _
      have hnone := hvacant dir hserves.reaches seed hmem
      rw [seeds_eq hwriter hcollect] at hmem
      have hadmits := Writer.admits_of_isOk_handOver hserves hok hmem
      -- A directory that was made under the name would have stopped the run.
      rcases (Config.paves_of_writer hwriter).node? (seedLocation dir seed) with
        hsame | ⟨-, hdirectory, -⟩
      · rw [hsame, hnone]
      · exact absurd hdirectory hadmits.free.ne_directory

/-! ## The counts of a run -/

/-- The pairs that a run makes by one strategy. -/
def Config.part (config : Config) (c : Corpus) (strategy : Strategy) : List Pair :=
  config.synthesizer.part c (config.synthesizer.crossed c config.generator) strategy

theorem Config.filter_stream (config : Config) (c : Corpus) (strategy : Strategy) :
    (config.stream c).1.filter (·.1 = strategy) = (config.part c strategy).map (strategy, ·) :=
  Synthesizer.filter_stream strategy

include hcollect

theorem tally_of_collect (strategy : Strategy) : pool.report.tally strategy = {} := by
  obtain ⟨fixtures, -, -, hreport⟩ := exists_of_collect hcollect
  rw [hreport]
  cases strategy <;> rfl

/-- Every pooled snippet was found in a text that was read. -/
theorem exists_finds_of_collect {snippet : String} (hmem : snippet ∈ pool.corpus.texts) :
    ∃ fixtures, Fixtures.inDirectory made config.fixturesDir = .ok fixtures ∧
      ∃ text ∈ readTexts (fixtures.readAll made),
        ∃ shape span, config.extractor.Finds shape text span snippet := by
  obtain ⟨fixtures, hlisted, hcorpus, -⟩ := exists_of_collect hcollect
  rw [hcorpus, Corpus.mem_ofList, snippetsOf] at hmem
  obtain ⟨text, htext, hsnippet⟩ := List.mem_flatMap.mp hmem
  obtain ⟨shape, -, span, hfinds⟩ := Extractor.exists_finds_of_mem_extract hsnippet
  exact ⟨fixtures, hlisted, text, htext, shape, span, hfinds⟩

/-- Every pooled snippet has a tag. -/
theorem lt_mem_of_collect {snippet : String} (hmem : snippet ∈ pool.corpus.texts) :
    '<' ∈ snippet.toList := by
  obtain ⟨_, _, _, _, _, _, hfinds⟩ := exists_finds_of_collect hcollect hmem
  exact hfinds.lt_mem

theorem balanced_progress (strategy : Strategy) :
    ((config.progress w made pool).report.tally strategy).Balanced := by
  have hstart : ∀ other, (pool.report.tally other).Balanced := by
    intro other
    rw [tally_of_collect hcollect]
    rfl
  have hrecord : ∀ (r : Report) (strategy : Strategy) (outcome : Outcome),
      (∀ other, (r.tally other).Balanced) →
        ∀ other, ((r.record strategy outcome).tally other).Balanced := by
    intro r strategy outcome hbalanced other
    rw [Report.tally_record]
    split
    · exact (hbalanced other).record outcome
    · exact hbalanced other
  exact Progress.report_steps_of_record (P := fun r => ∀ other, (r.tally other).Balanced) hrecord
    hstart _ strategy

/-- The steps of a run leave the counts of its fixtures and snippets as they are. -/
theorem pooled_progress : ∃ fixtures, Fixtures.inDirectory made config.fixturesDir = .ok fixtures ∧
    pool.corpus = Corpus.ofList (snippetsOf config.extractor (fixtures.readAll made)) ∧
    (config.progress w made pool).report.pooled =
      ((readTexts (fixtures.readAll made)).length, failures (fixtures.readAll made),
        (snippetsOf config.extractor (fixtures.readAll made)).length, pool.corpus.size) := by
  obtain ⟨fixtures, hlisted, hcorpus, hreport⟩ := exists_of_collect hcollect
  have hstays : (config.progress w made pool).report.pooled = pool.report.pooled := by
    refine Progress.report_steps_of_record (P := fun r => r.pooled = pool.report.pooled) ?_ rfl _
    intro r strategy outcome hsame
    rw [Report.pooled_record, hsame]
  refine ⟨fixtures, hlisted, hcorpus, ?_⟩
  rw [hstays, hreport]
  simp [Report.pooled, Report.pool]

include hgoes

theorem pairs_progress (strategy : Strategy) :
    ((config.progress w made pool).report.tally strategy).pairs =
      (config.part pool.corpus strategy).length := by
  have hpairs : ((config.progress w made pool).report.tally strategy).pairs =
      (pool.report.tally strategy).pairs +
        ((config.stream pool.corpus).1.filter (·.1 = strategy)).length :=
    Progress.pairs_steps rfl hgoes strategy
  rw [hpairs, tally_of_collect hcollect, config.filter_stream, List.length_map]
  exact Nat.zero_add _

include hwriter

theorem created_progress (hvacant : config.Vacant d) (hnames : NoCollision (config.seeds d))
    (strategy : Strategy) :
    ((config.progress w made pool).report.tally strategy).created =
      (config.part pool.corpus strategy).dedup.length := by
  have hawaits := awaits_of_vacant hwriter hcollect hgoes hvacant
  rw [seeds_eq hwriter hcollect] at hnames hawaits
  have hcreated : ((config.progress w made pool).report.tally strategy).created =
      (pool.report.tally strategy).created +
        (((config.stream pool.corpus).1.toFinset \ [].toFinset).filter (·.1 = strategy)).card :=
    Progress.created_steps hnames hawaits (List.Subset.refl _) rfl hgoes strategy
  have hdistinct : ((config.stream pool.corpus).1.toFinset.filter (·.1 = strategy)).card =
      (config.part pool.corpus strategy).dedup.length := by
    calc
      _ = ((config.stream pool.corpus).1.filter (·.1 = strategy)).toFinset.card := by
        rw [List.toFinset_filter]
        simp only [decide_eq_true_eq]
      _ = ((config.part pool.corpus strategy).map (strategy, ·)).dedup.length := by
        rw [config.filter_stream, List.card_toFinset]
      _ = (config.part pool.corpus strategy).dedup.length := by
        rw [List.dedup_map_of_injective (Prod.mk_right_injective strategy), List.length_map]
  rw [hcreated, tally_of_collect hcollect, List.toFinset_nil, Finset.sdiff_empty, hdistinct]
  exact Nat.zero_add _

end

/-- The report of a run that succeeds, real or dry, balances.  Every fixture that was listed was
read or has failed; there are no more unique snippets than snippets, and none if there are none;
and every pair was created or present.  The pairs of each strategy are as many as the limits
and the corpus admit.  Where nothing lay under the names of the seeds, each different pair was
created once. -/
theorem run_report_balances {d : Disk} {config : Config} {report : Report}
    (hrun : (run d config).result = .ok report) :
    (∃ fixtures, Fixtures.inDirectory (config.writer d).2 config.fixturesDir = .ok fixtures ∧
        report.fixturesRead + report.fixturesFailed = fixtures.pending.length) ∧
      report.uniqueSnippets ≤ report.snippetsFound ∧
      (report.uniqueSnippets = 0 ↔ report.snippetsFound = 0) ∧
      (∀ strategy, (report.tally strategy).pairs =
        (report.tally strategy).created + (report.tally strategy).existing) ∧
      report.mutated.pairs = min config.mutateLimit report.uniqueSnippets ∧
      report.crossed.pairs ≤ min config.crossLimit (2 * report.uniqueSnippets) ∧
      (report.uniqueSnippets ≤ 1 → report.crossed.pairs = 0) ∧
      report.curated.pairs = 8 ∧
      (config.Vacant d → NoCollision (config.seeds d) →
        report.mutated.created = report.mutated.pairs ∧ report.curated.created = 8 ∧
          report.crossed.created =
            (((config.seeds d).filter (·.1 = Strategy.crossed)).map Prod.snd).dedup.length) := by
  obtain ⟨w, made, pool, hwriter, hcollect, hgoes, rfl⟩ := exists_progress_of_run hrun
  obtain ⟨fixtures, hlisted, hcorpus, hpooled⟩ := pooled_progress (w := w) hcollect
  have hbalanced : ∀ strategy,
      ((config.progress w made pool).report.tally strategy).Balanced :=
    balanced_progress hcollect
  have hpairs := pairs_progress hcollect hgoes
  have hcreated := created_progress hwriter hcollect hgoes
  generalize (config.progress w made pool).report = report at *
  simp only [Report.pooled, Prod.mk.injEq] at hpooled
  obtain ⟨hread, hfailed, hfound, hunique⟩ := hpooled
  have hcrossed : report.crossed.pairs =
      (config.synthesizer.crossed pool.corpus config.generator).pairs.length := hpairs .crossed
  refine ⟨⟨fixtures, ?_, ?_⟩, ?_, ?_, hbalanced, ?_, ?_, ?_, hpairs .curated, ?_⟩
  · rw [hwriter]
    exact hlisted
  · rw [hread, hfailed, length_readTexts_add_failures, Fixtures.readAll, List.length_map]
  · rw [hunique, hfound, hcorpus]
    exact Corpus.size_ofList_le _
  · rw [hunique, hfound, hcorpus]
    exact Corpus.size_ofList_eq_zero_iff
  · rw [hunique]
    exact (hpairs .mutated).trans
      (Synthesizer.length_mutated fun text hmem => lt_mem_of_collect hcollect hmem)
  · rw [hcrossed, hunique]
    exact Synthesizer.length_crossed_le
  · intro hsingle
    rw [hunique] at hsingle
    rw [hcrossed, Synthesizer.crossed_eq_nil hsingle]
    rfl
  · intro hvacant hnames
    have hdistinct := hcreated hvacant hnames
    have hmutated : (config.part pool.corpus .mutated).Nodup := Synthesizer.nodup_mutated
    refine ⟨?_, ?_, ?_⟩
    · calc
        report.mutated.created = (config.part pool.corpus .mutated).dedup.length :=
          hdistinct .mutated
        _ = (config.part pool.corpus .mutated).length := by rw [hmutated.dedup]
        _ = report.mutated.pairs := (hpairs .mutated).symm
    · exact (hdistinct .curated).trans (by decide : curatedPairs.dedup.length = 8)
    · rw [seeds_eq hwriter hcollect, config.filter_stream, List.map_map]
      exact (hdistinct .crossed).trans (by simp [Function.comp_def])

/-- Two pages with a paragraph in common, one that cannot be read, and a file that is no page. -/
def pagesDisk : Disk where
  entries :=
    [(["pages"], .directory),
     (["pages", "a.html"], .file (Utf8.encode "<p>Hello</p>")),
     (["pages", "b.HTML"], .file (Utf8.encode "<p>Hello</p> <p>there</p>")),
     (["pages", "c.html"], .file none),
     (["pages", "notes"], .file (Utf8.encode "<p>draft</p>"))]
  closed := by decide
  named := by decide
  workingDirectory := []

def pagesConfig : Config where
  fixturesDir := ⟨"pages"⟩
  corpusDir := ⟨"corpus/new"⟩
  mutateLimit := 1

/-- One of the random pairs is drawn twice. -/
def pagesReport : Report where
  fixturesRead := 2
  fixturesFailed := 1
  snippetsFound := 3
  uniqueSnippets := 2
  mutated := ⟨1, 1, 0⟩
  crossed := ⟨3, 2, 1⟩
  curated := ⟨8, 8, 0⟩

theorem noCollision_pagesDisk : NoCollision (pagesConfig.seeds pagesDisk) := by decide +kernel

theorem result_run_pagesDisk : (run pagesDisk pagesConfig).result = .ok pagesReport := by
  have hdry : (run pagesDisk { pagesConfig with dryRun := true }).result = .ok pagesReport := by
    decide +kernel
  let made := (pagesDisk.makeDirectories pagesConfig.corpusDir).2
  have hmade : pagesDisk.makeDirectories pagesConfig.corpusDir = (.ok (), made) :=
    Prod.ext (by decide +kernel) rfl
  have hclear : made.obstacle? pagesConfig.corpusDir = none := by decide +kernel
  exact run_of_dryRun (by decide) (Writer.create_eq_ok_iff.mpr ⟨rfl, hmade⟩) hclear hdry
    noCollision_pagesDisk

theorem vacant_pagesDisk : pagesConfig.Vacant pagesDisk := by
  have hreaches :
      (pagesConfig.writer pagesDisk).2.Reaches pagesConfig.corpusDir ["corpus", "new"] := by
    rw [Disk.Reaches]
    decide +kernel
  intro dir hdir
  obtain rfl : ["corpus", "new"] = dir := Except.ok.inj (hreaches.symm.trans hdir)
  decide +kernel

theorem run_report_balances_of_pages :
    (run pagesDisk pagesConfig).result = .ok pagesReport ∧
      pagesReport.mutated.pairs = min pagesConfig.mutateLimit pagesReport.uniqueSnippets ∧
      pagesReport.crossed.created = (((pagesConfig.seeds pagesDisk).filter
        (·.1 = Strategy.crossed)).map Prod.snd).dedup.length := by
  obtain ⟨-, -, -, -, hmutated, -, -, -, hcreated⟩ := run_report_balances result_run_pagesDisk
  exact ⟨result_run_pagesDisk, hmutated,
    (hcreated vacant_pagesDisk noCollision_pagesDisk).2.2⟩

end MarkupSeeds
