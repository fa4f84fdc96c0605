import MarkupSeeds.Proofs.Run.Steps

/-!
# The report of a dry run

A run counts the answers of its writer, so two runs report alike if they pool the same
fixtures and their writers answer alike.  Making the corpus directory before the fixtures
are listed does not change what is pooled, wherever the directory lies.
-/

namespace MarkupSeeds

namespace Progress

/-- The result depends on the writer and the disk through the answers only. -/
theorem result_steps_congr {p q : Progress} {seeds : List (Strategy × Pair)}
    (hreport : p.report = q.report) (hfailure : p.failure = q.failure)
    (hresults : (p.writer.handOver p.disk seeds).map Storing.result =
      (q.writer.handOver q.disk seeds).map Storing.result) :
    (p.steps seeds).result = (q.steps seeds).result := by
  induction seeds generalizing p q with
  | nil => rw [steps, steps, result, result, hreport, hfailure]
  | cons seed rest ih =>
      rw [Writer.handOver, Writer.handOver, List.map_cons, List.map_cons, List.cons.injEq]
        at hresults
      obtain ⟨hresult, hrest⟩ := hresults
      have hreport' : (p.step seed).report = (q.step seed).report := by
        simp only [step_eq, hresult, hreport]
      have hfailure' : (p.step seed).failure = (q.step seed).failure := by
        simp only [step_eq, hresult, hfailure]
      rw [steps, steps, hfailure']
      split
      · rw [result, result, hreport', hfailure']
      · refine ih hreport' hfailure' ?_
        rw [step_eq, step_eq]
        exact hrest

end Progress

/-- Where the corpus directory can be made, the fixtures can be listed without it and what is
lacking can be stored, a dry run ends like a real one. -/
theorem result_run_eq_dryRun {d made : Disk} {config : Config} {w : Writer} {pool : Pool}
    (hdots : ".." ∉ config.corpusDir.segments)
    (hcreate : Writer.create d config.corpusDir = (.ok w, made))
    (hcollect : collect d config {} = .ok pool)
    (hnames : NoCollision (config.stream pool.corpus).1)
    (hgoes : made.obstacle? w.dir = none ∨
      ∀ storing ∈ w.handOver made (config.stream pool.corpus).1, storing.result.isOk) :
    (run d { config with dryRun := false }).result =
      (run d { config with dryRun := true }).result := by
  have hlevel := Writer.mirrors_of_create hdots hcreate (config.stream pool.corpus).1
  have hanswers := hlevel.handOver hnames (List.Subset.refl _) hgoes
  have hreal : Config.writer { config with dryRun := false } d = (.ok w, made) := hcreate
  have hkeeps := (Config.paves_of_writer hreal).keepsFixtures
  have hdry : Config.writer { config with dryRun := true } d =
      (.ok (Writer.ofDryRun config.corpusDir), d) := rfl
  rw [(result_run hreal (collect_of_keepsFixtures hkeeps hcollect)).1,
    (result_run hdry hcollect).1]
  symm
  apply Progress.result_steps_congr
  · rfl
  · rfl
  · exact hanswers

/-- The fixtures that a dry run pools are pooled by a real run as well. -/
theorem exists_pool_of_dryRun {d made : Disk} {config : Config} {w : Writer} {report : Report}
    (hcreate : Writer.create d config.corpusDir = (.ok w, made))
    (hdry : (run d { config with dryRun := true }).result = .ok report) :
    ∃ pool, collect d config {} = .ok pool ∧ collect made config {} = .ok pool ∧
      Config.seeds { config with dryRun := false } d = (config.stream pool.corpus).1 := by
  obtain ⟨looker, untouched, pool, hlooks, hcollect⟩ := exists_pool_of_run hdry
  cases hlooks
  have hwriter : Config.writer { config with dryRun := false } d = (.ok w, made) := hcreate
  have hafter : collect made { config with dryRun := false } {} = .ok pool :=
    collect_of_keepsFixtures (Config.paves_of_writer hwriter).keepsFixtures hcollect
  exact ⟨pool, hcollect, hafter, seeds_eq hwriter hafter⟩

/-- What a dry run reports is what a real run would report, if it can make its directory and store
files there. -/
theorem run_of_dryRun {d made : Disk} {config : Config} {w : Writer} {report : Report}
    (hdots : ".." ∉ config.corpusDir.segments)
    (hcreate : Writer.create d config.corpusDir = (.ok w, made))
    (hclear : made.obstacle? w.dir = none)
    (hdry : (run d { config with dryRun := true }).result = .ok report)
    (hnames : NoCollision ({ config with dryRun := false }.seeds d)) :
    (run d { config with dryRun := false }).result = .ok report := by
  obtain ⟨pool, hcollect, -, hseeds⟩ := exists_pool_of_dryRun hcreate hdry
  rw [hseeds] at hnames
  rw [result_run_eq_dryRun hdots hcreate hcollect hnames (Or.inl hclear)]
  exact hdry

/-- A dry run and a real run that both succeed report the same, wherever the corpus lies and
whatever is in it. -/
theorem run_report_eq_dryRun_report {d : Disk} {config : Config} {real dry : Report}
    (hdots : ".." ∉ config.corpusDir.segments)
    (hreal : (run d { config with dryRun := false }).result = .ok real)
    (hdry : (run d { config with dryRun := true }).result = .ok dry)
    (hnames : NoCollision ({ config with dryRun := false }.seeds d)) : real = dry := by
  obtain ⟨w, made, found, hcreate, hfound, hgoes, -⟩ := exists_progress_of_run hreal
  obtain ⟨pool, hcollect, hafter, hseeds⟩ := exists_pool_of_dryRun hcreate hdry
  cases Except.ok.inj (hfound.symm.trans hafter)
  obtain ⟨-, -, -, hok, -⟩ := handOver_of_progress rfl hcreate hgoes
  rw [hseeds] at hnames
  have hsame := result_run_eq_dryRun hdots hcreate hcollect hnames (Or.inr hok)
  rw [hreal, hdry] at hsame
  exact Except.ok.inj hsame

/-- Pages beside which the corpus is kept, with a seed that was not stored to the end. -/
def sharedDisk : Disk where
  entries :=
    [(["pages"], .directory),
     (["pages", "first.html"], .file (Utf8.encode "<p>Hello</p>")),
     (["pages", "fixture_hand_66286c77a2a2235c64ac9319c8868cf0f33404fc"], .file (some [60]))]
  closed := by decide
  named := by decide
  workingDirectory := ["pages"]

def sharedConfig : Config where
  fixturesDir := ⟨"./"⟩
  corpusDir := ⟨"/pages"⟩
  crossLimit := 0

def sharedReport : Report where
  fixturesRead := 1
  snippetsFound := 1
  uniqueSnippets := 1
  mutated := ⟨1, 1, 0⟩
  curated := ⟨8, 8, 0⟩

theorem noCollision_sharedDisk :
    NoCollision ({ sharedConfig with dryRun := false }.seeds sharedDisk) := by
  decide +kernel

theorem result_dryRun_sharedDisk :
    (run sharedDisk { sharedConfig with dryRun := true }).result = .ok sharedReport := by
  decide +kernel

theorem result_run_sharedDisk :
    (run sharedDisk { sharedConfig with dryRun := false }).result = .ok sharedReport := by
  have hcreate : Writer.create sharedDisk sharedConfig.corpusDir =
      (.ok ⟨⟨"/pages"⟩, false, []⟩, sharedDisk) := rfl
  exact run_of_dryRun (by decide) hcreate (by decide +kernel) result_dryRun_sharedDisk
    noCollision_sharedDisk

theorem run_report_eq_dryRun_report_in_shared_directory :
    ∃ real dry, (run sharedDisk { sharedConfig with dryRun := false }).result = .ok real ∧
      (run sharedDisk { sharedConfig with dryRun := true }).result = .ok dry ∧ real = dry ∧
        dry = { fixturesRead := 1, snippetsFound := 1, uniqueSnippets := 1,
                mutated := ⟨1, 1, 0⟩, curated := ⟨8, 8, 0⟩ } :=
  ⟨_, _, result_run_sharedDisk, result_dryRun_sharedDisk,
    run_report_eq_dryRun_report (by decide) result_run_sharedDisk result_dryRun_sharedDisk
      noCollision_sharedDisk, rfl⟩

end MarkupSeeds
