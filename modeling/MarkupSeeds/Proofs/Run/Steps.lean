import MarkupSeeds.Proofs.Disk.Listing
import MarkupSeeds.Proofs.Writer.Turns
import MarkupSeeds.Run

/-!
# How a run ends

A run ends without its directory, without a listing of the fixtures, or with as many seeds
handed over as could be stored.  Up to the first seed that cannot be stored its steps are
those of the writer alone.
-/

namespace MarkupSeeds

/-- The seeds that a run hands to its writer. -/
def Config.seeds (config : Config) (d : Disk) : List (Strategy × Pair) :=
  match collect (config.writer d).2 config {} with
  | .ok pool => (config.stream pool.corpus).1
  | .error _ => []

/-! ## What the fixtures of a run depend on -/

theorem collect_of_keepsFixtures {d other : Disk} (hkeeps : d.KeepsFixtures other)
    {config : Config} {report : Report} {pool : Pool}
    (hcollect : collect d config report = .ok pool) : collect other config report = .ok pool := by
  rw [collect] at hcollect
  split at hcollect
  · rename_i fixtures hlisted
    obtain ⟨hother, hread⟩ := Fixtures.inDirectory_of_keepsFixtures hkeeps hlisted
    rw [collect, hother]
    dsimp only
    rw [hread]
    exact hcollect
  · cases hcollect

/-- Getting a writer at most makes the corpus directory, whether it succeeds or not. -/
theorem Config.writer_paves (config : Config) (d : Disk) :
    d.Paves (config.writer d).2 (d.start config.corpusDir) config.corpusDir.segments := by
  rw [Config.writer]
  split
  · exact Disk.Paves.refl ..
  · have hpaves := Disk.makeDirectories_paves d config.corpusDir
    rw [Writer.create]
    split
    · rename_i made hmade
      rw [hmade] at hpaves
      exact hpaves
    · rename_i fault made hmade
      rw [hmade] at hpaves
      exact hpaves

theorem Config.paves_of_writer {d made : Disk} {config : Config} {w : Except SeedError Writer}
    (hwriter : config.writer d = (w, made)) :
    d.Paves made (d.start config.corpusDir) config.corpusDir.segments := by
  have hpaves := config.writer_paves d
  rw [hwriter] at hpaves
  exact hpaves

/-! ## Steps -/

namespace Progress

theorem step_eq (p : Progress) (seed : Strategy × Pair) :
    p.step seed =
      let storing := p.writer.write p.disk seed.1 seed.2
      { report :=
          match storing.result with
          | .ok outcome => p.report.record seed.1 outcome
          | .error _ => p.report
        writer := storing.writer
        disk := storing.disk
        notices := p.notices ++ storing.notices
        failure :=
          match storing.result with
          | .ok _ => p.failure
          | .error error => some error } := by
  -- Unfolded in place, as an equation of its own for the nested matches takes long to derive.
  delta step
  dsimp only
  cases (p.writer.write p.disk seed.1 seed.2).result <;> rfl

@[simp]
theorem writer_step (p : Progress) (seed : Strategy × Pair) :
    (p.step seed).writer = (p.writer.write p.disk seed.1 seed.2).writer := by
  rw [step_eq]

@[simp]
theorem disk_step (p : Progress) (seed : Strategy × Pair) :
    (p.step seed).disk = (p.writer.write p.disk seed.1 seed.2).disk := by
  rw [step_eq]

section

variable {p : Progress} {seed : Strategy × Pair} (rest : List (Strategy × Pair))

/-- Steps go on behind a seed that was handed over. -/
theorem steps_cons_of_ok {outcome : Outcome} (hfailure : p.failure = none)
    (hresult : (p.writer.write p.disk seed.1 seed.2).result = .ok outcome) :
    (p.step seed).failure = none ∧ (p.step seed).report = p.report.record seed.1 outcome ∧
      p.steps (seed :: rest) = (p.step seed).steps rest := by
  have hgoes : (p.step seed).failure = none := by simp only [step_eq, hresult, hfailure]
  have hreport : (p.step seed).report = p.report.record seed.1 outcome := by
    simp only [step_eq, hresult]
  refine ⟨hgoes, hreport, ?_⟩
  rw [steps, hgoes, if_neg (by simp)]

/-- Steps end with a seed that could not be handed over. -/
theorem steps_cons_of_error {error : SeedError}
    (hresult : (p.writer.write p.disk seed.1 seed.2).result = .error error) :
    (p.step seed).failure = some error ∧ p.steps (seed :: rest) = p.step seed := by
  have hstops : (p.step seed).failure = some error := by simp only [step_eq, hresult]
  refine ⟨hstops, ?_⟩
  rw [steps, hstops, if_pos (by simp)]

end

/-- What a run answers when it has come this far. -/
def result (p : Progress) : Except SeedError Report :=
  match p.failure with
  | some error => .error error
  | none => .ok p.report

theorem result_eq_ok_iff {p : Progress} {report : Report} :
    p.result = .ok report ↔ p.failure = none ∧ p.report = report := by
  rw [result]
  cases p.failure <;> simp

theorem result_eq_error_iff {p : Progress} {error : SeedError} :
    p.result = .error error ↔ p.failure = some error := by
  rw [result]
  cases p.failure <;> simp

/-- Steps of a writer that only looks leave the disk alone. -/
theorem disk_steps_of_dryRun {p : Progress} (hlooks : p.writer.dryRun = true)
    (seeds : List (Strategy × Pair)) : (p.steps seeds).disk = p.disk := by
  induction seeds generalizing p with
  | nil => rfl
  | cons seed rest ih =>
      obtain ⟨hdisk, hstill⟩ := Writer.write_of_dryRun hlooks p.disk seed
      rw [steps]
      split
      · rw [disk_step, hdisk]
      · rw [ih (by rw [writer_step, hstill]), disk_step, hdisk]

/-- Steps fail for no other reason than that a seed cannot be written. -/
theorem exists_of_failure_steps {p : Progress} (hfailure : p.failure = none)
    {seeds : List (Strategy × Pair)} {error : SeedError}
    (hfails : (p.steps seeds).failure = some error) :
    ∃ path reason, error = .seedWrite path reason := by
  induction seeds generalizing p with
  | nil =>
      rw [steps, hfailure] at hfails
      cases hfails
  | cons seed rest ih =>
      cases hresult : (p.writer.write p.disk seed.1 seed.2).result with
      | ok outcome =>
          obtain ⟨hgoes, -, hsteps⟩ := steps_cons_of_ok rest hfailure hresult
          rw [hsteps] at hfails
          exact ih hgoes hfails
      | error first =>
          obtain ⟨hstops, hsteps⟩ := steps_cons_of_error rest hresult
          rw [hsteps, hstops] at hfails
          cases hfails
          obtain ⟨fault, herror⟩ := Writer.exists_of_write_eq_error hresult
          exact ⟨_, _, herror⟩

/-- How far steps come: all seeds are handed over, or those before the first that fails. -/
inductive Advances (w : Writer) (d : Disk) (seeds : List (Strategy × Pair)) (q : Progress) : Prop
  | whole (hok : ∀ storing ∈ w.handOver d seeds, storing.result.isOk)
      (hdisk : q.disk = Writer.lastDisk d (w.handOver d seeds)) (hfailure : q.failure = none)
  | stopped {done rest seed error} (hseeds : seeds = done ++ seed :: rest)
      (hok : ∀ storing ∈ w.handOver d done, storing.result.isOk)
      (hdisk : q.disk = Writer.lastDisk d (w.handOver d done))
      (hfails : (w.write q.disk seed.1 seed.2).result = .error error)
      (hfailure : q.failure = some error)

theorem Advances.cons {w : Writer} {d : Disk} {seed : Strategy × Pair}
    {seeds : List (Strategy × Pair)} {q : Progress}
    (hok : (w.write d seed.1 seed.2).result.isOk) (hwriter : (w.write d seed.1 seed.2).writer = w)
    (hrest : Advances w (w.write d seed.1 seed.2).disk seeds q) :
    Advances w d (seed :: seeds) q := by
  cases hrest with
  | whole hall hdisk hfailure =>
      refine .whole ?_ ?_ hfailure
      · rw [Writer.handOver_cons hwriter]
        exact List.forall_mem_cons.mpr ⟨hok, hall⟩
      · rw [Writer.handOver_cons hwriter]
        exact hdisk
  | @stopped done rest later _ hseeds hall hdisk hfails hfailure =>
      have hlonger : seed :: seeds = (seed :: done) ++ later :: rest := by
        rw [hseeds]
        rfl
      refine .stopped hlonger ?_ ?_ hfails hfailure
      · rw [Writer.handOver_cons hwriter]
        exact List.forall_mem_cons.mpr ⟨hok, hall⟩
      · rw [Writer.handOver_cons hwriter]
        exact hdisk

theorem advances_steps {p : Progress} {dir : Location}
    (hserves : p.writer.Serves p.disk dir) (hfailure : p.failure = none)
    (seeds : List (Strategy × Pair)) :
    Advances p.writer p.disk seeds (p.steps seeds) := by
  induction seeds generalizing p with
  | nil =>
      rw [steps]
      exact .whole (fun storing hmem => absurd hmem List.not_mem_nil) rfl hfailure
  | cons seed rest ih =>
      have hhandles := hserves.handles seed
      cases hresult : (p.writer.write p.disk seed.1 seed.2).result with
      | ok outcome =>
          -- A writer that stores is not changed by storing, so it serves the rest as well.
          obtain ⟨hgoes, -, hsteps⟩ := steps_cons_of_ok rest hfailure hresult
          have hserves' : (p.step seed).writer.Serves (p.step seed).disk dir := by
            rw [writer_step, disk_step, hhandles.writer_eq]
            exact hhandles.serves hserves
          have hrest := ih hserves' hgoes
          rw [writer_step, disk_step, hhandles.writer_eq] at hrest
          rw [hsteps]
          exact hrest.cons (by rw [hresult]; rfl) hhandles.writer_eq
      | error error =>
          obtain ⟨hstops, hsteps⟩ := steps_cons_of_error rest hresult
          have hstays : (p.step seed).disk = p.disk := by
            rw [disk_step, hhandles.disk_eq hresult]
          have hfront : seed :: rest = [] ++ seed :: rest := rfl
          rw [hsteps]
          refine .stopped hfront (fun storing hmem => absurd hmem List.not_mem_nil) hstays ?_ hstops
          rw [hstays, hresult]

end Progress

/-! ## Runs -/

/-- How far a run is once it has its writer and its pool. -/
def Config.outset (config : Config) (writer : Writer) (made : Disk) (pool : Pool) : Progress :=
  ⟨pool.report, writer, made, pool.notices ++ [(config.stream pool.corpus).2], none⟩

/-- How far it comes from there. -/
def Config.progress (config : Config) (writer : Writer) (made : Disk) (pool : Pool) : Progress :=
  (config.outset writer made pool).steps (config.stream pool.corpus).1

/-- The ways in which a run ends. -/
inductive RunEnds (d : Disk) (config : Config) : Except SeedError Report → Disk → Prop
  | unmade {reason made} (hreal : config.dryRun = false)
      (hwriter : config.writer d = (.error (.corpusDirectory config.corpusDir reason), made)) :
      RunEnds d config (.error (.corpusDirectory config.corpusDir reason)) made
  | unlisted {writer made fault} (hwriter : config.writer d = (.ok writer, made))
      (hlisted : made.list config.fixturesDir = .error fault) :
      RunEnds d config (.error (.fixtureListing config.fixturesDir fault.reason)) made
  | handedOver {writer made pool} (hwriter : config.writer d = (.ok writer, made))
      (hcollect : collect made config {} = .ok pool) :
      RunEnds d config (config.progress writer made pool).result
        (config.progress writer made pool).disk

section

variable {d : Disk} {config : Config}

/-- Once the writer is there and the fixtures are pooled, a run is its steps. -/
theorem result_run {writer : Writer} {made : Disk} {pool : Pool}
    (hwriter : config.writer d = (.ok writer, made))
    (hcollect : collect made config {} = .ok pool) :
    (run d config).result = (config.progress writer made pool).result ∧
      (run d config).disk = (config.progress writer made pool).disk := by
  rw [run, hwriter]
  dsimp only
  rw [hcollect]
  dsimp only
  rw [← Config.outset, ← Config.progress, Progress.result]
  cases (config.progress writer made pool).failure with
  | none => exact ⟨rfl, rfl⟩
  | some error => exact ⟨rfl, rfl⟩

theorem exists_of_writer_eq_error {made : Disk} {error : SeedError}
    (hwriter : config.writer d = (.error error, made)) :
    config.dryRun = false ∧ ∃ reason, error = .corpusDirectory config.corpusDir reason := by
  rw [Config.writer] at hwriter
  split at hwriter
  · cases hwriter
  · rename_i hreal
    rw [Writer.create] at hwriter
    split at hwriter
    · cases hwriter
    · cases hwriter
      exact ⟨Bool.eq_false_iff.mpr hreal, _, rfl⟩

theorem exists_of_collect_eq_error {report : Report} {error : SeedError}
    (hcollect : collect d config report = .error error) :
    ∃ fault, d.list config.fixturesDir = .error fault ∧
      error = .fixtureListing config.fixturesDir fault.reason := by
  rw [collect] at hcollect
  split at hcollect
  · cases hcollect
  · rename_i found hlisted
    cases hcollect
    rw [Fixtures.inDirectory] at hlisted
    split at hlisted
    · cases hlisted
    · rename_i fault hlist
      cases hlisted
      exact ⟨fault, hlist, rfl⟩

theorem run_ends (d : Disk) (config : Config) :
    RunEnds d config (run d config).result (run d config).disk := by
  cases hwriter : config.writer d with
  | mk made? made =>
      cases made? with
      | error error =>
          obtain ⟨hreal, reason, rfl⟩ := exists_of_writer_eq_error hwriter
          rw [run, hwriter]
          exact .unmade hreal hwriter
      | ok writer =>
          cases hcollect : collect made config {} with
          | error error =>
              obtain ⟨fault, hlisted, rfl⟩ := exists_of_collect_eq_error hcollect
              rw [run, hwriter]
              dsimp only
              rw [hcollect]
              exact .unlisted hwriter hlisted
          | ok pool =>
              obtain ⟨hresult, hdisk⟩ := result_run hwriter hcollect
              rw [hresult, hdisk]
              exact .handedOver hwriter hcollect

theorem exists_pool_of_run {report : Report} (hrun : (run d config).result = .ok report) :
    ∃ writer made pool, config.writer d = (.ok writer, made) ∧
      collect made config {} = .ok pool := by
  have hends := run_ends d config
  generalize (run d config).result = result, (run d config).disk = final at hrun hends
  cases hends with
  | unmade => cases hrun
  | unlisted => cases hrun
  | @handedOver writer made pool hwriter hcollect => exact ⟨writer, made, pool, hwriter, hcollect⟩

/-- A run that succeeds is the report of its steps, of which none fails. -/
theorem exists_progress_of_run {report : Report} (hrun : (run d config).result = .ok report) :
    ∃ writer made pool, config.writer d = (.ok writer, made) ∧
      collect made config {} = .ok pool ∧
      (config.progress writer made pool).failure = none ∧
      (config.progress writer made pool).report = report := by
  obtain ⟨writer, made, pool, hwriter, hcollect⟩ := exists_pool_of_run hrun
  rw [(result_run hwriter hcollect).1] at hrun
  exact ⟨writer, made, pool, hwriter, hcollect, Progress.result_eq_ok_iff.mp hrun⟩

theorem create_of_writer {w : Except SeedError Writer} {made : Disk}
    (hreal : config.dryRun = false) (hwriter : config.writer d = (w, made)) :
    Writer.create d config.corpusDir = (w, made) := by
  rw [Config.writer, hreal] at hwriter
  exact hwriter

/-- The steps of a real run are those of a writer that stores in the corpus directory. -/
theorem advances_progress {writer : Writer} {made : Disk} (hreal : config.dryRun = false)
    (hwriter : config.writer d = (.ok writer, made)) (pool : Pool) :
    writer.dir = config.corpusDir ∧ ∃ dir, writer.Serves made dir ∧
      Progress.Advances writer made (config.stream pool.corpus).1
        (config.progress writer made pool) := by
  have hcreate := create_of_writer hreal hwriter
  obtain ⟨dir, hserves⟩ := Writer.serves_of_create hcreate
  have hdir : writer.dir = config.corpusDir := by rw [(Writer.create_eq_ok_iff.mp hcreate).1]
  exact ⟨hdir, dir, hserves,
    Progress.advances_steps (p := config.outset writer made pool) hserves rfl _⟩

/-- Steps of which none fails hand over all the seeds. -/
theorem handOver_of_progress {writer : Writer} {made : Disk} {pool : Pool}
    (hreal : config.dryRun = false) (hwriter : config.writer d = (.ok writer, made))
    (hgoes : (config.progress writer made pool).failure = none) :
    writer.dir = config.corpusDir ∧ ∃ dir, writer.Serves made dir ∧
      (∀ storing ∈ writer.handOver made (config.stream pool.corpus).1, storing.result.isOk) ∧
      (config.progress writer made pool).disk =
        Writer.lastDisk made (writer.handOver made (config.stream pool.corpus).1) := by
  obtain ⟨hdir, dir, hserves, hadvances⟩ := advances_progress hreal hwriter pool
  cases hadvances with
  | whole hok hdisk => exact ⟨hdir, dir, hserves, hok, hdisk⟩
  | stopped _ _ _ _ hstops =>
      rw [hgoes] at hstops
      cases hstops

theorem seeds_eq {writer : Writer} {made : Disk} {pool : Pool}
    (hwriter : config.writer d = (.ok writer, made))
    (hcollect : collect made config {} = .ok pool) :
    config.seeds d = (config.stream pool.corpus).1 := by
  rw [Config.seeds, hwriter]
  dsimp only
  rw [hcollect]

end

end MarkupSeeds
