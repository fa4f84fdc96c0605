import MarkupSeeds.Proofs.Run.DryRun

/-!
# A dry run as a rehearsal

A dry run is stopped by a seed only where a real run would be stopped by it.  So it succeeds
wherever a real run succeeds, as long as it finds the directory of the fixtures.  It does not
find it if that directory is the one of the corpus, or lies on the way there, and is still to be
made: the real run makes it before it lists the fixtures.
-/

namespace MarkupSeeds

namespace Disk

/-- What is at a path can be read as a file, or nothing is there. -/
def Accessible (d : Disk) (path : Path) : Prop :=
  ∀ fault, d.read path = .error fault → fault = .notFound

theorem Admits.accessible {d : Disk} {dir : Path} {parent : Location} {name : String}
    (hadmits : d.Admits dir parent name) (hreaches : d.Reaches dir parent)
    (hstep : ¬ isStep name) : d.Accessible (dir.join name) := by
  intro fault hfails
  rcases hadmits.read_cases hreaches hstep with hmissing | ⟨content, hread⟩
  · exact Except.error.inj (hfails.symm.trans hmissing)
  · cases hfails.symm.trans hread

/-- A directory that can be listed after others were made can be listed before, or it is one of
those that were made. -/
theorem Paves.list_cases {d made : Disk} {base : Location} {segments : List String} {dir : Path}
    {names : List String} (hpaves : d.Paves made base segments) (hdots : ".." ∉ dir.segments)
    (hlist : made.list dir = .ok names) :
    (∃ before, d.list dir = .ok before) ∨
      ∃ location part, made.resolve dir = .ok location ∧ d.node? location = none ∧
        part <+: segments ∧ made.walk base part = .ok location := by
  obtain ⟨location, hresolve, hdirectory, -⟩ := list_eq_ok_iff.mp hlist
  rcases hpaves.node? location with hsame | ⟨hnone, -, -, part, hlead, hwalk⟩
  · have hthere : d.node? location = some .directory := hsame ▸ hdirectory
    have hway : d.resolve dir = .ok location := by
      obtain ⟨hsound, hmade⟩ := resolve_eq_ok_iff.mp hresolve
      rw [start, hpaves.workingDirectory] at hmade
      refine resolve_eq_ok_iff.mpr ⟨hsound, ?_⟩
      exact hpaves.toExtends.walk_of_something hdots hmade (by simp [hthere])
    exact Or.inl ⟨_, list_eq_ok_iff.mpr ⟨location, hway, hthere, rfl⟩⟩
  · exact Or.inr ⟨location, part, hresolve, hnone, hlead, hwalk⟩

end Disk

/-! ## What stops a dry run -/

namespace Writer

/-- A writer that only looks is stopped by nothing but what it cannot read. -/
theorem write_of_accessible {w : Writer} {d : Disk} {seed : Strategy × Pair}
    (hlooks : w.dryRun = true) (haccess : d.Accessible (w.seedPath seed)) :
    ∃ outcome planned notices,
      w.write d seed.1 seed.2 = ⟨.ok outcome, { w with planned := planned }, d, notices⟩ := by
  rcases d.read_cases (w.seedPath seed) seed.2.encode with
    hpresent | hlacks | ⟨fault, hfault, hread⟩
  · obtain ⟨notices, hwrite⟩ := write_of_present hpresent
    exact ⟨.alreadyPresent, w.planned, notices, hwrite⟩
  · obtain ⟨notices, hwrite⟩ := write_of_lacks hlacks
    rw [hwrite, store, if_pos hlooks]
    split
    · exact ⟨.alreadyPresent, w.planned, notices, rfl⟩
    · exact ⟨.created, _, notices, rfl⟩
  · exact absurd (haccess fault hread) hfault

end Writer

theorem Progress.failure_steps_of_accessible {p : Progress} (hlooks : p.writer.dryRun = true)
    (hfailure : p.failure = none) {seeds : List (Strategy × Pair)}
    (haccess : ∀ seed ∈ seeds, p.disk.Accessible (p.writer.seedPath seed)) :
    (p.steps seeds).failure = none := by
  induction seeds generalizing p with
  | nil => exact hfailure
  | cons seed rest ih =>
      obtain ⟨hfirst, hrest⟩ := List.forall_mem_cons.mp haccess
      obtain ⟨outcome, planned, notices, hwrite⟩ := Writer.write_of_accessible hlooks hfirst
      have hresult : (p.writer.write p.disk seed.1 seed.2).result = .ok outcome := by rw [hwrite]
      have hwriter : (p.step seed).writer = { p.writer with planned := planned } := by
        rw [writer_step, hwrite]
      have hdisk : (p.step seed).disk = p.disk := by rw [disk_step, hwrite]
      obtain ⟨hgoes, -, hsteps⟩ := steps_cons_of_ok rest hfailure hresult
      rw [hsteps]
      apply ih
      · rw [hwriter]
        exact hlooks
      · exact hgoes
      · rw [hwriter, hdisk]
        exact hrest

/-! ## Where the real run succeeds -/

section

variable {d made : Disk} {config : Config} {w : Writer} {pool : Pool}

/-- The seeds of a real run that succeeds can be looked up before it, without its directory. -/
theorem accessible_of_progress (hdots : ".." ∉ config.corpusDir.segments)
    (hreal : config.dryRun = false) (hwriter : config.writer d = (.ok w, made))
    (hgoes : (config.progress w made pool).failure = none) {seed : Strategy × Pair}
    (hmem : seed ∈ (config.stream pool.corpus).1) :
    d.Accessible (config.corpusDir.join (seed.2.name seed.1)) := by
  have hstep := not_isStep_seedName seed.1 seed.2.encode
  have hshort := seedName_short seed.1 seed.2.encode
  obtain ⟨hdir, dir, hserves, hok, -⟩ := handOver_of_progress hreal hwriter hgoes
  have hadmits := Writer.admits_of_isOk_handOver hserves hok hmem
  have hmade := hadmits.accessible hserves.reaches hstep
  obtain ⟨-, hdirectory⟩ := Writer.create_eq_ok_iff.mp (create_of_writer hreal hwriter)
  have hfind := Disk.find_join_makeDirectories hdots (congrArg Prod.fst hdirectory) hstep hshort
  rw [hdirectory] at hfind
  intro fault hfails
  apply hmade fault
  rw [hdir]
  exact (Disk.read_congr hfind).trans hfails

end

theorem exists_list_of_collect {d : Disk} {config : Config} {report : Report} {pool : Pool}
    (hcollect : collect d config report = .ok pool) :
    ∃ names, d.list config.fixturesDir = .ok names := by
  cases hlist : d.list config.fixturesDir with
  | ok names => exact ⟨names, rfl⟩
  | error fault =>
      rw [collect, Fixtures.inDirectory, hlist] at hcollect
      cases hcollect

/-- The fixtures cannot be listed, as their directory is only made on the way to that of the
corpus. -/
structure Config.MakesFixturesDir (config : Config) (d : Disk) : Prop where
  unlisted : ∃ fault, d.list config.fixturesDir = .error fault
  made : ∃ location part, d.node? location = none ∧ part <+: config.corpusDir.segments ∧
    (d.makeDirectories config.corpusDir).2.walk (d.start config.corpusDir) part = .ok location ∧
      (d.makeDirectories config.corpusDir).2.resolve config.fixturesDir = .ok location

section

variable {d : Disk} {config : Config} {report : Report} (hreal : config.dryRun = false)
  (hrun : (run d config).result = .ok report)

include hreal hrun

/-- Where the fixtures can be listed, a dry run is stopped by nothing. -/
theorem exists_dryRun_of_list (hdots : ".." ∉ config.corpusDir.segments) {names : List String}
    (hlist : d.list config.fixturesDir = .ok names) :
    ∃ dry, (run d { config with dryRun := true }).result = .ok dry := by
  obtain ⟨w, made, pool, hwriter, hcollect, hgoes, -⟩ := exists_progress_of_run hrun
  obtain ⟨before, hbefore⟩ : ∃ before, collect d config {} = .ok before := by
    rw [collect, Fixtures.inDirectory_eq_ok hlist]
    exact ⟨_, rfl⟩
  -- Making the directory has not changed the fixtures, so both runs make the same seeds.
  have hafter := collect_of_keepsFixtures (Config.paves_of_writer hwriter).keepsFixtures hbefore
  obtain rfl : before = pool := Except.ok.inj (hafter.symm.trans hcollect)
  have hlooks : Config.writer { config with dryRun := true } d =
      (.ok (Writer.ofDryRun config.corpusDir), d) := rfl
  refine ⟨_, (result_run hlooks hbefore).1.trans (Progress.result_eq_ok_iff.mpr ⟨?_, rfl⟩)⟩
  apply Progress.failure_steps_of_accessible
  · rfl
  · rfl
  · exact fun seed hmem => accessible_of_progress hdots hreal hwriter hgoes hmem

theorem list_or_makesFixturesDir (hplain : ".." ∉ config.fixturesDir.segments) :
    (∃ names, d.list config.fixturesDir = .ok names) ∨ config.MakesFixturesDir d := by
  obtain ⟨w, made, pool, hwriter, hcollect⟩ := exists_pool_of_run hrun
  obtain ⟨-, hmade⟩ := Writer.create_eq_ok_iff.mp (create_of_writer hreal hwriter)
  have hpaves := Disk.makeDirectories_paves d config.corpusDir
  obtain ⟨names, hlist⟩ := exists_list_of_collect hcollect
  have hafter : (d.makeDirectories config.corpusDir).2.list config.fixturesDir = .ok names := by
    rw [hmade]
    exact hlist
  cases hbefore : d.list config.fixturesDir with
  | ok before => exact Or.inl ⟨before, rfl⟩
  | error fault =>
      rcases hpaves.list_cases hplain hafter with ⟨before, hthere⟩ | hnew
      · cases hbefore.symm.trans hthere
      · obtain ⟨location, part, hresolve, hnone, hlead, hwalk⟩ := hnew
        exact Or.inr ⟨⟨fault, hbefore⟩, location, part, hnone, hlead, hwalk, hresolve⟩

end

theorem result_dryRun_of_list_error {d : Disk} {config : Config} {fault : Fault}
    (hlist : d.list config.fixturesDir = .error fault) :
    (run d { config with dryRun := true }).result =
      .error (.fixtureListing config.fixturesDir fault.reason) := by
  have hcollect : collect d { config with dryRun := true } {} =
      .error (.fixtureListing config.fixturesDir fault.reason) := by
    rw [collect, Fixtures.inDirectory, hlist]
  have hlooks : Config.writer { config with dryRun := true } d =
      (.ok (Writer.ofDryRun config.corpusDir), d) := rfl
  rw [run, hlooks]
  dsimp only
  rw [hcollect]

/-- Where a real run succeeds, a dry run succeeds too, but for the one case that the directory of
the fixtures is missing and the real run makes it on the way to that of the corpus.  The dry run
then ends, as it finds nothing to list. -/
theorem dryRun_succeeds_iff_not_makesFixturesDir {d : Disk} {config : Config} {report : Report}
    (hdots : ".." ∉ config.corpusDir.segments) (hplain : ".." ∉ config.fixturesDir.segments)
    (hreal : config.dryRun = false) (hrun : (run d config).result = .ok report) :
    ((∃ dry, (run d { config with dryRun := true }).result = .ok dry) ↔
        ¬ config.MakesFixturesDir d) ∧
      (config.MakesFixturesDir d → ∃ fault : Fault,
        (run d { config with dryRun := true }).result =
          .error (.fixtureListing config.fixturesDir fault.reason)) := by
  have hfails : config.MakesFixturesDir d → ∃ fault : Fault,
      (run d { config with dryRun := true }).result =
        .error (.fixtureListing config.fixturesDir fault.reason) := by
    rintro ⟨⟨fault, hlist⟩, -⟩
    exact ⟨fault, result_dryRun_of_list_error hlist⟩
  refine ⟨⟨?_, ?_⟩, hfails⟩
  · rintro ⟨dry, hdry⟩ hmakes
    obtain ⟨fault, herror⟩ := hfails hmakes
    cases hdry.symm.trans herror
  · intro hnot
    obtain ⟨names, hlist⟩ := (list_or_makesFixturesDir hreal hrun hplain).resolve_right hnot
    exact exists_dryRun_of_list hreal hrun hdots hlist

theorem dryRun_succeeds_iff_in_shared_directory :
    (∃ dry, (run sharedDisk { sharedConfig with dryRun := true }).result = .ok dry) ∧
      ¬ sharedConfig.MakesFixturesDir sharedDisk := by
  have hiff := (dryRun_succeeds_iff_not_makesFixturesDir (by decide) (by decide) rfl
    result_run_sharedDisk).1
  have hdry : ∃ dry, (run sharedDisk { sharedConfig with dryRun := true }).result = .ok dry :=
    ⟨_, result_dryRun_sharedDisk⟩
  exact ⟨hdry, hiff.mp hdry⟩

/-- The fixtures are looked for where the corpus is kept, and nothing is there yet. -/
def newConfig : Config where
  fixturesDir := ⟨"c"⟩
  corpusDir := ⟨"c"⟩

/-- A real run makes the directory and stores the pairs written by hand; a dry run fails. -/
theorem dryRun_fails_where_run_succeeds :
    ".." ∉ newConfig.corpusDir.segments ∧ ".." ∉ newConfig.fixturesDir.segments ∧
      newConfig.dryRun = false ∧
      (run Disk.empty newConfig).result = .ok { curated := ⟨8, 8, 0⟩ } ∧
      (run Disk.empty { newConfig with dryRun := true }).result =
        .error (.fixtureListing ⟨"c"⟩ "No such file or directory (os error 2)") := by
  exact ⟨by decide, by decide, rfl, by decide +kernel, by decide +kernel⟩

end MarkupSeeds
