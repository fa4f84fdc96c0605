import MarkupSeeds.Proofs.Run.Steps

/-!
# What a run leaves behind

However a run ends, it has removed nothing, has made no directory but that of the corpus and
those above it, and every file that is new or has changed is a seed in its stored form.  Each
call of the writer preserves this, so no error can break it.
-/

namespace MarkupSeeds

/-- From one disk to another nothing was removed and nothing was added but the directories on
the way to the corpus and seeds of the run. -/
structure LeavesOnlySeeds (config : Config) (d final : Disk) : Prop where
  workingDirectory : final.workingDirectory = d.workingDirectory
  directory_kept : ∀ {location}, d.node? location = some .directory →
    final.node? location = some .directory
  file_kept : ∀ {location content}, d.node? location = some (.file content) →
    ∃ after, final.node? location = some (.file after)
  /-- What is new as a directory is where a leading part of the path of the corpus leads. -/
  directory_new : ∀ {location}, final.node? location = some .directory →
    d.node? location ≠ some .directory →
    ∃ part, part <+: config.corpusDir.segments ∧
      final.walk (final.start config.corpusDir) part = .ok location
  /-- What is new or has changed as a file is at the path of a seed and holds all of it. -/
  file_new : ∀ {location content}, final.node? location = some (.file content) →
    d.node? location ≠ some (.file content) →
    ∃ seed ∈ config.seeds d, content = seed.2.encode ∧
      final.resolve (config.corpusDir.join (seed.2.name seed.1)) = .ok location

/-- Seeds were stored one after another where the path of the corpus leads, and that is all that
has become of the files. -/
def HasStored (config : Config) (d final : Disk) (seeds : List (Strategy × Pair)) : Prop :=
  ∃ dir, final.Reaches config.corpusDir dir ∧
    ∀ location content, final.node? location = some (.file content) ↔
      withSeeds d.node? dir seeds location = some (.file content)

/-- A run was stopped by a seed that could not be written, and exactly the seeds before it were
stored. -/
inductive StopsAt (config : Config) (d final : Disk) (path : Path) (reason : String) : Prop
  | intro {w made done seed rest} (hwriter : config.writer d = (.ok w, made))
      (hseeds : config.seeds d = done ++ seed :: rest)
      (hpath : path = config.corpusDir.join (seed.2.name seed.1))
      (hok : ∀ storing ∈ w.handOver made done, storing.result.isOk)
      (hdisk : final = Writer.lastDisk made (w.handOver made done))
      (hfails : (w.write final seed.1 seed.2).result = .error (.seedWrite path reason))
      (hstored : HasStored config d final done)

section

variable {config : Config} {d made : Disk}

/-- Making the corpus directory leaves no file. -/
theorem Disk.Paves.leavesOnlySeeds
    (hpaves : d.Paves made (d.start config.corpusDir) config.corpusDir.segments) :
    LeavesOnlySeeds config d made where
  workingDirectory := hpaves.workingDirectory
  directory_kept := hpaves.toExtends.keeps.directory
  file_kept hfile := ⟨_, hpaves.file_iff.mpr hfile⟩
  directory_new {location} hdirectory hnew := by
    rcases hpaves.node? location with hsame | ⟨-, -, -, part, hlead, hwalk⟩
    · exact absurd (hsame ▸ hdirectory) hnew
    · refine ⟨part, hlead, ?_⟩
      rw [Disk.start, hpaves.workingDirectory]
      exact hwalk
  file_new hfile hnew := absurd (hpaves.file_iff.mp hfile) hnew

/-- A seed that is put in its place is left there. -/
theorem LeavesOnlySeeds.puts {before stored : Disk} {dir : Location} {seed : Strategy × Pair}
    (hleaves : LeavesOnlySeeds config d before) (hmem : seed ∈ config.seeds d)
    (hreaches : before.Reaches config.corpusDir dir)
    (hadmits : before.Admits config.corpusDir dir (seed.2.name seed.1))
    (hputs : before.Puts stored (seedLocation dir seed) seed.2.encode) :
    LeavesOnlySeeds config d stored where
  workingDirectory := hputs.workingDirectory.trans hleaves.workingDirectory
  directory_kept hdirectory := hputs.keeps.directory (hleaves.directory_kept hdirectory)
  file_kept {location content} hfile := by
    obtain ⟨after, hafter⟩ := hleaves.file_kept hfile
    rw [hputs.node?]
    split
    · exact ⟨_, rfl⟩
    · exact ⟨after, hafter⟩
  directory_new {location} hdirectory hnew := by
    rw [hputs.node?] at hdirectory
    split at hdirectory
    · cases hdirectory
    · obtain ⟨part, hlead, hwalk⟩ := hleaves.directory_new hdirectory hnew
      refine ⟨part, hlead, ?_⟩
      rw [Disk.start, hputs.workingDirectory]
      exact hputs.keeps.walk hwalk
  file_new {location content} hfile hnew := by
    -- A new file is the seed itself, or it was new before; then its path still leads to it.
    by_cases hlocation : location = seedLocation dir seed
    · have hthere : stored.node? (seedLocation dir seed) = some (.file seed.2.encode) := by
        rw [hputs.node?, if_pos rfl]
      rw [hlocation, hthere] at hfile
      cases hfile
      refine ⟨seed, hmem, rfl, ?_⟩
      rw [hlocation]
      exact Disk.resolve_join_of_node? (hputs.keeps.reaches hreaches)
        (not_isStep_seedName seed.1 seed.2.encode) hadmits.sound hadmits.short hthere
    · rw [hputs.node?, if_neg hlocation] at hfile
      obtain ⟨other, hother, hcontent, hresolve⟩ := hleaves.file_new hfile hnew
      exact ⟨other, hother, hcontent, hputs.keeps.resolve hresolve⟩

/-- Whatever becomes of a seed of the run, nothing else is left. -/
theorem LeavesOnlySeeds.handles {w : Writer} {before : Disk} {dir : Location}
    {seed : Strategy × Pair} {storing : Storing} (hleaves : LeavesOnlySeeds config d before)
    (hmem : seed ∈ config.seeds d) (hdir : w.dir = config.corpusDir)
    (hserves : w.Serves before dir) (hhandles : w.Handles before dir seed storing) :
    LeavesOnlySeeds config d storing.disk := by
  cases hhandles with
  | present => exact hleaves
  | stored haccepts _ hputs =>
      have hadmits := haccepts.admits
      rw [hdir] at hadmits
      exact hleaves.puts hmem (hdir ▸ hserves.reaches) hadmits hputs
  | refused => exact hleaves

theorem LeavesOnlySeeds.handOver {w : Writer} {before : Disk} {dir : Location}
    {seeds : List (Strategy × Pair)} (hleaves : LeavesOnlySeeds config d before)
    (hdir : w.dir = config.corpusDir) (hserves : w.Serves before dir)
    (hsubset : seeds ⊆ config.seeds d) :
    LeavesOnlySeeds config d (Writer.lastDisk before (w.handOver before seeds)) := by
  induction seeds generalizing before with
  | nil => exact hleaves
  | cons seed rest ih =>
      obtain ⟨hmem, hrest⟩ := List.cons_subset.mp hsubset
      have hhandles := hserves.handles seed
      rw [Writer.handOver_cons hhandles.writer_eq]
      exact ih (hleaves.handles hmem hdir hserves hhandles) (hhandles.serves hserves) hrest

/-- What was handed over without a failure is stored. -/
theorem hasStored_handOver {w : Writer} {dir : Location} {seeds : List (Strategy × Pair)}
    (hwriter : config.writer d = (.ok w, made)) (hdir : w.dir = config.corpusDir)
    (hserves : w.Serves made dir)
    (hok : ∀ storing ∈ w.handOver made seeds, storing.result.isOk) :
    HasStored config d (Writer.lastDisk made (w.handOver made seeds)) seeds := by
  refine ⟨dir, ?_, ?_⟩
  · rw [← hdir]
    exact (Writer.keeps_handOver hserves).reaches hserves.reaches
  · rw [Writer.node?_handOver hserves hok]
    exact withSeeds_file_iff fun _ _ => (Config.paves_of_writer hwriter).file_iff

end

theorem disk_run_of_dryRun {config : Config} (hlooks : config.dryRun = true) (d : Disk) :
    (run d config).disk = d := by
  have hwriter : config.writer d = (.ok (Writer.ofDryRun config.corpusDir), d) := by
    rw [Config.writer, if_pos hlooks]
  have hends := run_ends d config
  generalize (run d config).result = result, (run d config).disk = final at hends
  cases hends with
  | unmade hreal =>
      rw [hlooks] at hreal
      cases hreal
  | unlisted hfound =>
      rw [hwriter] at hfound
      exact (congrArg Prod.snd hfound).symm
  | handedOver hfound =>
      rw [hwriter] at hfound
      cases hfound
      exact Progress.disk_steps_of_dryRun rfl _

theorem run_leavesOnlySeeds (d : Disk) (config : Config) :
    LeavesOnlySeeds config d (run d config).disk := by
  cases hlooks : config.dryRun with
  | true =>
      rw [disk_run_of_dryRun hlooks]
      exact (Disk.Paves.refl ..).leavesOnlySeeds
  | false =>
      have hends := run_ends d config
      generalize (run d config).result = result, (run d config).disk = final at hends
      cases hends with
      | unmade _ hwriter => exact (Config.paves_of_writer hwriter).leavesOnlySeeds
      | unlisted hwriter => exact (Config.paves_of_writer hwriter).leavesOnlySeeds
      | @handedOver w made pool hwriter hcollect =>
          have hmade := (Config.paves_of_writer hwriter).leavesOnlySeeds
          obtain ⟨hdir, dir, hserves, hadvances⟩ := advances_progress hlooks hwriter pool
          rw [← seeds_eq hwriter hcollect] at hadvances
          cases hadvances with
          | whole _ hdisk =>
              rw [hdisk]
              exact hmade.handOver hdir hserves (List.Subset.refl _)
          | stopped hseeds _ hdisk =>
              rw [hdisk]
              refine hmade.handOver hdir hserves ?_
              rw [hseeds]
              exact List.subset_append_left _ _

theorem run_stopsAt {d : Disk} {config : Config} {path : Path} {reason : String}
    (hreal : config.dryRun = false)
    (hfails : (run d config).result = .error (.seedWrite path reason)) :
    StopsAt config d (run d config).disk path reason := by
  have hends := run_ends d config
  generalize (run d config).result = result, (run d config).disk = final at hends hfails
  cases hends with
  | unmade => cases hfails
  | unlisted => cases hfails
  | @handedOver w made pool hwriter hcollect =>
      obtain ⟨hdir, dir, hserves, hadvances⟩ := advances_progress hreal hwriter pool
      rw [← seeds_eq hwriter hcollect] at hadvances
      have hfailure := Progress.result_eq_error_iff.mp hfails
      cases hadvances with
      | whole _ _ hgoes =>
          rw [hgoes] at hfailure
          cases hfailure
      | stopped hseeds hok hdisk hwrite hstops =>
          rw [hfailure] at hstops
          cases hstops
          obtain ⟨fault, herror⟩ := Writer.exists_of_write_eq_error hwrite
          injection herror with hpath
          rw [Writer.seedPath, Writer.pathOf, hdir] at hpath
          refine .intro hwriter hseeds hpath hok hdisk hwrite ?_
          rw [hdisk]
          exact hasStored_handOver hwriter hdir hserves hok

/-- A run that succeeds has stored all of its seeds. -/
theorem run_hasStored {d : Disk} {config : Config} {report : Report}
    (hreal : config.dryRun = false) (hrun : (run d config).result = .ok report) :
    HasStored config d (run d config).disk (config.seeds d) := by
  obtain ⟨w, made, pool, hwriter, hcollect⟩ := exists_pool_of_run hrun
  obtain ⟨hresult, hdisk⟩ := result_run hwriter hcollect
  obtain ⟨hdir, dir, hserves, hadvances⟩ := advances_progress hreal hwriter pool
  rw [hresult] at hrun
  rw [hdisk, seeds_eq hwriter hcollect]
  cases hadvances with
  | whole hok hlast =>
      rw [hlast]
      exact hasStored_handOver hwriter hdir hserves hok
  | stopped _ _ _ _ hstops =>
      rw [(Progress.result_eq_ok_iff.mp hrun).1] at hstops
      cases hstops

/-- Once the fixtures are pooled, a run fails for no other reason than that a seed cannot be
written. -/
theorem exists_of_result_progress {config : Config} {w : Writer} {made : Disk} {pool : Pool}
    {error : SeedError} (hfails : (config.progress w made pool).result = .error error) :
    ∃ path reason, error = .seedWrite path reason :=
  Progress.exists_of_failure_steps rfl (Progress.result_eq_error_iff.mp hfails)

/-- Before anything is handed over no file has changed. -/
theorem file_iff_of_run {d : Disk} {config : Config} {path : Path} {reason : String}
    (hfails : (run d config).result = .error (.corpusDirectory path reason) ∨
      (run d config).result = .error (.fixtureListing path reason))
    (location : Location) (content : Option Bytes) :
    (run d config).disk.node? location = some (.file content) ↔
      d.node? location = some (.file content) := by
  have hends := run_ends d config
  generalize (run d config).result = result, (run d config).disk = final at hends hfails
  cases hends with
  | unmade _ hwriter => exact (Config.paves_of_writer hwriter).file_iff
  | unlisted hwriter => exact (Config.paves_of_writer hwriter).file_iff
  | handedOver =>
      rcases hfails with hfails | hfails
      · obtain ⟨_, _, himpossible⟩ := exists_of_result_progress hfails
        cases himpossible
      · obtain ⟨_, _, himpossible⟩ := exists_of_result_progress hfails
        cases himpossible

/-- A fixture that cannot be read never ends a run. -/
theorem result_run_ne_fixtureRead (d : Disk) (config : Config) (path : Path) (reason : String) :
    (run d config).result ≠ .error (.fixtureRead path reason) := by
  intro hfails
  have hends := run_ends d config
  generalize (run d config).result = result, (run d config).disk = final at hends hfails
  cases hends with
  | unmade => cases hfails
  | unlisted => cases hfails
  | handedOver =>
      obtain ⟨_, _, himpossible⟩ := exists_of_result_progress hfails
      cases himpossible

/-- Pages with a directory for their seeds, in which a directory has the name of a seed. -/
def blockedDisk : Disk where
  entries :=
    [(["pages"], .directory),
     (["pages", "first.html"], .file (Utf8.encode "<p>Hello</p>")),
     (["pages", "seeds"], .directory),
     (["pages", "seeds", "fixture_hand_35b1d90a81e6c6e8b04a128c77932aee3c20619b"], .directory)]
  closed := by decide
  named := by decide
  workingDirectory := ["pages"]

def blockedConfig : Config where
  fixturesDir := ⟨"."⟩
  corpusDir := ⟨"seeds/"⟩
  crossLimit := 0

end MarkupSeeds
