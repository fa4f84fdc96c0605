import MarkupSeeds.Proofs.Run.DryRun
import MarkupSeeds.Proofs.Run.Pooling

/-!
# Running again

A real run that has succeeded finds all its work done if it is run again.  Its seeds are no
fixtures, so it makes the same pairs as before, and each of them is in its place.
-/

namespace MarkupSeeds

/-! ## Reports of work that is done -/

/-- The counts of a strategy whose seeds are all there. -/
def Tally.settled (t : Tally) : Tally := ⟨t.pairs, 0, t.pairs⟩

/-- The report of a run that has nothing left to create. -/
def Report.settled (r : Report) : Report :=
  { r with
    mutated := r.mutated.settled
    crossed := r.crossed.settled
    curated := r.curated.settled }

theorem Report.settled_record (r : Report) (strategy : Strategy) (outcome : Outcome) :
    (r.record strategy outcome).settled = r.settled.record strategy .alreadyPresent := by
  cases strategy <;> cases outcome <;> rfl

/-- Pooling fixtures counts no seeds. -/
theorem settled_of_collect {d : Disk} {config : Config} {pool : Pool}
    (hcollect : collect d config {} = .ok pool) : pool.report.settled = pool.report := by
  obtain ⟨fixtures, -, -, hreport⟩ := exists_of_collect hcollect
  rw [hreport]
  rfl

/-! ## Steps when all seeds are there -/

/-- Where all seeds are there, the same steps leave everything as it is and count every pair
as present. -/
theorem Progress.steps_of_present {p q : Progress} {seeds : List (Strategy × Pair)}
    (hstart : p.failure = none) (hgoes : (p.steps seeds).failure = none)
    (hfailure : q.failure = none) (hreport : q.report = p.report.settled)
    (hpresent : ∀ seed ∈ seeds, q.disk.read (q.writer.seedPath seed) = .ok seed.2.encode) :
    (q.steps seeds).disk = q.disk ∧
      (q.steps seeds).result = .ok (p.steps seeds).report.settled := by
  induction seeds generalizing p q with
  | nil => exact ⟨rfl, result_eq_ok_iff.mpr ⟨hfailure, hreport⟩⟩
  | cons seed rest ih =>
      -- Whatever the first run makes of the seed, the second one finds it.
      obtain ⟨hfirst, hrest⟩ := List.forall_mem_cons.mp hpresent
      obtain ⟨notices, hwrite⟩ := Writer.write_of_present hfirst
      have hthere : (q.writer.write q.disk seed.1 seed.2).result = .ok .alreadyPresent := by
        rw [hwrite]
      have hwriter : (q.step seed).writer = q.writer := by rw [writer_step, hwrite]
      have hdisk : (q.step seed).disk = q.disk := by rw [disk_step, hwrite]
      obtain ⟨hgoes', hcount', hsteps'⟩ := steps_cons_of_ok rest hfailure hthere
      cases hresult : (p.writer.write p.disk seed.1 seed.2).result with
      | error error =>
          obtain ⟨hstops, hsteps⟩ := steps_cons_of_error rest hresult
          rw [hsteps, hstops] at hgoes
          cases hgoes
      | ok outcome =>
          obtain ⟨hgo, hcount, hsteps⟩ := steps_cons_of_ok rest hstart hresult
          have hreport' : (q.step seed).report = (p.step seed).report.settled := by
            rw [hcount', hcount, Report.settled_record, hreport]
          rw [hsteps] at hgoes ⊢
          rw [hsteps', ← hdisk]
          apply ih hgo hgoes hgoes' hreport'
          rw [hwriter, hdisk]
          exact hrest

/-! ## The disk that a run leaves -/

section

variable {w : Writer} {made : Disk} {dir : Location} {seeds : List (Strategy × Pair)}
  (hserves : w.Serves made dir) (hok : ∀ storing ∈ w.handOver made seeds, storing.result.isOk)

include hserves hok

/-- Storing seeds makes no fixtures and changes none. -/
theorem Writer.keepsFixtures_handOver :
    made.KeepsFixtures (lastDisk made (w.handOver made seeds)) where
  toKeeps := keeps_handOver hserves
  file {location name content} hfixture := by
    rw [node?_handOver hserves hok, withSeeds_of_ne]
    intro seed _ hlocation
    have hname := (List.append_inj' hlocation rfl).2
    rw [List.singleton_inj.mp hname] at hfixture
    exact not_isFixtureName_seedName seed.1 seed.2.encode hfixture

/-- Every seed that was handed over can be read afterwards. -/
theorem Writer.read_handOver (hnames : NoCollision seeds) {seed : Strategy × Pair}
    (hmem : seed ∈ seeds) :
    (lastDisk made (w.handOver made seeds)).read (w.seedPath seed) = .ok seed.2.encode := by
  have hkeeps : made.Keeps (lastDisk made (w.handOver made seeds)) := keeps_handOver hserves
  have hadmits := admits_of_isOk_handOver hserves hok hmem
  have hnode : (lastDisk made (w.handOver made seeds)).node? (seedLocation dir seed) =
      some (.file seed.2.encode) := by
    rw [node?_handOver hserves hok, withSeeds_seedLocation hnames hmem]
  refine (Disk.read_join_eq_ok_iff (hkeeps.reaches hserves.reaches)
    (not_isStep_seedName seed.1 seed.2.encode)).mpr ⟨?_, hnode⟩
  refine ⟨hadmits.sound, hadmits.short, hkeeps.directory hadmits.directory, ?_⟩
  intro node hthere
  exact ⟨_, Option.some.inj (hthere.symm.trans hnode)⟩

end

/-- A writer is to be had again without making anything. -/
theorem writer_of_keeps {d made other : Disk} {config : Config} {w : Writer}
    (hreal : config.dryRun = false) (hwriter : config.writer d = (.ok w, made))
    (hkeeps : made.Keeps other) : config.writer other = (.ok w, other) := by
  obtain ⟨hw, hmade⟩ := Writer.create_eq_ok_iff.mp (create_of_writer hreal hwriter)
  have hagain : other.makeDirectories config.corpusDir = (.ok (), other) := by
    apply Disk.Keeps.makeDirectories (congrArg Prod.fst hmade)
    rw [hmade]
    exact hkeeps
  rw [Config.writer, hreal]
  exact Writer.create_eq_ok_iff.mpr ⟨hw, hagain⟩

/-- A real run that has succeeded can be run again.  It then leaves the disk as it is, and it
reports the same fixtures, snippets and pairs, but all of the pairs as present. -/
theorem run_again {d : Disk} {config : Config} {report : Report}
    (hreal : config.dryRun = false) (hrun : (run d config).result = .ok report)
    (hnames : NoCollision (config.seeds d)) :
    (run (run d config).disk config).disk = (run d config).disk ∧
      (run (run d config).disk config).result = .ok report.settled := by
  obtain ⟨w, made, pool, hwriter, hcollect⟩ := exists_pool_of_run hrun
  obtain ⟨hresult, hdisk⟩ := result_run hwriter hcollect
  obtain ⟨-, dir, hserves, hadvances⟩ := advances_progress hreal hwriter pool
  rw [hresult] at hrun
  obtain ⟨hgoes, hreport⟩ := Progress.result_eq_ok_iff.mp hrun
  rw [seeds_eq hwriter hcollect] at hnames
  cases hadvances with
  | stopped _ _ _ _ hstops =>
      rw [hgoes] at hstops
      cases hstops
  | whole hok hlast _ =>
      rw [hdisk, hlast]
      have hkeeps := Writer.keepsFixtures_handOver hserves hok
      have hagain := result_run (writer_of_keeps hreal hwriter hkeeps.toKeeps)
        (collect_of_keepsFixtures hkeeps hcollect)
      rw [hagain.1, hagain.2, ← hreport]
      exact Progress.steps_of_present
        (q := config.outset w (Writer.lastDisk made (w.handOver made _)) pool) rfl hgoes rfl
        (settled_of_collect hcollect).symm
        fun seed hmem => Writer.read_handOver hserves hok hnames hmem

theorem run_again_in_shared_directory :
    (run sharedDisk sharedConfig).result = .ok sharedReport ∧
      (run (run sharedDisk sharedConfig).disk sharedConfig).disk =
        (run sharedDisk sharedConfig).disk ∧
      (run (run sharedDisk sharedConfig).disk sharedConfig).result =
        .ok { fixturesRead := 1, snippetsFound := 1, uniqueSnippets := 1,
              mutated := ⟨1, 0, 1⟩, curated := ⟨8, 0, 8⟩ } :=
  ⟨result_run_sharedDisk, run_again rfl result_run_sharedDisk noCollision_sharedDisk⟩

end MarkupSeeds
