import MarkupSeeds.Proofs.Disk.Frame
import MarkupSeeds.Proofs.Disk.Staging
import MarkupSeeds.Proofs.Writer.DryRun

/-!
# What one seed does to the disk

A seed that is handed to a writer is stored completely or not at all.  If it is stored, it is the
only thing that has changed, and the temporary file by way of which it came is gone; with every
other answer the disk is as it was.  A dry run answers from what it looks up and from what it has
answered so far: it reports each path as created once, unless the seed is there.
-/

namespace MarkupSeeds.Writer

/-! ## Calls to a writer -/

/-- The writer after some calls, each with the disk as it was then. -/
def after (w : Writer) (calls : List (Disk × Strategy × Pair)) : Writer :=
  calls.foldl (fun w call => (w.write call.1 call.2.1 call.2.2).writer) w

/-- The paths that a writer has reported as created in some calls. -/
def createdPaths (w : Writer) : List (Disk × Strategy × Pair) → List Path
  | [] => []
  | (d, seed) :: rest =>
    let storing := w.write d seed.1 seed.2
    let later := storing.writer.createdPaths rest
    if storing.result = .ok .created then w.seedPath seed :: later else later

namespace Answers

variable {w : Writer} {d : Disk} {seed : Strategy × Pair} {storing : Storing}
  (hanswers : Answers w d seed storing)

include hanswers

/-- Only what is reported as created leaves a trace. -/
theorem disk_eq (hidle : storing.result ≠ .ok .created) : storing.disk = d := by
  cases hanswers with
  | present | planned | plans | unstored | unread => rfl
  | stores => exact absurd rfl hidle

/-! ### A writer that stores -/

theorem present_iff (hstores : w.dryRun = false) :
    storing.result = .ok .alreadyPresent ↔ d.read (w.seedPath seed) = .ok seed.2.encode := by
  cases hanswers with
  | present hpresent => exact iff_of_true rfl hpresent
  | planned hlooks | plans hlooks => exact absurd hlooks (Bool.eq_false_iff.mp hstores)
  | stores _ hlacks | unstored _ hlacks => exact iff_of_false nofun hlacks.read_ne
  | unread _ hread =>
      rw [hread]
      exact iff_of_false nofun nofun

theorem storesOnly (hstores : w.dryRun = false) (hcreated : storing.result = .ok .created) :
    d.StoresOnly storing.disk (w.seedPath seed) seed.2.encode := by
  cases hanswers with
  | present | planned | unstored | unread => cases hcreated
  | plans hlooks => exact absurd hlooks (Bool.eq_false_iff.mp hstores)
  | stores _ hlacks _ hreaches hadmits hputs =>
      exact hputs.storesOnly hreaches (not_isStep_seedName _ _) hadmits hlacks.read_ne

/-! ### A writer that only looks -/

variable (hlooks : w.dryRun = true)

include hlooks

theorem isOk_iff :
    storing.result.isOk ↔ d.read (w.seedPath seed) = .ok seed.2.encode ∨
      d.Lacks (w.seedPath seed) seed.2.encode := by
  cases hanswers with
  | present hpresent => exact iff_of_true rfl (Or.inl hpresent)
  | planned _ hlacks | plans _ hlacks => exact iff_of_true rfl (Or.inr hlacks)
  | stores hstores | unstored hstores => exact absurd hlooks (Bool.eq_false_iff.mp hstores)
  | unread hfault hread =>
      refine iff_of_false Bool.false_ne_true ?_
      rintro (hpresent | hlacks)
      · cases hread.symm.trans hpresent
      · exact hlacks.read_ne_error hfault hread

/-- A dry run counts as created what is lacking and has not been planned. -/
theorem planned_created_iff {outcome : Outcome} (hok : storing.result = .ok outcome) :
    outcome = .created ↔
      d.read (w.seedPath seed) ≠ .ok seed.2.encode ∧ w.seedPath seed ∉ w.planned := by
  cases hanswers with
  | present hpresent =>
      cases hok
      exact iff_of_false nofun fun hnew => hnew.1 hpresent
  | planned _ hlacks hplanned =>
      cases hok
      exact iff_of_false nofun fun hnew => hnew.2 hplanned
  | plans _ hlacks hnew =>
      cases hok
      exact iff_of_true rfl ⟨hlacks.read_ne, hnew⟩
  | stores hstores | unstored hstores => exact absurd hlooks (Bool.eq_false_iff.mp hstores)
  | unread => cases hok

/-- What a dry run has planned grows by what it reports as created. -/
theorem mem_planned_iff (path : Path) :
    path ∈ storing.writer.planned ↔
      storing.result = .ok .created ∧ path = w.seedPath seed ∨ path ∈ w.planned := by
  cases hanswers with
  | present | planned | unread => simp
  | plans => simp
  | stores hstores | unstored hstores => exact absurd hlooks (Bool.eq_false_iff.mp hstores)

end Answers

/-! ## A dry run over many calls -/

/-- A dry run has planned what it had planned before and what it has reported as created. -/
theorem mem_planned_after {w : Writer} (hlooks : w.dryRun = true)
    (calls : List (Disk × Strategy × Pair)) {path : Path} :
    path ∈ (w.after calls).planned ↔ path ∈ w.createdPaths calls ∨ path ∈ w.planned := by
  induction calls generalizing w with
  | nil =>
      rw [createdPaths]
      exact (or_iff_right List.not_mem_nil).symm
  | cons call rest ih =>
      obtain ⟨d, seed⟩ := call
      have hstill := (write_of_dryRun hlooks d seed).2
      have hstep := (w.write_answers d seed).mem_planned_iff hlooks path
      change path ∈ ((w.write d seed.1 seed.2).writer.after rest).planned ↔ _
      rw [ih hstill, hstep, createdPaths]
      split
      · rename_i hcreated
        rw [and_iff_right hcreated, List.mem_cons, or_left_comm, or_assoc]
      · rename_i hold
        simp only [hold, false_and, false_or]

-- On a full disk the temporary file is made, and taken away again as it cannot be filled.
example :
    let d : Disk := { crowdedDisk with refusals := [((.fill, ["corpus"]), .storageFull)] }
    let storing := (⟨⟨"corpus/"⟩, false, []⟩ : Writer).write d .crossed ⟨"a", "b"⟩
    (d.stage ⟨"corpus/"⟩).isOk ∧ storing.disk = d ∧
      storing.result =
        .error (.seedWrite ⟨"corpus/fixture_pair_2b962856b5d3a293cc64cbfaf1e1580c7cefeba7"⟩
          "No space left on device (os error 28)") := by
  decide +kernel

end MarkupSeeds.Writer
