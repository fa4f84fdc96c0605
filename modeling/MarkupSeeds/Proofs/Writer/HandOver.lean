import MarkupSeeds.Proofs.Disk.Staging
import MarkupSeeds.Proofs.Seed.Name
import MarkupSeeds.Writer

/-!
# Handing over seeds

What becomes of a seed is decided by what is read under its name.  If that is its stored
form, nothing is done; if it is another file or none, the seed is stored; any other fault
is passed on.
-/

namespace MarkupSeeds

/-- Seeds that share a name share their stored form. -/
def NoCollision (seeds : List (Strategy × Pair)) : Prop :=
  ∀ seed ∈ seeds, ∀ other ∈ seeds,
    seed.2.name seed.1 = other.2.name other.1 → seed.2.encode = other.2.encode

theorem NoCollision.mono {seeds others : List (Strategy × Pair)} (hnames : NoCollision seeds)
    (hsubset : others ⊆ seeds) : NoCollision others :=
  fun seed hseed other hother => hnames seed (hsubset hseed) other (hsubset hother)

instance : DecidablePred NoCollision := fun seeds =>
  inferInstanceAs (Decidable (∀ seed ∈ seeds, ∀ other ∈ seeds,
    seed.2.name seed.1 = other.2.name other.1 → seed.2.encode = other.2.encode))

instance decidableEqExcept {ε α : Type} [DecidableEq ε] [DecidableEq α] :
    DecidableEq (Except ε α)
  | .ok left, .ok right => decidable_of_iff (left = right) (by rw [Except.ok.injEq])
  | .error left, .error right => decidable_of_iff (left = right) (by rw [Except.error.injEq])
  | .ok _, .error _ => isFalse nofun
  | .error _, .ok _ => isFalse nofun

namespace Disk

/-- A seed is still to be stored: there is no file at its path, or one that holds something
else. -/
def Lacks (d : Disk) (path : Path) (bytes : Bytes) : Prop :=
  d.read path = .error .notFound ∨ ∃ content, content ≠ bytes ∧ d.read path = .ok content

theorem read_cases (d : Disk) (path : Path) (bytes : Bytes) :
    d.read path = .ok bytes ∨ d.Lacks path bytes ∨
      ∃ fault, fault ≠ .notFound ∧ d.read path = .error fault := by
  cases hread : d.read path with
  | ok content =>
      by_cases heq : content = bytes
      · exact Or.inl (by rw [heq])
      · exact Or.inr (Or.inl (Or.inr ⟨content, heq, hread⟩))
  | error fault =>
      by_cases heq : fault = .notFound
      · exact Or.inr (Or.inl (Or.inl (by rw [hread, heq])))
      · exact Or.inr (Or.inr ⟨fault, heq, rfl⟩)

theorem Lacks.read_ne {d : Disk} {path : Path} {bytes : Bytes} (hlacks : d.Lacks path bytes) :
    d.read path ≠ .ok bytes := by
  intro hread
  rcases hlacks with hmissing | ⟨content, hne, hother⟩
  · rw [hread] at hmissing
    cases hmissing
  · rw [hread] at hother
    exact hne (Except.ok.inj hother).symm

theorem Lacks.read_ne_error {d : Disk} {path : Path} {bytes : Bytes}
    (hlacks : d.Lacks path bytes) {fault : Fault} (hfault : fault ≠ .notFound) :
    d.read path ≠ .error fault := by
  intro hread
  rcases hlacks with hmissing | ⟨content, -, hfound⟩
  · exact hfault (Except.error.inj (hread.symm.trans hmissing))
  · cases hread.symm.trans hfound

/-- Where a file may be stored, there is one to be read or none at all. -/
theorem Admits.read_cases {d : Disk} {dir : Path} {parent : Location} {name : String}
    (hadmits : d.Admits dir parent name) (hreaches : d.Reaches dir parent)
    (hstep : ¬ isStep name) :
    d.read (dir.join name) = .error .notFound ∨
      ∃ content, d.read (dir.join name) = .ok content := by
  cases hnode : d.node? (parent ++ [name]) with
  | none =>
      exact Or.inl ((read_join_eq_notFound_iff hreaches hstep hadmits.directory).mpr
        ⟨hadmits, hnode⟩)
  | some node =>
      obtain ⟨content, rfl⟩ := hadmits.free node hnode
      exact Or.inr ⟨content, (read_join_eq_ok_iff hreaches hstep).mpr ⟨hadmits, hnode⟩⟩

theorem Lacks.admits {d : Disk} {dir : Path} {parent : Location} {name : String} {bytes : Bytes}
    (hreaches : d.Reaches dir parent) (hparent : d.node? parent = some .directory)
    (hstep : ¬ isStep name) (hlacks : d.Lacks (dir.join name) bytes) :
    d.Admits dir parent name := by
  rcases hlacks with hmissing | ⟨content, -, hread⟩
  · exact ((read_join_eq_notFound_iff hreaches hstep hparent).mp hmissing).1
  · exact ((read_join_eq_ok_iff hreaches hstep).mp hread).1

end Disk

namespace Writer

/-- A writer is there once its directory was made. -/
theorem create_eq_ok_iff {d made : Disk} {dir : Path} {w : Writer} :
    create d dir = (.ok w, made) ↔
      w = ⟨dir, false, []⟩ ∧ d.makeDirectories dir = (.ok (), made) := by
  rw [create]
  split
  · rename_i found hmade
    rw [hmade]
    simp [eq_comm]
  · rename_i fault found hmade
    rw [hmade]
    simp

/-- The path of a seed. -/
def seedPath (w : Writer) (seed : Strategy × Pair) : Path := w.pathOf seed.1 seed.2.encode

section

variable {w : Writer} {d : Disk} {seed : Strategy × Pair}

theorem write_of_present (hread : d.read (w.seedPath seed) = .ok seed.2.encode) :
    ∃ notices, w.write d seed.1 seed.2 = ⟨.ok .alreadyPresent, w, d, notices⟩ := by
  rw [seedPath] at hread
  simp only [write, hread, if_true]
  exact ⟨_, rfl⟩

theorem write_of_lacks (hlacks : d.Lacks (w.seedPath seed) seed.2.encode) :
    ∃ notices, w.write d seed.1 seed.2 =
      { w.store d (w.seedPath seed) seed.2.encode with notices := notices } := by
  rw [seedPath] at hlacks ⊢
  rcases hlacks with hmissing | ⟨content, hne, hread⟩
  · simp only [write, hmissing]
    exact ⟨_, rfl⟩
  · simp only [write, hread, if_neg hne]
    exact ⟨_, rfl⟩

theorem write_of_fault {fault : Fault} (hfault : fault ≠ .notFound)
    (hread : d.read (w.seedPath seed) = .error fault) :
    w.write d seed.1 seed.2 = ⟨.error (.seedWrite (w.seedPath seed) fault.reason), w, d, []⟩ := by
  rw [seedPath] at hread ⊢
  simp only [write, hread]

/-- A real writer stores a seed that it lacks, if nothing stands in the way. -/
theorem write_of_clear (hstores : w.dryRun = false) (hclear : d.obstacle? w.dir = none)
    (hlacks : d.Lacks (w.seedPath seed) seed.2.encode) :
    ∃ parent stored notices, w.write d seed.1 seed.2 = ⟨.ok .created, w, stored, notices⟩ ∧
      d.Reaches w.dir parent ∧ d.Admits w.dir parent (seed.2.name seed.1) ∧
        d.Puts stored (parent ++ [seed.2.name seed.1]) seed.2.encode := by
  have hstep := not_isStep_seedName seed.1 seed.2.encode
  obtain ⟨parent, hreaches, hparent⟩ := Disk.exists_reaches_of_obstacle?_eq_none hclear
  have hadmits := hlacks.admits hreaches hparent hstep
  have hstored : d.store w.dir (w.seedPath seed) seed.2.encode =
      (.ok (), hadmits.holding hstep seed.2.encode) :=
    Disk.store_of_admits hclear hreaches hadmits hstep (dot_not_mem_seedName _ _)
  obtain ⟨notices, hnotices⟩ := write_of_lacks hlacks
  simp only [store, hstores, hstored, Bool.false_eq_true, if_false] at hnotices
  exact ⟨parent, _, notices, hnotices, hreaches, hadmits,
    hadmits.puts_holding hstep seed.2.encode⟩

/-- If something does, it fails and leaves nothing behind. -/
theorem write_of_obstacle (hstores : w.dryRun = false) {fault : Fault}
    (hobstacle : d.obstacle? w.dir = some fault)
    (hlacks : d.Lacks (w.seedPath seed) seed.2.encode) :
    ∃ notices, w.write d seed.1 seed.2 =
      ⟨.error (.seedWrite (w.seedPath seed) fault.reason), w, d, notices⟩ := by
  obtain ⟨notices, hnotices⟩ := write_of_lacks hlacks
  simp only [store, hstores, Disk.store_of_obstacle? hobstacle, Bool.false_eq_true, if_false]
    at hnotices
  exact ⟨notices, hnotices⟩

end

/-- The ways in which a writer answers a seed, each with what it depends on. -/
inductive Answers (w : Writer) (d : Disk) (seed : Strategy × Pair) : Storing → Prop
  | present {notices} (hpresent : d.read (w.seedPath seed) = .ok seed.2.encode) :
      Answers w d seed ⟨.ok .alreadyPresent, w, d, notices⟩
  | planned {notices} (hlooks : w.dryRun = true)
      (hlacks : d.Lacks (w.seedPath seed) seed.2.encode) (hplanned : w.seedPath seed ∈ w.planned) :
      Answers w d seed ⟨.ok .alreadyPresent, w, d, notices⟩
  | plans {notices} (hlooks : w.dryRun = true)
      (hlacks : d.Lacks (w.seedPath seed) seed.2.encode) (hnew : w.seedPath seed ∉ w.planned) :
      Answers w d seed
        ⟨.ok .created, { w with planned := w.seedPath seed :: w.planned }, d, notices⟩
  | stores {parent stored notices} (hstores : w.dryRun = false)
      (hlacks : d.Lacks (w.seedPath seed) seed.2.encode) (hclear : d.obstacle? w.dir = none)
      (hreaches : d.Reaches w.dir parent)
      (hadmits : d.Admits w.dir parent (seed.2.name seed.1))
      (hputs : d.Puts stored (parent ++ [seed.2.name seed.1]) seed.2.encode) :
      Answers w d seed ⟨.ok .created, w, stored, notices⟩
  | unstored {fault notices} (hstores : w.dryRun = false)
      (hlacks : d.Lacks (w.seedPath seed) seed.2.encode)
      (hobstacle : d.obstacle? w.dir = some fault) :
      Answers w d seed ⟨.error (.seedWrite (w.seedPath seed) fault.reason), w, d, notices⟩
  | unread {fault : Fault} (hfault : fault ≠ .notFound)
      (hread : d.read (w.seedPath seed) = .error fault) :
      Answers w d seed ⟨.error (.seedWrite (w.seedPath seed) fault.reason), w, d, []⟩

theorem write_answers (w : Writer) (d : Disk) (seed : Strategy × Pair) :
    Answers w d seed (w.write d seed.1 seed.2) := by
  rcases d.read_cases (w.seedPath seed) seed.2.encode with
    hpresent | hlacks | ⟨fault, hfault, hread⟩
  · obtain ⟨notices, hwrite⟩ := write_of_present hpresent
    rw [hwrite]
    exact .present hpresent
  · cases hmode : w.dryRun with
    | true =>
        obtain ⟨notices, hnotices⟩ := write_of_lacks hlacks
        rw [hnotices, store, if_pos hmode]
        split
        · rename_i hplanned
          exact .planned hmode hlacks hplanned
        · rename_i hnew
          exact .plans hmode hlacks hnew
    | false =>
        cases hobstacle : d.obstacle? w.dir with
        | none =>
            obtain ⟨parent, stored, notices, hwrite, hreaches, hadmits, hputs⟩ :=
              write_of_clear hmode hobstacle hlacks
            rw [hwrite]
            exact .stores hmode hlacks hobstacle hreaches hadmits hputs
        | some fault =>
            obtain ⟨notices, hwrite⟩ := write_of_obstacle hmode hobstacle hlacks
            rw [hwrite]
            exact .unstored hmode hlacks hobstacle
  · rw [write_of_fault hfault hread]
    exact .unread hfault hread

namespace Answers

variable {w : Writer} {d : Disk} {seed : Strategy × Pair} {storing : Storing}
  (hanswers : Answers w d seed storing)

include hanswers

/-- A writer changes only in what it has planned. -/
theorem writer_eq : storing.writer = { w with planned := storing.writer.planned } := by
  cases hanswers <;> rfl

/-- What becomes of a seed stands in the way of no other. -/
theorem obstacle?_eq_none_iff {dir : Path} :
    storing.disk.obstacle? dir = none ↔ d.obstacle? dir = none := by
  cases hanswers with
  | present | planned | plans | unstored | unread => rfl
  | stores _ _ _ _ _ hputs => exact hputs.obstacle?_eq_none_iff (dot_not_mem_seedName _ _)

/-- A seed that was not there and has been stored shows that nothing is in the way. -/
theorem obstacle?_of_isOk (hstores : w.dryRun = false)
    (hlacks : d.Lacks (w.seedPath seed) seed.2.encode) (hok : storing.result.isOk) :
    d.obstacle? w.dir = none := by
  cases hanswers with
  | present hpresent => exact absurd hpresent hlacks.read_ne
  | planned hlooks | plans hlooks => exact absurd hlooks (Bool.eq_false_iff.mp hstores)
  | stores _ _ hclear => exact hclear
  | unstored | unread => cases hok

/-- A writer that only looks changes nothing, and neither does one that can store nothing. -/
theorem disk_eq_of_idle (hidle : w.dryRun = true ∨ d.obstacle? w.dir ≠ none) :
    storing.disk = d := by
  cases hanswers with
  | present | planned | plans | unstored | unread => rfl
  | stores hstores _ hclear =>
      rcases hidle with hlooks | hobstacle
      · exact absurd hlooks (Bool.eq_false_iff.mp hstores)
      · exact absurd hclear hobstacle

end Answers

/-- What handing over seeds one after another leads to, one storing for each. -/
def handOver (w : Writer) (d : Disk) : List (Strategy × Pair) → List Storing
  | [] => []
  | seed :: rest =>
    let storing := w.write d seed.1 seed.2
    storing :: handOver storing.writer storing.disk rest

theorem handOver_cons {w : Writer} {d : Disk} {seed : Strategy × Pair}
    (hwriter : (w.write d seed.1 seed.2).writer = w) (rest : List (Strategy × Pair)) :
    w.handOver d (seed :: rest) =
      w.write d seed.1 seed.2 :: w.handOver (w.write d seed.1 seed.2).disk rest := by
  rw [handOver, hwriter]

/-- The disk after the last of some storings. -/
def lastDisk (d : Disk) : List Storing → Disk
  | [] => d
  | storing :: rest => lastDisk storing.disk rest

/-- A seed that cannot be handed over is one that cannot be written. -/
theorem exists_of_write_eq_error {w : Writer} {d : Disk} {seed : Strategy × Pair}
    {error : SeedError} (hfails : (w.write d seed.1 seed.2).result = .error error) :
    ∃ fault : Fault, error = .seedWrite (w.seedPath seed) fault.reason := by
  have hanswers := w.write_answers d seed
  generalize w.write d seed.1 seed.2 = storing at hfails hanswers
  cases hanswers with
  | present | planned | plans | stores => cases hfails
  | @unstored fault | @unread fault =>
      cases hfails
      exact ⟨fault, rfl⟩

/-- Seeds that are handed over without any effect on the disk are answered each for itself, but
for what has been planned before. -/
theorem getElem?_handOver_of_idle {w : Writer} {d : Disk}
    (hidle : w.dryRun = true ∨ d.obstacle? w.dir ≠ none) (seeds : List (Strategy × Pair))
    (i : Nat) :
    ∃ planned, (w.handOver d seeds)[i]? =
      seeds[i]?.map fun seed => { w with planned := planned }.write d seed.1 seed.2 := by
  induction seeds generalizing w i with
  | nil => exact ⟨[], rfl⟩
  | cons seed rest ih =>
      have hanswers := w.write_answers d seed
      cases i with
      | zero => exact ⟨w.planned, rfl⟩
      | succ i =>
          rw [handOver, hanswers.disk_eq_of_idle hidle, hanswers.writer_eq]
          exact ih (w := { w with planned := (w.write d seed.1 seed.2).writer.planned }) hidle i

/-- A writer that only looks leaves the disk alone, whatever it is handed. -/
theorem write_of_dryRun {w : Writer} (hlooks : w.dryRun = true) (d : Disk)
    (seed : Strategy × Pair) :
    (w.write d seed.1 seed.2).disk = d ∧ (w.write d seed.1 seed.2).writer.dryRun = true := by
  have hanswers := w.write_answers d seed
  refine ⟨hanswers.disk_eq_of_idle (Or.inl hlooks), ?_⟩
  rw [hanswers.writer_eq]
  exact hlooks

end Writer

end MarkupSeeds
