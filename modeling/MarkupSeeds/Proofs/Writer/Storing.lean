import Mathlib.Logic.Function.Basic
import MarkupSeeds.Proofs.Writer.HandOver

/-!
# Storing seeds

A writer that stores either finds a seed in its directory, puts it there, or fails and leaves
everything as it was.  Seeds that were stored one after another lie in the directory
afterwards, the last one under each name, and nothing else has changed.
-/

namespace MarkupSeeds

/-- Where a directory keeps a seed. -/
def seedLocation (dir : Location) (seed : Strategy × Pair) : Location :=
  dir ++ [seed.2.name seed.1]

theorem seedLocation_inj {dir : Location} {seed other : Strategy × Pair} :
    seedLocation dir seed = seedLocation dir other ↔ seed.2.name seed.1 = other.2.name other.1 := by
  simp [seedLocation]

/-! ## The nodes with some seeds stored -/

/-- The nodes that result if seeds are put into a directory one after another. -/
def withSeeds (nodes : Location → Option Node) (dir : Location)
    (seeds : List (Strategy × Pair)) : Location → Option Node :=
  seeds.foldl (fun nodes seed =>
    Function.update nodes (seedLocation dir seed) (some (.file seed.2.encode))) nodes

section

variable {nodes : Location → Option Node} {dir location : Location}
  {seeds others : List (Strategy × Pair)}

@[simp]
theorem withSeeds_nil : withSeeds nodes dir [] = nodes := rfl

@[simp]
theorem withSeeds_cons (seed : Strategy × Pair) :
    withSeeds nodes dir (seed :: seeds) =
      withSeeds (Function.update nodes (seedLocation dir seed) (some (.file seed.2.encode)))
        dir seeds := rfl

/-- A node is as it was, or it is the last seed that was put there. -/
theorem withSeeds_cases (nodes : Location → Option Node) (dir : Location)
    (seeds : List (Strategy × Pair)) (location : Location) :
    ((∀ seed ∈ seeds, location ≠ seedLocation dir seed) ∧
        withSeeds nodes dir seeds location = nodes location) ∨
      ∃ seed ∈ seeds, location = seedLocation dir seed ∧
        withSeeds nodes dir seeds location = some (.file seed.2.encode) := by
  induction seeds generalizing nodes with
  | nil => exact Or.inl ⟨fun seed hmem => absurd hmem List.not_mem_nil, rfl⟩
  | cons first rest ih =>
      rw [withSeeds_cons]
      rcases ih (Function.update nodes (seedLocation dir first) (some (.file first.2.encode))) with
        ⟨huntouched, hsame⟩ | ⟨later, hmem, hlocation, hnode⟩
      · rw [hsame]
        by_cases hfirst : location = seedLocation dir first
        · refine Or.inr ⟨first, List.mem_cons_self, hfirst, ?_⟩
          rw [hfirst, Function.update_self]
        · refine Or.inl ⟨List.forall_mem_cons.mpr ⟨hfirst, huntouched⟩, ?_⟩
          exact Function.update_of_ne hfirst _ _
      · exact Or.inr ⟨later, List.mem_cons_of_mem first hmem, hlocation, hnode⟩

theorem withSeeds_of_ne (hne : ∀ seed ∈ seeds, location ≠ seedLocation dir seed) :
    withSeeds nodes dir seeds location = nodes location := by
  rcases withSeeds_cases nodes dir seeds location with ⟨-, hsame⟩ | ⟨seed, hmem, hlocation, -⟩
  · exact hsame
  · exact absurd hlocation (hne seed hmem)

/-- Where names tell seeds apart, each of them is stored. -/
theorem withSeeds_seedLocation (hnames : NoCollision seeds) {seed : Strategy × Pair}
    (hmem : seed ∈ seeds) :
    withSeeds nodes dir seeds (seedLocation dir seed) = some (.file seed.2.encode) := by
  rcases withSeeds_cases nodes dir seeds (seedLocation dir seed) with
    ⟨huntouched, -⟩ | ⟨other, hother, hlocation, hnode⟩
  · exact absurd rfl (huntouched seed hmem)
  · rw [hnode, hnames seed hmem other hother (seedLocation_inj.mp hlocation)]

/-- Storing seeds in two places that have the same files makes the same files. -/
theorem withSeeds_file_iff {before after : Location → Option Node}
    (hfiles : ∀ location content,
      before location = some (.file content) ↔ after location = some (.file content))
    (location : Location) (content : Option Bytes) :
    withSeeds before dir seeds location = some (.file content) ↔
      withSeeds after dir seeds location = some (.file content) := by
  induction seeds generalizing before after with
  | nil => exact hfiles location content
  | cons first rest ih =>
      rw [withSeeds_cons, withSeeds_cons]
      apply ih
      intro location content
      rw [Function.update_apply, Function.update_apply]
      split
      · rfl
      · exact hfiles location content

theorem withSeeds_eq_of_perm (hnames : NoCollision seeds) (hperm : seeds.Perm others) :
    withSeeds nodes dir seeds = withSeeds nodes dir others := by
  apply hperm.foldl_eq'
  intro first hfirst second hsecond current
  by_cases hname : first.2.name first.1 = second.2.name second.1
  · rw [hnames first hfirst second hsecond hname, seedLocation_inj.mpr hname]
  · exact Function.update_comm (fun hlocation => hname (seedLocation_inj.mp hlocation)) _ _ _

end

/-! ## What becomes of a seed -/

namespace Writer

/-- A writer stores what it is handed in the directory at a location. -/
structure Serves (w : Writer) (d : Disk) (dir : Location) : Prop where
  stores : w.dryRun = false
  reaches : d.Reaches w.dir dir

theorem serves_of_create {d made : Disk} {path : Path} {w : Writer}
    (hcreate : create d path = (.ok w, made)) : ∃ dir, w.Serves made dir := by
  obtain ⟨rfl, hmade⟩ := create_eq_ok_iff.mp hcreate
  obtain ⟨dir, hreaches, -⟩ := Disk.exists_reaches_of_makeDirectories (congrArg Prod.fst hmade)
  rw [hmade] at hreaches
  exact ⟨dir, rfl, hreaches⟩

/-- A writer can store a seed: its name may be given to a file, and nothing stands in the way of
files in the directory. -/
structure Accepts (w : Writer) (d : Disk) (dir : Location) (seed : Strategy × Pair) : Prop where
  admits : d.Admits w.dir dir (seed.2.name seed.1)
  clear : d.obstacle? w.dir = none

/-- What a writer that stores makes of a seed. -/
inductive Handles (w : Writer) (d : Disk) (dir : Location) (seed : Strategy × Pair) :
    Storing → Prop
  | present {notices} (hadmits : d.Admits w.dir dir (seed.2.name seed.1))
      (hpresent : d.node? (seedLocation dir seed) = some (.file seed.2.encode)) :
      Handles w d dir seed ⟨.ok .alreadyPresent, w, d, notices⟩
  | stored {stored notices} (haccepts : w.Accepts d dir seed)
      (hlacking : d.node? (seedLocation dir seed) ≠ some (.file seed.2.encode))
      (hputs : d.Puts stored (seedLocation dir seed) seed.2.encode) :
      Handles w d dir seed ⟨.ok .created, w, stored, notices⟩
  | refused {fault : Fault} {notices} (hrefused : ¬ w.Accepts d dir seed) :
      Handles w d dir seed ⟨.error (.seedWrite (w.seedPath seed) fault.reason), w, d, notices⟩

variable {w : Writer} {d : Disk} {dir : Location} {seed : Strategy × Pair} {storing : Storing}

theorem Serves.handles (hserves : w.Serves d dir) (seed : Strategy × Pair) :
    Handles w d dir seed (w.write d seed.1 seed.2) := by
  have hreaches := hserves.reaches
  have hstep := not_isStep_seedName seed.1 seed.2.encode
  have hanswers := w.write_answers d seed
  generalize w.write d seed.1 seed.2 = storing at hanswers
  cases hanswers with
  | present hpresent =>
      obtain ⟨hadmits, hnode⟩ := (Disk.read_join_eq_ok_iff hreaches hstep).mp hpresent
      exact .present hadmits hnode
  | planned hlooks | plans hlooks => exact absurd hlooks (Bool.eq_false_iff.mp hserves.stores)
  | stores _ hlacks hclear hway hadmits hputs =>
      cases Except.ok.inj (hway.symm.trans hreaches)
      refine .stored ⟨hadmits, hclear⟩ ?_ hputs
      intro hnode
      exact hlacks.read_ne ((Disk.read_join_eq_ok_iff hreaches hstep).mpr ⟨hadmits, hnode⟩)
  | unstored _ _ hobstacle =>
      refine .refused ?_
      intro haccepts
      cases hobstacle.symm.trans haccepts.clear
  | unread hfault hread =>
      refine .refused ?_
      intro haccepts
      rcases haccepts.admits.read_cases hreaches hstep with hmissing | ⟨content, hfound⟩
      · exact hfault (Except.error.inj (hread.symm.trans hmissing))
      · cases hread.symm.trans hfound

namespace Handles

variable (hhandles : Handles w d dir seed storing)

include hhandles

theorem writer_eq : storing.writer = w := by
  cases hhandles <;> rfl

theorem admits_of_isOk (hok : storing.result.isOk) : d.Admits w.dir dir (seed.2.name seed.1) := by
  cases hhandles with
  | present hadmits => exact hadmits
  | stored haccepts => exact haccepts.admits
  | refused => cases hok

theorem keeps : d.Keeps storing.disk := by
  cases hhandles with
  | present | refused => exact Disk.Keeps.refl d
  | stored _ _ hputs => exact hputs.keeps

theorem serves {other : Writer} (hserves : other.Serves d dir) : other.Serves storing.disk dir :=
  ⟨hserves.stores, hhandles.keeps.reaches hserves.reaches⟩

/-- A seed is created if it can be stored and was not there. -/
theorem created_iff :
    storing.result = .ok .created ↔
      w.Accepts d dir seed ∧ d.node? (seedLocation dir seed) ≠ some (.file seed.2.encode) := by
  cases hhandles with
  | present _ hpresent => exact iff_of_false nofun (fun hnew => hnew.2 hpresent)
  | stored haccepts hlacking => exact iff_of_true rfl ⟨haccepts, hlacking⟩
  | refused hrefused => exact iff_of_false nofun (fun hnew => hrefused hnew.1)

/-- A seed that was handed over is stored. -/
theorem node?_eq (hok : storing.result.isOk) :
    storing.disk.node? = withSeeds d.node? dir [seed] := by
  cases hhandles with
  | present _ hpresent => exact (Function.update_eq_self_iff.mpr hpresent.symm).symm
  | stored _ _ hputs =>
      funext location
      rw [hputs.node?, withSeeds_cons, withSeeds_nil, Function.update_apply]
  | refused => cases hok

theorem isOk_of_accepts (haccepts : w.Accepts d dir seed) : storing.result.isOk := by
  cases hhandles with
  | present | stored => rfl
  | refused hrefused => exact absurd haccepts hrefused

/-- A seed that cannot be stored leaves no trace. -/
theorem disk_eq_of_not_accepts (hrefused : ¬ w.Accepts d dir seed) : storing.disk = d := by
  cases hhandles with
  | present | refused => rfl
  | stored haccepts => exact absurd haccepts hrefused

/-- A seed that cannot be handed over leaves none either. -/
theorem disk_eq {error : SeedError} (hfails : storing.result = .error error) :
    storing.disk = d := by
  cases hhandles with
  | present | refused => rfl
  | stored => cases hfails

theorem admits_iff {path : Path} {name : String} :
    storing.disk.Admits path dir name ↔ d.Admits path dir name := by
  cases hhandles with
  | present | refused => exact Iff.rfl
  | stored _ _ hputs => exact hputs.admits_iff

/-- Whether a seed can be stored does not depend on the seeds stored before. -/
theorem accepts_iff {other : Writer} {later : Strategy × Pair} :
    other.Accepts storing.disk dir later ↔ other.Accepts d dir later := by
  cases hhandles with
  | present | refused => exact Iff.rfl
  | @stored stored _ _ _ hputs =>
      have hclear : stored.obstacle? other.dir = none ↔ d.obstacle? other.dir = none :=
        hputs.obstacle?_eq_none_iff (dot_not_mem_seedName _ _)
      constructor
      · intro haccepts
        exact ⟨hputs.admits_iff.mp haccepts.admits, hclear.mp haccepts.clear⟩
      · intro haccepts
        exact ⟨hputs.admits_iff.mpr haccepts.admits, hclear.mpr haccepts.clear⟩

end Handles

end Writer

end MarkupSeeds
