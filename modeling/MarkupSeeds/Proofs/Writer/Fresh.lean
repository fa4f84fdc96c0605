import MarkupSeeds.Proofs.Seed.StoredForm
import MarkupSeeds.Proofs.Writer.Storing

/-!
# Seeds under free names

Where nothing lies under the names of some seeds, a writer creates each of them when it is handed
over for the first time, and finds it on every later occasion.  A writer that stores finds it on
the disk, one that only looks among the paths that it has planned.
-/

namespace MarkupSeeds

theorem Pair.encode_injective : Function.Injective Pair.encode := by
  intro left right heq
  have hleft := Pair.decode?_eq_some_iff.mpr heq
  have hright := Pair.decode?_eq_some_iff.mpr (rfl : right.encode = right.encode)
  exact Option.some.inj (hleft.symm.trans hright)

/-- Where names tell stored forms apart, they tell seeds apart. -/
theorem NoCollision.eq_of_name_eq {seeds : List (Strategy × Pair)} (hnames : NoCollision seeds)
    {seed other : Strategy × Pair} (hseed : seed ∈ seeds) (hother : other ∈ seeds)
    (hname : seed.2.name seed.1 = other.2.name other.1) : seed = other :=
  Prod.ext (strategy_eq_of_seedName_eq hname)
    (Pair.encode_injective (hnames seed hseed other hother hname))

namespace Writer

/-- Of the given seeds a writer has dealt with those that are `done`, and nothing lies under the
names of the others. -/
inductive Awaits (seeds done : List (Strategy × Pair)) (w : Writer) (d : Disk) : Prop
  | looking (hlooks : w.dryRun = true)
      (hplanned : ∀ seed ∈ seeds, w.seedPath seed ∈ w.planned ↔ seed ∈ done)
      (habsent : ∀ seed ∈ seeds, ∀ content, d.read (w.seedPath seed) ≠ .ok content)
  | storing {dir} (hserves : w.Serves d dir)
      (hdone : ∀ seed ∈ seeds, seed ∈ done →
        d.node? (seedLocation dir seed) = some (.file seed.2.encode))
      (hfree : ∀ seed ∈ seeds, seed ∉ done → d.node? (seedLocation dir seed) = none)

/-- The answer to a seed under a free name. -/
def firstOutcome (done : List (Strategy × Pair)) (seed : Strategy × Pair) : Outcome :=
  if seed ∈ done then .alreadyPresent else .created

section

variable {seeds done : List (Strategy × Pair)} {w : Writer} {d : Disk} {seed : Strategy × Pair}
  (hnames : NoCollision seeds) (hmem : seed ∈ seeds)
  (hok : (w.write d seed.1 seed.2).result.isOk)

include hnames hmem hok

theorem write_of_looking (hlooks : w.dryRun = true)
    (hplanned : ∀ seed ∈ seeds, w.seedPath seed ∈ w.planned ↔ seed ∈ done)
    (habsent : ∀ seed ∈ seeds, ∀ content, d.read (w.seedPath seed) ≠ .ok content) :
    (w.write d seed.1 seed.2).result = .ok (firstOutcome done seed) ∧
      Awaits seeds (seed :: done) (w.write d seed.1 seed.2).writer
        (w.write d seed.1 seed.2).disk := by
  rcases d.read_cases (w.seedPath seed) seed.2.encode with
    hpresent | hlacks | ⟨fault, hfault, hread⟩
  · exact absurd hpresent (habsent seed hmem _)
  · obtain ⟨notices, hwrite⟩ := write_of_lacks hlacks
    rw [hwrite, store, if_pos hlooks, firstOutcome]
    split
    · rename_i hold
      have hdone := (hplanned seed hmem).mp hold
      refine ⟨by rw [if_pos hdone], .looking hlooks ?_ habsent⟩
      intro other hother
      rw [hplanned other hother, List.mem_cons]
      exact ⟨Or.inr, fun hor => hor.elim (fun heq => heq ▸ hdone) id⟩
    · rename_i hnew
      have hundone := fun hdone => hnew ((hplanned seed hmem).mpr hdone)
      refine ⟨by rw [if_neg hundone], .looking hlooks ?_ habsent⟩
      intro other hother
      change w.seedPath other ∈ w.seedPath seed :: w.planned ↔ _
      rw [List.mem_cons, List.mem_cons, hplanned other hother, or_congr_left]
      constructor
      · intro hpath
        exact hnames.eq_of_name_eq hother hmem (w.dir.join_injective hpath)
      · rintro rfl
        rfl
  · rw [write_of_fault hfault hread] at hok
    cases hok

theorem write_of_storing {dir : Location} (hserves : w.Serves d dir)
    (hdone : ∀ seed ∈ seeds, seed ∈ done →
      d.node? (seedLocation dir seed) = some (.file seed.2.encode))
    (hfree : ∀ seed ∈ seeds, seed ∉ done → d.node? (seedLocation dir seed) = none) :
    (w.write d seed.1 seed.2).result = .ok (firstOutcome done seed) ∧
      Awaits seeds (seed :: done) (w.write d seed.1 seed.2).writer
        (w.write d seed.1 seed.2).disk := by
  have hhandles := hserves.handles seed
  generalize w.write d seed.1 seed.2 = storing at hok hhandles
  cases hhandles with
  | present hadmits hpresent =>
      have hold : seed ∈ done := by
        by_contra hundone
        rw [hfree seed hmem hundone] at hpresent
        cases hpresent
      refine ⟨by rw [firstOutcome, if_pos hold], .storing hserves ?_ ?_⟩
      · intro other hother hlater
        exact hdone other hother ((List.mem_cons.mp hlater).elim (fun heq => heq ▸ hold) id)
      · intro other hother hlater
        exact hfree other hother fun hbefore => hlater (List.mem_cons_of_mem seed hbefore)
  | @stored stored notices hadmits hlacking hputs =>
      have hnew : seed ∉ done := fun hold => hlacking (hdone seed hmem hold)
      have hserves' : w.Serves stored dir :=
        ⟨hserves.stores, hputs.keeps.reaches hserves.reaches⟩
      refine ⟨by rw [firstOutcome, if_neg hnew], .storing hserves' ?_ ?_⟩
      · intro other hother hlater
        rw [hputs.node?]
        split
        · rename_i hlocation
          rw [hnames.eq_of_name_eq hother hmem (seedLocation_inj.mp hlocation)]
        · rename_i hlocation
          refine hdone other hother ((List.mem_cons.mp hlater).resolve_left ?_)
          rintro rfl
          exact hlocation rfl
      · intro other hother hlater
        obtain ⟨hne, hundone⟩ := not_or.mp fun hor => hlater (List.mem_cons.mpr hor)
        rw [hputs.node?, if_neg]
        · exact hfree other hother hundone
        · intro hlocation
          exact hne (hnames.eq_of_name_eq hother hmem (seedLocation_inj.mp hlocation))
  | refused => cases hok

/-- A seed under a free name is created at first and found from then on. -/
theorem Awaits.write (hawaits : Awaits seeds done w d) :
    (w.write d seed.1 seed.2).result = .ok (firstOutcome done seed) ∧
      Awaits seeds (seed :: done) (w.write d seed.1 seed.2).writer
        (w.write d seed.1 seed.2).disk := by
  cases hawaits with
  | looking hlooks hplanned habsent =>
      exact write_of_looking hnames hmem hok hlooks hplanned habsent
  | storing hserves hdone hfree => exact write_of_storing hnames hmem hok hserves hdone hfree

end

end Writer

end MarkupSeeds
