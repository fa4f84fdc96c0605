import Mathlib.Data.Set.Card
import MarkupSeeds.Proofs.Writer.DryRun
import MarkupSeeds.Proofs.Writer.Storing

/-!
# Writers that take turns

Any number of writers may store seeds in one directory, in whatever order their calls come.
A seed is created by the first call that brings it and is there for all the others.  What
lies in the directory at the end and how many calls have created a file therefore depends on
which seeds were handed over, and not on when or by whom.
-/

namespace MarkupSeeds

/-- The locations where seeds of the given strategies are not stored yet. -/
def lacking (wanted : Strategy → Bool) (nodes : Location → Option Node) (dir : Location)
    (seeds : List (Strategy × Pair)) : Set Location :=
  {location | ∃ seed ∈ seeds, wanted seed.1 ∧ location = seedLocation dir seed ∧
    nodes location ≠ some (.file seed.2.encode)}

section

variable {wanted : Strategy → Bool} {nodes : Location → Option Node} {dir : Location}
  {seeds others : List (Strategy × Pair)}

theorem lacking_congr (hmem : ∀ seed, seed ∈ seeds ↔ seed ∈ others) :
    lacking wanted nodes dir seeds = lacking wanted nodes dir others := by
  simp only [lacking, hmem]

/-- Storing seeds changes the nodes where one of them was lacking. -/
theorem changed_eq_lacking (hnames : NoCollision seeds) :
    {location | withSeeds nodes dir seeds location ≠ nodes location} =
      lacking (fun _ => true) nodes dir seeds := by
  ext location
  change withSeeds nodes dir seeds location ≠ nodes location ↔ ∃ seed ∈ seeds, _
  rcases withSeeds_cases nodes dir seeds location with
    ⟨huntouched, hsame⟩ | ⟨seed, hmem, rfl, hnode⟩
  · refine iff_of_false (fun hchanged => hchanged hsame) ?_
    rintro ⟨seed, hmem, -, hlocation, -⟩
    exact huntouched seed hmem hlocation
  · rw [hnode]
    constructor
    · intro hchanged
      exact ⟨seed, hmem, rfl, rfl, hchanged.symm⟩
    · rintro ⟨other, hother, -, hlocation, hlacking⟩
      rw [hnames seed hmem other hother (seedLocation_inj.mp hlocation)]
      exact hlacking.symm

section

variable {seed : Strategy × Pair} (hnames : NoCollision (seed :: seeds))

include hnames

/-- A seed that is stored is not lacking any more. -/
theorem seedLocation_not_mem_lacking :
    seedLocation dir seed ∉ lacking wanted (withSeeds nodes dir [seed]) dir seeds := by
  rintro ⟨other, hother, -, hlocation, hlacking⟩
  have hsame := hnames seed List.mem_cons_self other (List.mem_cons_of_mem seed hother)
    (seedLocation_inj.mp hlocation)
  rw [withSeeds_cons, withSeeds_nil, Function.update_self, hsame] at hlacking
  exact hlacking rfl

/-- Storing a seed affects no other location. -/
theorem mem_lacking_cons_of_ne {location : Location} (hne : location ≠ seedLocation dir seed) :
    location ∈ lacking wanted nodes dir (seed :: seeds) ↔
      location ∈ lacking wanted (withSeeds nodes dir [seed]) dir seeds := by
  have hnode : withSeeds nodes dir [seed] location = nodes location :=
    Function.update_of_ne hne _ _
  constructor
  · rintro ⟨other, hother, hwanted, hlocation, hlacking⟩
    rcases List.mem_cons.mp hother with rfl | hlater
    · exact absurd hlocation hne
    · exact ⟨other, hlater, hwanted, hlocation, hnode ▸ hlacking⟩
  · rintro ⟨other, hother, hwanted, hlocation, hlacking⟩
    exact ⟨other, List.mem_cons_of_mem seed hother, hwanted, hlocation, hnode ▸ hlacking⟩

/-- Of the seeds under one name all have the strategy and the stored form of the first. -/
theorem seedLocation_mem_lacking_cons_iff :
    seedLocation dir seed ∈ lacking wanted nodes dir (seed :: seeds) ↔
      wanted seed.1 ∧ nodes (seedLocation dir seed) ≠ some (.file seed.2.encode) := by
  constructor
  · rintro ⟨other, hother, hwanted, hlocation, hlacking⟩
    have hname := seedLocation_inj.mp hlocation
    rw [hnames seed List.mem_cons_self other hother hname,
      strategy_eq_of_seedName_eq hname]
    exact ⟨hwanted, hlacking⟩
  · rintro ⟨hwanted, hlacking⟩
    exact ⟨seed, List.mem_cons_self, hwanted, rfl, hlacking⟩

theorem encard_lacking_cons :
    (lacking wanted nodes dir (seed :: seeds)).encard =
      (lacking wanted (withSeeds nodes dir [seed]) dir seeds).encard +
        if wanted seed.1 ∧ nodes (seedLocation dir seed) ≠ some (.file seed.2.encode) then 1
        else 0 := by
  by_cases hcounts : wanted seed.1 ∧
      nodes (seedLocation dir seed) ≠ some (.file seed.2.encode)
  · have hinsert : lacking wanted nodes dir (seed :: seeds) =
        insert (seedLocation dir seed)
          (lacking wanted (withSeeds nodes dir [seed]) dir seeds) := by
      ext location
      by_cases hlocation : location = seedLocation dir seed
      · subst hlocation
        exact iff_of_true ((seedLocation_mem_lacking_cons_iff hnames).mpr hcounts)
          (Set.mem_insert _ _)
      · rw [mem_lacking_cons_of_ne hnames hlocation, Set.mem_insert_iff, or_iff_right hlocation]
    rw [if_pos hcounts, hinsert,
      Set.encard_insert_of_notMem (seedLocation_not_mem_lacking hnames)]
  · have hsame : lacking wanted nodes dir (seed :: seeds) =
        lacking wanted (withSeeds nodes dir [seed]) dir seeds := by
      ext location
      by_cases hlocation : location = seedLocation dir seed
      · subst hlocation
        exact iff_of_false (fun hmem => hcounts ((seedLocation_mem_lacking_cons_iff hnames).mp hmem))
          (seedLocation_not_mem_lacking hnames)
      · exact mem_lacking_cons_of_ne hnames hlocation
    rw [if_neg hcounts, hsame, add_zero]

end

end

/-! ## Calls to several writers -/

namespace Writer

variable {ι : Type} [DecidableEq ι]

/-- Hands seeds to several writers in turn.  Each call says to which. -/
def takeTurns (writers : ι → Writer) (d : Disk) : List (ι × Strategy × Pair) → List Storing
  | [] => []
  | (i, seed) :: rest =>
    let storing := (writers i).write d seed.1 seed.2
    storing :: takeTurns (Function.update writers i storing.writer) storing.disk rest

/-- How many calls have created a seed of one of the given strategies. -/
def createdBy (wanted : Strategy → Bool) (calls : List (ι × Strategy × Pair))
    (storings : List Storing) : Nat :=
  (calls.zip storings).countP fun turn =>
    wanted turn.1.2.1 && decide (turn.2.result = .ok .created)

/-! ### Seeds that can be stored -/

section

open scoped Classical in
/-- The seeds that are handed to writers that can store them. -/
noncomputable def accepted (writers : ι → Writer) (d : Disk) (dir : Location)
    (calls : List (ι × Strategy × Pair)) : List (Strategy × Pair) :=
  (calls.filter fun call => (writers call.1).Accepts d dir call.2).map Prod.snd

omit [DecidableEq ι]

variable {writers : ι → Writer} {d other : Disk} {dir : Location} {i : ι}
  {seed : Strategy × Pair} {calls others : List (ι × Strategy × Pair)}

theorem accepted_subset : accepted writers d dir calls ⊆ calls.map Prod.snd :=
  List.map_subset _ (List.filter_subset_self _)

theorem accepted_cons_of_accepts (haccepts : (writers i).Accepts d dir seed) :
    accepted writers d dir ((i, seed) :: calls) = seed :: accepted writers d dir calls := by
  rw [accepted, List.filter_cons_of_pos (by simpa using haccepts)]
  rfl

theorem accepted_cons_of_not_accepts (hrefused : ¬ (writers i).Accepts d dir seed) :
    accepted writers d dir ((i, seed) :: calls) = accepted writers d dir calls := by
  rw [accepted, List.filter_cons_of_neg (by simpa using hrefused)]
  rfl

theorem accepted_congr
    (hsame : ∀ call : ι × Strategy × Pair,
      (writers call.1).Accepts other dir call.2 ↔ (writers call.1).Accepts d dir call.2) :
    accepted writers other dir calls = accepted writers d dir calls :=
  congrArg _ (List.filter_congr fun call _ => decide_eq_decide.mpr (hsame call))

theorem accepted_perm (hperm : others.Perm calls) :
    (accepted writers d dir others).Perm (accepted writers d dir calls) :=
  (hperm.filter _).map _

end

/-! ### Seeds that were created -/

omit [DecidableEq ι] in
theorem createdBy_cons (wanted : Strategy → Bool) (call : ι × Strategy × Pair)
    (calls : List (ι × Strategy × Pair)) (storing : Storing) (storings : List Storing) :
    createdBy wanted (call :: calls) (storing :: storings) =
      createdBy wanted calls storings +
        if wanted call.2.1 ∧ storing.result = .ok .created then 1 else 0 := by
  rw [createdBy, List.zip_cons_cons, List.countP_cons, ← createdBy]
  simp only [Bool.and_eq_true, decide_eq_true_eq]

section

variable {writers : ι → Writer} {d : Disk} {dir : Location}
  {calls others : List (ι × Strategy × Pair)} (hserves : ∀ i, (writers i).Serves d dir)

include hserves

theorem takeTurns_cons (i : ι) (seed : Strategy × Pair) :
    takeTurns writers d ((i, seed) :: calls) =
      (writers i).write d seed.1 seed.2 ::
        takeTurns writers ((writers i).write d seed.1 seed.2).disk calls := by
  rw [takeTurns, ((hserves i).handles seed).writer_eq, Function.update_eq_self]

omit [DecidableEq ι] in
theorem serves_write (i : ι) (seed : Strategy × Pair) (j : ι) :
    (writers j).Serves ((writers i).write d seed.1 seed.2).disk dir :=
  ((hserves i).handles seed).serves (hserves j)

theorem keeps_takeTurns : d.Keeps (lastDisk d (takeTurns writers d calls)) := by
  induction calls generalizing d with
  | nil => exact Disk.Keeps.refl d
  | cons call rest ih =>
      obtain ⟨i, seed⟩ := call
      rw [takeTurns_cons hserves, lastDisk]
      exact ((hserves i).handles seed).keeps.trans (ih (serves_write hserves i seed))

/-- Calls that succeed bring seeds that may be stored. -/
theorem admits_of_isOk_takeTurns (hok : ∀ storing ∈ takeTurns writers d calls, storing.result.isOk)
    {call : ι × Strategy × Pair} (hcall : call ∈ calls) :
    d.Admits (writers call.1).dir dir (call.2.2.name call.2.1) := by
  induction calls generalizing d with
  | nil => exact absurd hcall List.not_mem_nil
  | cons first rest ih =>
      obtain ⟨i, seed⟩ := first
      have hhandles := (hserves i).handles seed
      rw [takeTurns_cons hserves, List.forall_mem_cons] at hok
      rcases List.mem_cons.mp hcall with rfl | hlater
      · exact hhandles.admits_of_isOk hok.1
      · exact hhandles.admits_iff.mp (ih (serves_write hserves i seed) hok.2 hlater)

/-- After calls that all succeed, their seeds are stored. -/
theorem node?_takeTurns (hok : ∀ storing ∈ takeTurns writers d calls, storing.result.isOk) :
    (lastDisk d (takeTurns writers d calls)).node? =
      withSeeds d.node? dir (calls.map Prod.snd) := by
  induction calls generalizing d with
  | nil => rfl
  | cons call rest ih =>
      obtain ⟨i, seed⟩ := call
      rw [takeTurns_cons hserves, List.forall_mem_cons] at hok
      rw [takeTurns_cons hserves, lastDisk, ih (serves_write hserves i seed) hok.2,
        ((hserves i).handles seed).node?_eq hok.1]
      rfl

/-- After any calls, the seeds are stored that could be. -/
theorem node?_takeTurns_accepted :
    (lastDisk d (takeTurns writers d calls)).node? =
      withSeeds d.node? dir (accepted writers d dir calls) := by
  induction calls generalizing d with
  | nil => rfl
  | cons call rest ih =>
      obtain ⟨i, seed⟩ := call
      have hhandles := (hserves i).handles seed
      rw [takeTurns_cons hserves, lastDisk, ih (serves_write hserves i seed),
        accepted_congr fun _ => hhandles.accepts_iff]
      by_cases haccepts : (writers i).Accepts d dir seed
      · rw [accepted_cons_of_accepts haccepts, withSeeds_cons,
          hhandles.node?_eq (hhandles.isOk_of_accepts haccepts)]
        rfl
      · rw [accepted_cons_of_not_accepts haccepts, hhandles.disk_eq_of_not_accepts haccepts]

/-- Where names tell seeds apart, each lacking seed that can be stored is created exactly once. -/
theorem createdBy_takeTurns (wanted : Strategy → Bool)
    (hnames : NoCollision (calls.map Prod.snd)) :
    (createdBy wanted calls (takeTurns writers d calls) : ℕ∞) =
      (lacking wanted d.node? dir (accepted writers d dir calls)).encard := by
  induction calls generalizing d with
  | nil => simp [createdBy, accepted, lacking]
  | cons call rest ih =>
      obtain ⟨i, seed⟩ := call
      have hhandles := (hserves i).handles seed
      have hrest := ih (serves_write hserves i seed) (hnames.mono (List.subset_cons_self _ _))
      rw [accepted_congr fun _ => hhandles.accepts_iff] at hrest
      rw [takeTurns_cons hserves, createdBy_cons, Nat.cast_add, hrest]
      by_cases haccepts : (writers i).Accepts d dir seed
      · have hcons : accepted writers d dir ((i, seed) :: rest) =
            seed :: accepted writers d dir rest := accepted_cons_of_accepts haccepts
        rw [hcons, encard_lacking_cons (hnames.mono (hcons ▸ accepted_subset)),
          hhandles.node?_eq (hhandles.isOk_of_accepts haccepts)]
        simp only [hhandles.created_iff, haccepts, true_and, Nat.cast_ite, Nat.cast_one,
          Nat.cast_zero]
      · rw [accepted_cons_of_not_accepts haccepts, hhandles.disk_eq_of_not_accepts haccepts]
        simp only [hhandles.created_iff, haccepts, false_and, and_false, if_false, Nat.cast_zero,
          add_zero]

omit hserves in
theorem createdBy_all :
    createdBy (fun _ => true) calls (takeTurns writers d calls) =
      (takeTurns writers d calls).countP fun storing => storing.result = .ok .created := by
  induction calls generalizing writers d with
  | nil => rfl
  | cons call rest ih =>
      rw [takeTurns, createdBy_cons, ih, List.countP_cons]
      simp

end

/-! ## A single writer -/

theorem handOver_eq_takeTurns (w : Writer) (d : Disk) (seeds : List (Strategy × Pair)) :
    w.handOver d seeds = takeTurns (fun _ : Unit => w) d (seeds.map ((), ·)) := by
  induction seeds generalizing w d with
  | nil => rfl
  | cons seed rest ih =>
      have hsingle : Function.update (fun _ : Unit => w) () (w.write d seed.1 seed.2).writer =
          fun _ => (w.write d seed.1 seed.2).writer := by
        funext i
        exact Function.update_self i _ _
      rw [handOver, List.map_cons, takeTurns, hsingle, ih]

section

variable {w : Writer} {d : Disk} {dir : Location} {seeds : List (Strategy × Pair)}
  (hserves : w.Serves d dir)

include hserves

theorem admits_of_isOk_handOver (hok : ∀ storing ∈ w.handOver d seeds, storing.result.isOk)
    {seed : Strategy × Pair} (hmem : seed ∈ seeds) :
    d.Admits w.dir dir (seed.2.name seed.1) := by
  rw [handOver_eq_takeTurns] at hok
  exact admits_of_isOk_takeTurns (fun _ => hserves) hok (List.mem_map_of_mem hmem)

theorem keeps_handOver : d.Keeps (lastDisk d (w.handOver d seeds)) := by
  rw [handOver_eq_takeTurns]
  exact keeps_takeTurns fun _ => hserves

theorem node?_handOver (hok : ∀ storing ∈ w.handOver d seeds, storing.result.isOk) :
    (lastDisk d (w.handOver d seeds)).node? = withSeeds d.node? dir seeds := by
  rw [handOver_eq_takeTurns] at hok ⊢
  rw [node?_takeTurns (fun _ => hserves) hok, List.map_map]
  exact congrArg _ (List.map_id seeds)

end

/-! ## The order of the calls -/

/-- If all calls succeed, each seed is in the directory at the end and nothing else has changed,
the calls that created something are as many as the files that changed, and the same calls in
another order lead to the same files and create as many seeds of each strategy. -/
theorem takeTurns_independent_of_order {writers : ι → Writer} {d : Disk} {dir : Location}
    {calls : List (ι × Strategy × Pair)} (hserves : ∀ i, (writers i).Serves d dir)
    (hnames : NoCollision (calls.map Prod.snd))
    (hok : ∀ storing ∈ takeTurns writers d calls, storing.result.isOk) :
    let storings := takeTurns writers d calls
    let final := lastDisk d storings
    (∀ call ∈ calls, final.node? (seedLocation dir call.2) = some (.file call.2.2.encode)) ∧
      (∀ location, (∀ call ∈ calls, location ≠ seedLocation dir call.2) →
        final.node? location = d.node? location) ∧
      final.workingDirectory = d.workingDirectory ∧
      (storings.countP fun storing => storing.result = .ok .created : ℕ∞) =
        {location | final.node? location ≠ d.node? location}.encard ∧
      ∀ others, others.Perm calls →
        (lastDisk d (takeTurns writers d others)).node? = final.node? ∧
          ∀ strategy, createdBy (· == strategy) others (takeTurns writers d others) =
            createdBy (· == strategy) calls storings := by
  intro storings final
  have hfinal : final.node? = withSeeds d.node? dir (calls.map Prod.snd) :=
    node?_takeTurns hserves hok
  have haccepted : final.node? = withSeeds d.node? dir (accepted writers d dir calls) :=
    node?_takeTurns_accepted hserves
  refine ⟨?_, ?_, ?_, ?_, ?_⟩
  · intro call hcall
    rw [hfinal]
    exact withSeeds_seedLocation hnames (List.mem_map_of_mem hcall)
  · intro location hother
    rw [hfinal]
    apply withSeeds_of_ne
    intro seed hseed
    obtain ⟨call, hcall, rfl⟩ := List.mem_map.mp hseed
    exact hother call hcall
  · exact (keeps_takeTurns hserves).workingDirectory
  · rw [haccepted, changed_eq_lacking (hnames.mono accepted_subset),
      ← createdBy_takeTurns hserves _ hnames, createdBy_all]
  · intro others hperm
    have hnames' := hnames.mono (hperm.map Prod.snd).subset
    have hsame : (accepted writers d dir others).Perm (accepted writers d dir calls) :=
      accepted_perm hperm
    constructor
    · rw [haccepted, node?_takeTurns_accepted hserves,
        withSeeds_eq_of_perm (hnames'.mono accepted_subset) hsame]
    · intro strategy
      apply Nat.cast_injective (R := ℕ∞)
      rw [createdBy_takeTurns hserves _ hnames', createdBy_takeTurns hserves _ hnames,
        lacking_congr fun seed => hsame.mem_iff]

/-- Two writers that know the directory by different paths. -/
def neighbours : Bool → Writer
  | true => ⟨⟨"corpus/"⟩, false, []⟩
  | false => ⟨⟨"./corpus"⟩, false, []⟩

/-- An unfinished seed, brought by both writers, one that is new and one that is there. -/
def neighbourCalls : List (Bool × Strategy × Pair) :=
  [(true, .crossed, ⟨"a", "b"⟩), (false, .mutated, ⟨"c", "d"⟩), (false, .crossed, ⟨"a", "b"⟩),
   (true, .curated, ⟨"c", "d"⟩)]

theorem takeTurns_independent_of_order_of_neighbours :
    (takeTurns neighbours crowdedDisk neighbourCalls).map Storing.result =
        [.ok .created, .ok .created, .ok .alreadyPresent, .ok .alreadyPresent] ∧
      {location | (lastDisk crowdedDisk (takeTurns neighbours crowdedDisk neighbourCalls)).node?
        location ≠ crowdedDisk.node? location}.encard = 2 ∧
      (lastDisk crowdedDisk (takeTurns neighbours crowdedDisk neighbourCalls.reverse)).node? =
        (lastDisk crowdedDisk (takeTurns neighbours crowdedDisk neighbourCalls)).node? := by
  have hserves : ∀ i, (neighbours i).Serves crowdedDisk ["corpus"] := by
    intro i
    cases i <;> exact ⟨rfl, rfl⟩
  have hnames : NoCollision (neighbourCalls.map Prod.snd) := by decide +kernel
  have hresults : (takeTurns neighbours crowdedDisk neighbourCalls).map Storing.result =
      [.ok .created, .ok .created, .ok .alreadyPresent, .ok .alreadyPresent] := by
    decide +kernel
  have hok : ∀ storing ∈ takeTurns neighbours crowdedDisk neighbourCalls, storing.result.isOk := by
    have hall : ∀ result ∈ (takeTurns neighbours crowdedDisk neighbourCalls).map Storing.result,
        result.isOk := by
      rw [hresults]
      decide
    exact fun storing hmem => hall _ (List.mem_map_of_mem hmem)
  obtain ⟨-, -, -, hcount, horder⟩ := takeTurns_independent_of_order hserves hnames hok
  have hcreated : (takeTurns neighbours crowdedDisk neighbourCalls).countP
      (fun storing => storing.result = .ok .created) = 2 := by
    calc
      _ = ((takeTurns neighbours crowdedDisk neighbourCalls).map Storing.result).countP
          (fun result => result = .ok .created) := List.countP_map.symm
      _ = 2 := by
        rw [hresults]
        decide
  refine ⟨hresults, ?_, (horder _ (List.reverse_perm _)).1⟩
  rw [← hcount, hcreated]
  rfl

end Writer

end MarkupSeeds
