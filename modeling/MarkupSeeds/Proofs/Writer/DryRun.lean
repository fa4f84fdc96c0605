import MarkupSeeds.Proofs.Writer.HandOver

/-!
# A dry run answers like a real one

While seeds are handed to a real writer and to one that only looks, the paths that the
dry run remembers are those at which the real one has stored something.  There it reads
the seed, while the untouched disk lacks it; at the path of any other seed both read the
same.  Every answer follows from this, as long as the real writer can store anything.  If it
cannot, it fails wherever a seed is not there, which a dry run has no way to tell.
-/

namespace MarkupSeeds.Writer

/-- A dry run on an untouched disk is level with a real one, as far as `seeds` go. -/
structure Mirrors (seeds : List (Strategy × Pair)) (dry : Writer) (untouched : Disk)
    (real : Writer) (d : Disk) : Prop where
  dir : dry.dir = real.dir
  looks : dry.dryRun = true
  stores : real.dryRun = false
  planned : ∀ seed ∈ seeds, real.seedPath seed ∈ dry.planned →
    d.read (real.seedPath seed) = .ok seed.2.encode ∧
      untouched.Lacks (real.seedPath seed) seed.2.encode
  unplanned : ∀ seed ∈ seeds, real.seedPath seed ∉ dry.planned →
    d.read (real.seedPath seed) = untouched.read (real.seedPath seed)

namespace Mirrors

variable {seeds : List (Strategy × Pair)} {dry real : Writer} {untouched d : Disk}

theorem seedPath_eq (hmirrors : Mirrors seeds dry untouched real d) (seed : Strategy × Pair) :
    dry.seedPath seed = real.seedPath seed := by
  rw [seedPath, seedPath, pathOf, pathOf, hmirrors.dir]

/-- Both answer a seed alike, the disk of the dry run is left alone, and the two are level
afterwards. -/
structure Agrees (seeds : List (Strategy × Pair)) (untouched : Disk) (dry real : Storing) :
    Prop where
  result : dry.result = real.result
  disk : dry.disk = untouched
  mirrors : Mirrors seeds dry.writer untouched real.writer real.disk

/-- Where both storings leave everything as it was, they agree if their answers do. -/
theorem agrees_of_idle (hmirrors : Mirrors seeds dry untouched real d)
    (result : Except SeedError Outcome) (left right : List Notice) :
    Agrees seeds untouched ⟨result, dry, untouched, left⟩ ⟨result, real, d, right⟩ :=
  ⟨rfl, rfl, hmirrors⟩

theorem write_planned (hmirrors : Mirrors seeds dry untouched real d) {seed : Strategy × Pair}
    (hmem : seed ∈ seeds) (hplanned : real.seedPath seed ∈ dry.planned) :
    Agrees seeds untouched (dry.write untouched seed.1 seed.2) (real.write d seed.1 seed.2) := by
  obtain ⟨hstored, hlacks⟩ := hmirrors.planned seed hmem hplanned
  rw [← hmirrors.seedPath_eq] at hplanned hlacks
  obtain ⟨left, hdry⟩ := write_of_lacks hlacks
  obtain ⟨right, hreal⟩ := write_of_present hstored
  rw [hdry, hreal, store, if_pos hmirrors.looks, if_pos hplanned]
  exact hmirrors.agrees_of_idle _ left right

theorem stored (hmirrors : Mirrors seeds dry untouched real d) (hnames : NoCollision seeds)
    {seed : Strategy × Pair} (hmem : seed ∈ seeds)
    (hlacks : untouched.Lacks (real.seedPath seed) seed.2.encode) {stored : Disk}
    {parent : Location} (hreaches : d.Reaches real.dir parent)
    (hadmits : d.Admits real.dir parent (seed.2.name seed.1))
    (hputs : d.Puts stored (parent ++ [seed.2.name seed.1]) seed.2.encode) :
    Mirrors seeds { dry with planned := real.seedPath seed :: dry.planned } untouched real
      stored := by
  have hother : ∀ other : Strategy × Pair, real.seedPath other ≠ real.seedPath seed →
      stored.read (real.seedPath other) = d.read (real.seedPath other) := by
    intro other hne
    refine hputs.read_join_of_ne hreaches (not_isStep_seedName _ _) ?_
    intro hname
    exact hne (congrArg real.dir.join hname)
  refine ⟨hmirrors.dir, hmirrors.looks, hmirrors.stores, ?_, ?_⟩
  · intro other hother_mem hplanned
    by_cases hpath : real.seedPath other = real.seedPath seed
    · have hsame := hnames other hother_mem seed hmem (real.dir.join_injective hpath)
      rw [hpath, hsame]
      exact ⟨hputs.read_join hreaches (not_isStep_seedName _ _) hadmits, hlacks⟩
    · rw [hother other hpath]
      exact hmirrors.planned other hother_mem ((List.mem_cons.mp hplanned).resolve_left hpath)
  · intro other hother_mem hunplanned
    obtain ⟨hpath, hbefore⟩ := not_or.mp (fun hor => hunplanned (List.mem_cons.mpr hor))
    rw [hother other hpath]
    exact hmirrors.unplanned other hother_mem hbefore

theorem write_unplanned (hmirrors : Mirrors seeds dry untouched real d)
    (hnames : NoCollision seeds) {seed : Strategy × Pair}
    (hmem : seed ∈ seeds) (hunplanned : real.seedPath seed ∉ dry.planned)
    (hclear : d.Lacks (real.seedPath seed) seed.2.encode → d.obstacle? real.dir = none) :
    Agrees seeds untouched (dry.write untouched seed.1 seed.2) (real.write d seed.1 seed.2) := by
  have hread := hmirrors.unplanned seed hmem hunplanned
  have hpath := hmirrors.seedPath_eq seed
  rcases untouched.read_cases (real.seedPath seed) seed.2.encode with
    hpresent | hlacks | ⟨fault, hfault, hfails⟩
  · obtain ⟨left, hdry⟩ := write_of_present (hpath ▸ hpresent)
    obtain ⟨right, hreal⟩ := write_of_present (hread.trans hpresent)
    rw [hdry, hreal]
    exact hmirrors.agrees_of_idle _ left right
  · have hwanted : d.Lacks (real.seedPath seed) seed.2.encode := by
      rw [Disk.Lacks, hread]
      exact hlacks
    obtain ⟨left, hdry⟩ := write_of_lacks (hpath ▸ hlacks)
    obtain ⟨parent, stored, right, hreal, hreaches, hadmits, hputs⟩ :=
      write_of_clear hmirrors.stores (hclear hwanted) hwanted
    rw [hdry, hreal, store, if_pos hmirrors.looks, hpath, if_neg hunplanned]
    exact ⟨rfl, rfl, hmirrors.stored hnames hmem hlacks hreaches hadmits hputs⟩
  · rw [write_of_fault hfault (hpath ▸ hfails), write_of_fault hfault (hread.trans hfails), hpath]
    exact hmirrors.agrees_of_idle _ [] []

/-- The next seed is answered alike, unless it is not there and cannot be stored. -/
theorem write (hmirrors : Mirrors seeds dry untouched real d) (hnames : NoCollision seeds)
    {seed : Strategy × Pair} (hmem : seed ∈ seeds)
    (hclear : d.Lacks (real.seedPath seed) seed.2.encode → d.obstacle? real.dir = none) :
    Agrees seeds untouched (dry.write untouched seed.1 seed.2) (real.write d seed.1 seed.2) := by
  by_cases hplanned : real.seedPath seed ∈ dry.planned
  · exact hmirrors.write_planned hmem hplanned
  · exact hmirrors.write_unplanned hnames hmem hplanned hclear

/-- All seeds are answered alike if nothing stands in the way of storing them, or else if none of
them fails. -/
theorem handOver (hmirrors : Mirrors seeds dry untouched real d) (hnames : NoCollision seeds)
    {rest : List (Strategy × Pair)} (hrest : rest ⊆ seeds)
    (hgoes : d.obstacle? real.dir = none ∨
      ∀ storing ∈ real.handOver d rest, storing.result.isOk) :
    (dry.handOver untouched rest).map Storing.result =
      (real.handOver d rest).map Storing.result := by
  induction rest generalizing dry real d with
  | nil => rfl
  | cons seed rest ih =>
      rw [Writer.handOver, List.forall_mem_cons] at hgoes
      have hanswers := real.write_answers d seed
      have hclear : d.Lacks (real.seedPath seed) seed.2.encode → d.obstacle? real.dir = none := by
        intro hlacks
        exact hgoes.elim id fun hok => hanswers.obstacle?_of_isOk hmirrors.stores hlacks hok.1
      have hagrees := hmirrors.write hnames (hrest List.mem_cons_self) hclear
      have hlater : (real.write d seed.1 seed.2).disk.obstacle?
            (real.write d seed.1 seed.2).writer.dir = none ∨
          ∀ storing ∈ (real.write d seed.1 seed.2).writer.handOver
            (real.write d seed.1 seed.2).disk rest, storing.result.isOk := by
        refine hgoes.imp ?_ And.right
        intro hclear
        rw [hanswers.writer_eq]
        exact hanswers.obstacle?_eq_none_iff.mpr hclear
      have hresults := ih hagrees.mirrors
        (fun other hmem => hrest (List.mem_cons_of_mem seed hmem)) hlater
      rw [Writer.handOver, Writer.handOver, hagrees.disk, List.map_cons, List.map_cons,
        hagrees.result, hresults]

end Mirrors

/-- Making its directory has changed nothing about what a writer reads. -/
theorem read_of_create {d made : Disk} {dir : Path} {w : Writer}
    (hdots : ".." ∉ dir.segments) (hcreate : create d dir = (.ok w, made))
    (seed : Strategy × Pair) : made.read (w.seedPath seed) = d.read (w.seedPath seed) := by
  obtain ⟨rfl, hmade⟩ := create_eq_ok_iff.mp hcreate
  have hfind := Disk.find_join_makeDirectories hdots (congrArg Prod.fst hmade)
    (not_isStep_seedName seed.1 seed.2.encode) (seedName_short seed.1 seed.2.encode)
  rw [hmade] at hfind
  exact Disk.read_congr hfind

/-- A dry run starts out level with the writer of a directory that was made. -/
theorem mirrors_of_create {d made : Disk} {dir : Path} {w : Writer}
    (hdots : ".." ∉ dir.segments) (hcreate : create d dir = (.ok w, made))
    (seeds : List (Strategy × Pair)) : Mirrors seeds (ofDryRun dir) d w made := by
  obtain ⟨rfl, -⟩ := create_eq_ok_iff.mp hcreate
  refine ⟨rfl, rfl, rfl, ?_, ?_⟩
  · intro seed _ hplanned
    exact absurd hplanned List.not_mem_nil
  · intro seed _ _
    exact read_of_create hdots hcreate seed

/-! ## Writers without effect -/

section

variable {w other : Writer} {d d' : Disk} {seed : Strategy × Pair}

/-- A seed that is there, or cannot be read, is answered alike by all writers. -/
theorem result_write_congr (hdir : other.dir = w.dir)
    (hread : d'.read (w.seedPath seed) = d.read (w.seedPath seed))
    (hthere : ¬ d.Lacks (w.seedPath seed) seed.2.encode) :
    (other.write d' seed.1 seed.2).result = (w.write d seed.1 seed.2).result := by
  have hpath : other.seedPath seed = w.seedPath seed := by
    rw [seedPath, seedPath, pathOf, pathOf, hdir]
  rcases d.read_cases (w.seedPath seed) seed.2.encode with
    hpresent | hlacks | ⟨fault, hfault, hfails⟩
  · obtain ⟨left, hwrite⟩ := write_of_present hpresent
    obtain ⟨right, hother⟩ := write_of_present (hpath ▸ hread.trans hpresent)
    rw [hwrite, hother]
  · exact absurd hlacks hthere
  · rw [write_of_fault hfault hfails, write_of_fault hfault (hpath ▸ hread.trans hfails), hpath]

/-- A writer that only looks counts what is not there. -/
theorem exists_result_of_lacks (hlooks : w.dryRun = true)
    (hlacks : d.Lacks (w.seedPath seed) seed.2.encode) :
    ∃ outcome, (w.write d seed.1 seed.2).result = .ok outcome := by
  obtain ⟨notices, hwrite⟩ := write_of_lacks hlacks
  rw [hwrite, store, if_pos hlooks]
  split
  · exact ⟨.alreadyPresent, rfl⟩
  · exact ⟨.created, rfl⟩

variable {seeds : List (Strategy × Pair)} {i : Nat} (hseed : seeds[i]? = some seed)

include hseed

theorem exists_getElem?_result_of_dryRun (hlooks : w.dryRun = true)
    (hlacks : d.Lacks (w.seedPath seed) seed.2.encode) :
    ∃ outcome, ((w.handOver d seeds).map Storing.result)[i]? = some (.ok outcome) := by
  obtain ⟨planned, hanswer⟩ := getElem?_handOver_of_idle (Or.inl hlooks) seeds i
  obtain ⟨outcome, hresult⟩ :=
    exists_result_of_lacks (w := { w with planned := planned }) hlooks hlacks
  refine ⟨outcome, ?_⟩
  rw [List.getElem?_map, hanswer, hseed, Option.map_some, Option.map_some, hresult]

/-- Where something stands in the way, a writer fails at every seed that is not there, as none is
ever stored. -/
theorem getElem?_result_of_obstacle (hstores : w.dryRun = false) {fault : Fault}
    (hobstacle : d.obstacle? w.dir = some fault)
    (hlacks : d.Lacks (w.seedPath seed) seed.2.encode) :
    ((w.handOver d seeds).map Storing.result)[i]? =
      some (.error (.seedWrite (w.seedPath seed) fault.reason)) := by
  have hidle : d.obstacle? w.dir ≠ none := by
    rw [hobstacle]
    exact Option.some_ne_none fault
  obtain ⟨planned, hanswer⟩ := getElem?_handOver_of_idle (Or.inr hidle) seeds i
  obtain ⟨notices, hwrite⟩ :=
    write_of_obstacle (w := { w with planned := planned }) hstores hobstacle hlacks
  rw [List.getElem?_map, hanswer, hseed, Option.map_some, Option.map_some, hwrite]
  rfl

theorem getElem?_result_congr (hidle : w.dryRun = true ∨ d.obstacle? w.dir ≠ none)
    (hidle' : other.dryRun = true ∨ d'.obstacle? other.dir ≠ none) (hdir : other.dir = w.dir)
    (hread : d'.read (w.seedPath seed) = d.read (w.seedPath seed))
    (hthere : ¬ d.Lacks (w.seedPath seed) seed.2.encode) :
    ((w.handOver d seeds).map Storing.result)[i]? =
      ((other.handOver d' seeds).map Storing.result)[i]? := by
  obtain ⟨planned, hanswer⟩ := getElem?_handOver_of_idle hidle seeds i
  obtain ⟨planned', hanswer'⟩ := getElem?_handOver_of_idle hidle' seeds i
  have hresult : (({ other with planned := planned' } : Writer).write d' seed.1 seed.2).result =
      (({ w with planned := planned } : Writer).write d seed.1 seed.2).result :=
    result_write_congr hdir hread hthere
  simp only [List.getElem?_map, hanswer, hanswer', hseed, Option.map_some, hresult]

end

theorem disk_handOver_of_dryRun {w : Writer} {d : Disk} (hlooks : w.dryRun = true)
    {seeds : List (Strategy × Pair)} {storing : Storing} (hmem : storing ∈ w.handOver d seeds) :
    storing.disk = d := by
  obtain ⟨i, hi⟩ := List.mem_iff_getElem?.mp hmem
  obtain ⟨planned, hanswer⟩ := getElem?_handOver_of_idle (Or.inl hlooks) seeds i
  rw [hanswer] at hi
  obtain ⟨seed, -, rfl⟩ := Option.map_eq_some_iff.mp hi
  exact (write_of_dryRun (w := { w with planned := planned }) hlooks d seed).1

/-- A corpus in which a directory, an unfinished file and a good one bear names of seeds. -/
def crowdedDisk : Disk where
  entries :=
    [(["corpus"], .directory),
     (["corpus", "fixture_mod_2b962856b5d3a293cc64cbfaf1e1580c7cefeba7"], .directory),
     (["corpus", "fixture_pair_2b962856b5d3a293cc64cbfaf1e1580c7cefeba7"], .file (some [97, 255])),
     (["corpus", "fixture_hand_eff0ea865da3633d279560ff411c84e38b5a4d1a"],
       .file (some [99, 255, 100]))]
  closed := by decide
  named := by decide
  workingDirectory := []

/-- The names that are taken, one of them twice, and one that is free. -/
def crowdingSeeds : List (Strategy × Pair) :=
  [(.mutated, ⟨"a", "b"⟩), (.crossed, ⟨"a", "b"⟩), (.crossed, ⟨"a", "b"⟩), (.curated, ⟨"c", "d"⟩),
   (.mutated, ⟨"c", "d"⟩)]

-- From a working directory that was removed there is no absolute path for a temporary file.
example :
    let d : Disk := { Disk.empty with workingDirectory := ["gone"] }
    let seeds : List (Strategy × Pair) := [(.curated, ⟨"<p>a</p>", "<p>b</p>"⟩)]
    ((ofDryRun ⟨""⟩).handOver d seeds).map Storing.result = [.ok .created] ∧
      ((⟨⟨""⟩, false, []⟩ : Writer).handOver d seeds).map Storing.result =
        [.error (.seedWrite ⟨"fixture_hand_67faea3a0e6c10590e9f5a9539e6515b63100642"⟩
          "No such file or directory (os error 2)")] := by
  decide +kernel

end MarkupSeeds.Writer
