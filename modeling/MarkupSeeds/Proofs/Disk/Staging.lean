import MarkupSeeds.Disk.Staging
import MarkupSeeds.Proofs.Disk.Frame

/-!
# What storing in steps comes to

Whether files can be stored in a directory by way of temporary ones does not depend on the files.
If they can, what the steps leave behind is what writing the file at once leaves behind, down to
the last entry; if not, every file fails with the same fault and the disk is as it was.  Up to the
last step the name of the file stands for what it stood for.
-/

namespace MarkupSeeds

/-! ## Names of temporary files -/

namespace Temporary

theorem getD_letters_mem (i : Nat) : letters.getD i '0' ∈ letters := by
  rw [List.getD_eq_getElem?_getD]
  cases hletter : letters[i]? with
  | none => decide
  | some letter => exact List.mem_of_getElem? hletter

theorem toList_name (n : Nat) :
    ∃ drawn, (name n).toList = ".tmp".toList ++ drawn ∧ ∀ c ∈ drawn, c ∈ letters := by
  refine ⟨_, String.toList_append, ?_⟩
  intro c hmem
  rw [String.toList_ofList] at hmem
  obtain ⟨i, -, rfl⟩ := List.mem_map.mp hmem
  exact getD_letters_mem _

theorem not_isStep_name (n : Nat) : ¬ Disk.isStep (name n) := by
  obtain ⟨drawn, hname, hdrawn⟩ := toList_name n
  have hlong : 4 ≤ (name n).toList.length := by
    rw [hname, List.length_append]
    exact Nat.le_add_right _ _
  have hne : ∀ short : String, short.toList.length < 4 → name n ≠ short := by
    rintro short hshort rfl
    exact absurd hlong (Nat.not_le.mpr hshort)
  refine Disk.isName_iff_not_isStep.mp ⟨?_, hne "" (by decide), hne "." (by decide),
    hne ".." (by decide)⟩
  rw [hname, List.mem_append, not_or]
  exact ⟨by decide, fun hslash => absurd (hdrawn _ hslash) (by decide)⟩

/-- A name without a dot is none of a temporary file. -/
theorem ne_name {other : String} (hdot : '.' ∉ other.toList) (n : Nat) : other ≠ name n := by
  rintro rfl
  obtain ⟨drawn, hname, -⟩ := toList_name n
  rw [hname] at hdot
  exact hdot (List.mem_append_left _ (by decide))

end Temporary

namespace Disk

/-! ## What is put and taken away again -/

theorem eq_of_entries_eq {left right : Disk} (hentries : left.entries = right.entries)
    (hworking : left.workingDirectory = right.workingDirectory)
    (hrefusals : left.refusals = right.refusals) : left = right := by
  obtain ⟨_, _, _, _, _⟩ := left
  obtain ⟨_, _, _, _, _⟩ := right
  cases hentries
  cases hworking
  cases hrefusals
  rfl

/-- Nothing lies at or below a location that is free. -/
theorem not_prefix_of_free {d : Disk} {location : Location} (hfree : d.node? location = none)
    {entry : Location × Node} (hentry : entry ∈ d.entries) : ¬ location <+: entry.1 := by
  rintro ⟨names, hbelow⟩
  have hthere : d.node? entry.1 ≠ none := by
    by_cases hroot : entry.1 = []
    · rw [hroot, node?_root]
      exact Option.some_ne_none _
    · exact (something_iff hroot).mpr ⟨entry, hentry, rfl⟩
  rw [← hbelow] at hthere
  exact something_of_append hthere hfree

theorem not_isPrefixOf_of_free {d : Disk} {location : Location} (hfree : d.node? location = none)
    {entry : Location × Node} (hentry : entry ∈ d.entries) :
    (!location.isPrefixOf entry.1) = true := by
  rw [Bool.not_eq_true', Bool.eq_false_iff, ne_eq, List.isPrefixOf_iff_prefix]
  exact not_prefix_of_free hfree hentry

theorem bne_of_free {d : Disk} {location : Location} (hfree : d.node? location = none)
    {entry : Location × Node} (hentry : entry ∈ d.entries) : (entry.1 != location) = true := by
  rw [bne_iff_ne]
  intro heq
  exact not_prefix_of_free hfree hentry (heq ▸ List.prefix_rfl)

namespace Admits

variable {d : Disk} {dir base : Path} {parent : Location} {name temporary : String}
  {content : Bytes}

/-- Of two files under one name the second stays. -/
theorem holding_holding (hadmits : d.Admits dir parent name) (hstep : ¬ isStep name)
    {part : Bytes} (hagain : (hadmits.holding hstep part).Admits dir parent name) :
    hagain.holding hstep content = hadmits.holding hstep content := by
  apply eq_of_entries_eq
  · simp [holding, Disk.set, List.filter_filter]
  · rfl
  · rfl

/-- A file that is taken away from where nothing was leaves the disk as it was. -/
theorem remove_holding (hadmits : d.Admits dir parent name) (hstep : ¬ isStep name)
    (hfree : d.node? (parent ++ [name]) = none) :
    (hadmits.holding hstep content).remove (parent ++ [name]) = d := by
  apply eq_of_entries_eq
  · have hhead : (!(parent ++ [name]).isPrefixOf (parent ++ [name])) = false := by
      simp [List.isPrefixOf_iff_prefix]
    simp only [holding, Disk.set, Disk.remove, List.filter_cons, hhead, Bool.false_eq_true,
      if_false, List.filter_filter, List.filter_eq_self]
    intro entry hentry
    rw [not_isPrefixOf_of_free hfree hentry, bne_of_free hfree hentry]
    rfl
  · rfl
  · rfl

/-- It does not matter to a file that there was another one beside it for a time. -/
theorem remove_holding_beside (hspare : d.Admits base parent temporary)
    (hstep : ¬ isStep temporary) (hfree : d.node? (parent ++ [temporary]) = none)
    (hname : ¬ isStep name) (hne : temporary ≠ name) (hadmits : d.Admits dir parent name)
    (hbeside : (hspare.holding hstep content).Admits dir parent name) :
    (hbeside.holding hname content).remove (parent ++ [temporary]) =
      hadmits.holding hname content := by
  apply eq_of_entries_eq
  · have hkept : (!(parent ++ [temporary]).isPrefixOf (parent ++ [name])) = true := by
      rw [Bool.not_eq_true', Bool.eq_false_iff, ne_eq, List.isPrefixOf_iff_prefix,
        List.prefix_append_right_inj, List.cons_prefix_cons]
      exact fun hprefix => hne hprefix.1
    have hgone : (!(parent ++ [temporary]).isPrefixOf (parent ++ [temporary])) = false := by
      simp [List.isPrefixOf_iff_prefix]
    have hother : (parent ++ [temporary] != parent ++ [name]) = true := by simp [hne]
    simp only [holding, Disk.set, Disk.remove, List.filter_cons, hkept, hgone, hother,
      Bool.false_eq_true, if_false, if_true, List.filter_filter, List.cons.injEq, true_and]
    apply List.filter_congr
    intro entry hentry
    rw [not_isPrefixOf_of_free hfree hentry, bne_of_free hfree hentry, Bool.and_true,
      Bool.true_and]
  · rfl
  · rfl

end Admits

/-! ## The absolute path of a directory -/

theorem segments_below {location : Location} (hnames : ∀ name ∈ location, '/' ∉ name.toList)
    (text : String) :
    (⟨location.foldr (fun name path => name ++ "/" ++ path) "" ++ text⟩ : Path).segments =
      location ++ (⟨text⟩ : Path).segments := by
  induction location with
  | nil => rw [List.foldr_nil, String.empty_append, List.nil_append]
  | cons name location ih =>
      obtain ⟨hname, hrest⟩ := List.forall_mem_cons.mp hnames
      rw [List.foldr_cons, String.append_assoc, Path.segments_slash, Path.segments_of_not_mem hname,
        ih hrest]
      rfl

theorem segments_rooted {location : Location} (hnames : ∀ name ∈ location, '/' ∉ name.toList)
    (text : String) :
    (⟨rooted location ++ text⟩ : Path).segments = "" :: location ++ (⟨text⟩ : Path).segments := by
  have hslash := Path.segments_slash ""
    (location.foldr (fun name path => name ++ "/" ++ path) "" ++ text)
  rw [String.empty_append, segments_below hnames] at hslash
  rw [rooted, String.append_assoc, hslash, Path.segments_of_not_mem (by decide)]
  rfl

theorem getLast?_rooted (location : Location) : (rooted location).toList.getLast? = some '/' := by
  induction location with
  | nil => rfl
  | cons name location ih =>
      have hsplit : rooted (name :: location) = "/" ++ name ++ rooted location := by
        rw [rooted, rooted, List.foldr_cons, String.append_assoc, String.append_assoc]
      rw [hsplit, String.toList_append, List.getLast?_append, ih, Option.some_or]

/-- Names joined to a path that was made absolute have the segments that they had before, behind
those of the working directory. -/
theorem stem_rooted {location : Location} (hnames : ∀ name ∈ location, '/' ∉ name.toList)
    (path : Path) :
    (⟨rooted location ++ path.text⟩ : Path).stem = "" :: location ++ path.stem := by
  have hsegments := segments_rooted hnames path.text
  have hsome : path.segments ≠ [] := by
    rw [Path.segments, ne_eq, List.map_eq_nil_iff]
    exact splitAt_ne_nil _ _
  rw [Path.stem, Path.stem, String.toList_append, List.getLast?_append]
  cases hlast : path.text.toList.getLast? with
  | none =>
      have hempty : path.text = "" := String.toList_injective (List.getLast?_eq_none_iff.mp hlast)
      rw [Option.none_or, getLast?_rooted]
      dsimp only
      rw [hsegments, hempty, Path.segments_of_not_mem (by decide), List.dropLast_concat,
        List.append_nil]
      rfl
  | some c =>
      rw [Option.some_or]
      split
      · cases ‹some c = none›
      · rw [hsegments, List.dropLast_append_of_ne_nil hsome]
      · rw [hsegments]

/-- A path that was made absolute leads where it led before. -/
theorem reaches_of_absolute {d : Disk} {dir base : Path} {parent : Location}
    (habsolute : d.absolute dir = .ok base) (hreaches : d.Reaches base parent) :
    d.Reaches dir parent := by
  rw [absolute] at habsolute
  split at habsolute
  · cases habsolute
    exact hreaches
  · rename_i hrelative
    split at habsolute
    · rename_i hworking
      have hnames := isName_of_node? hworking
      have hbase := (Except.ok.inj habsolute).symm
      have hstart : d.start base = [] := by
        rw [start, hbase, Path.isAbsolute, rooted, String.append_assoc, String.toList_append]
        rfl
      rw [Reaches, hstart, hbase, stem_rooted fun name hmem => (hnames name hmem).1, walk_append]
        at hreaches
      obtain ⟨middle, hhome, hrest⟩ := exists_of_bind_eq_ok hreaches
      have hdots : ".." ∉ "" :: d.workingDirectory := by
        rw [List.mem_cons, not_or]
        exact ⟨by decide, fun hmem => (hnames _ hmem).2.2.2 rfl⟩
      have hmiddle : middle = d.workingDirectory := by
        rw [eq_append_of_walk hdots hhome, List.nil_append, namesOf_cons_of_step (Or.inl rfl),
          namesOf, List.filter_eq_self]
        intro name hmem
        obtain ⟨-, hempty, hdot, -⟩ := hnames name hmem
        simp [hempty, hdot]
      rw [Reaches, start, if_neg hrelative, ← hmiddle]
      exact hrest
    · cases habsolute

/-! ## Making the temporary file -/

theorem exists_of_spare?_eq_some {d : Disk} {base : Path} {n : Nat} {name : String}
    (hspare : d.spare? base n = some name) :
    (∃ k, name = Temporary.name k) ∧ ¬ (d.find (base.join name)).isOk := by
  induction n with
  | zero => cases hspare
  | succ n ih =>
      rw [spare?] at hspare
      split at hspare
      · exact ih hspare
      · rename_i hfree
        cases hspare
        exact ⟨⟨n, rfl⟩, hfree⟩

theorem spare?_congr {d other : Disk} {base : Path}
    (hfind : ∀ k, other.find (base.join (Temporary.name k)) = d.find (base.join (Temporary.name k)))
    (n : Nat) : other.spare? base n = d.spare? base n := by
  induction n with
  | zero => rfl
  | succ n ih => rw [spare?, spare?, hfind, ih]

/-- A temporary file can be made in a directory: under `temporary` at the location `parent`, to
which the absolute path `base` of the directory leads. -/
structure Stages (d : Disk) (dir base : Path) (parent : Location) (temporary : String) : Prop where
  absolute : d.absolute dir = .ok base
  spare : d.spare? base Temporary.tries = some temporary
  reaches : d.Reaches base parent
  admits : d.Admits base parent temporary
  opens : d.refusal? .enter parent = none

namespace Stages

variable {d : Disk} {dir base : Path} {parent : Location} {temporary : String} {content : Bytes}
  (hstages : d.Stages dir base parent temporary)

include hstages

theorem not_isStep : ¬ isStep temporary := by
  obtain ⟨⟨k, rfl⟩, -⟩ := exists_of_spare?_eq_some hstages.spare
  exact Temporary.not_isStep_name k

theorem ne_temporary {name : String} (hdot : '.' ∉ name.toList) : name ≠ temporary := by
  obtain ⟨⟨k, rfl⟩, -⟩ := exists_of_spare?_eq_some hstages.spare
  exact Temporary.ne_name hdot k

theorem node?_eq_none : d.node? (parent ++ [temporary]) = none := by
  refine Classical.byContradiction fun hthere => ?_
  obtain ⟨node, hnode⟩ := Option.ne_none_iff_exists'.mp hthere
  apply (exists_of_spare?_eq_some hstages.spare).2
  rw [(find_join_eq_ok_iff hstages.reaches hstages.not_isStep).mpr
    ⟨hstages.admits.sound, hstages.admits.short, hnode⟩]
  rfl

/-- The disk with the temporary file. -/
def holding (content : Bytes) : Disk := hstages.admits.holding hstages.not_isStep content

theorem puts_holding (content : Bytes) :
    d.Puts (hstages.holding content) (parent ++ [temporary]) content :=
  hstages.admits.puts_holding hstages.not_isStep content

theorem stage_eq : d.stage dir = .ok (base.join temporary, hstages.holding []) := by
  rw [stage, hstages.absolute, ok_bind, hstages.spare]
  dsimp only
  rw [write_join hstages.reaches hstages.not_isStep hstages.admits hstages.opens]
  rfl

/-- The temporary file can be filled, and the disk is then the one on which it was made at once. -/
theorem write_holding :
    (hstages.holding []).write (base.join temporary) content = .ok (hstages.holding content) := by
  have hmade := hstages.puts_holding []
  have hagain := hmade.admits_iff.mpr hstages.admits
  have hopens : (hstages.holding []).refusal? .enter parent = none := by
    rw [refusal?, hmade.refusals]
    exact hstages.opens
  rw [write_join (hmade.keeps.reaches hstages.reaches) hstages.not_isStep hagain hopens]
  exact congrArg Except.ok (hstages.admits.holding_holding hstages.not_isStep hagain)

theorem resolve_holding (content : Bytes) :
    (hstages.holding content).resolve (base.join temporary) = .ok (parent ++ [temporary]) := by
  have hmade := hstages.puts_holding content
  apply resolve_join_of_node? (hmade.keeps.reaches hstages.reaches) hstages.not_isStep
    hstages.admits.sound hstages.admits.short
  rw [hmade.node?, if_pos rfl]

theorem refusalAt?_holding (change : Change) (content : Bytes) :
    (hstages.holding content).refusalAt? change (base.join temporary) =
      d.refusal? change parent := by
  rw [refusalAt?, hstages.resolve_holding]
  dsimp only
  rw [List.dropLast_concat, refusal?, (hstages.puts_holding content).refusals]
  rfl

theorem unlink_holding (content : Bytes) :
    (hstages.holding content).unlink (base.join temporary) = d := by
  rw [unlink, hstages.resolve_holding]
  exact hstages.admits.remove_holding hstages.not_isStep hstages.node?_eq_none

end Stages

/-- A temporary file is made only where it can be. -/
theorem exists_stages_of_stage {d staged : Disk} {dir path : Path}
    (hstage : d.stage dir = .ok (path, staged)) :
    ∃ base parent temporary, ∃ hstages : d.Stages dir base parent temporary,
      path = base.join temporary ∧ staged = hstages.holding [] := by
  have hmade := hstage
  rw [stage] at hstage
  obtain ⟨base, habsolute, hrest⟩ := exists_of_bind_eq_ok hstage
  cases hspare : d.spare? base Temporary.tries with
  | none =>
      rw [hspare] at hrest
      cases hrest
  | some temporary =>
      rw [hspare] at hrest
      obtain ⟨other, hwrite, -⟩ := exists_of_bind_eq_ok hrest
      obtain ⟨⟨k, hname⟩, hfree⟩ := exists_of_spare?_eq_some hspare
      have hstep : ¬ isStep temporary := hname ▸ Temporary.not_isStep_name k
      obtain ⟨parent, hreaches, hsound, hshort, hparent, -, hopens⟩ :=
        exists_of_write_join hstep hwrite
      have hadmits : d.Admits base parent temporary := by
        refine ⟨hsound, hshort, hparent, ?_⟩
        intro node hnode
        rw [(find_join_eq_ok_iff hreaches hstep).mpr ⟨hsound, hshort, hnode⟩] at hfree
        exact absurd rfl hfree
      have hstages : d.Stages dir base parent temporary :=
        ⟨habsolute, hspare, hreaches, hadmits, hopens⟩
      rw [hstages.stage_eq] at hmade
      cases hmade
      exact ⟨base, parent, temporary, hstages, rfl, rfl⟩

/-! ## What stands in the way -/

/-- What keeps files from being stored in a directory, whichever they are. -/
def obstacle? (d : Disk) (dir : Path) : Option Fault :=
  match d.stage dir with
  | .error fault => some fault
  | .ok (temporary, staged) =>
    (staged.refusalAt? .fill temporary).or (staged.refusalAt? .rename temporary)

theorem Stages.obstacle?_eq {d : Disk} {dir base : Path} {parent : Location} {temporary : String}
    (hstages : d.Stages dir base parent temporary) :
    d.obstacle? dir = (d.refusal? .fill parent).or (d.refusal? .rename parent) := by
  rw [obstacle?, hstages.stage_eq]
  dsimp only
  rw [hstages.refusalAt?_holding, hstages.refusalAt?_holding]

theorem obstacle?_eq_none_iff {d : Disk} {dir : Path} :
    d.obstacle? dir = none ↔
      ∃ base parent temporary, d.Stages dir base parent temporary ∧
        d.refusal? .fill parent = none ∧ d.refusal? .rename parent = none := by
  constructor
  · intro hnone
    cases hstage : d.stage dir with
    | error fault =>
        rw [obstacle?, hstage] at hnone
        cases hnone
    | ok made =>
        obtain ⟨base, parent, temporary, hstages, -⟩ := exists_stages_of_stage hstage
        rw [hstages.obstacle?_eq, Option.or_eq_none_iff] at hnone
        exact ⟨base, parent, temporary, hstages, hnone⟩
  · rintro ⟨base, parent, temporary, hstages, hfill, hrename⟩
    rw [hstages.obstacle?_eq, hfill, hrename]
    rfl

/-- Where files can be stored there is a directory. -/
theorem exists_reaches_of_obstacle?_eq_none {d : Disk} {dir : Path}
    (hnone : d.obstacle? dir = none) :
    ∃ parent, d.Reaches dir parent ∧ d.node? parent = some .directory := by
  obtain ⟨base, parent, temporary, hstages, -⟩ := obstacle?_eq_none_iff.mp hnone
  exact ⟨parent, reaches_of_absolute hstages.absolute hstages.reaches, hstages.admits.directory⟩

/-! ## The steps together -/

section

variable {d : Disk} {dir : Path}

/-- Where something stands in the way, no file is stored, and nothing is left of the attempt. -/
theorem store_of_obstacle? {fault : Fault} (hobstacle : d.obstacle? dir = some fault) (path : Path)
    (content : Bytes) : d.store dir path content = (.error fault, d) := by
  cases hstage : d.stage dir with
  | error other =>
      rw [obstacle?, hstage] at hobstacle
      cases hobstacle
      rw [store, hstage]
  | ok made =>
      obtain ⟨base, parent, temporary, hstages, -⟩ := exists_stages_of_stage hstage
      rw [hstages.obstacle?_eq] at hobstacle
      rw [store, hstages.stage_eq]
      dsimp only
      rw [fill, hstages.refusalAt?_holding]
      cases hfill : d.refusal? .fill parent with
      | some other =>
          rw [hfill, Option.some_or] at hobstacle
          cases hobstacle
          dsimp only
          rw [hstages.unlink_holding]
      | none =>
          rw [hfill, Option.none_or] at hobstacle
          dsimp only
          rw [hstages.write_holding]
          dsimp only
          rw [rename, hstages.refusalAt?_holding, hobstacle]
          dsimp only
          rw [hstages.unlink_holding]

/-- Where nothing does, a file is stored as if it were written at once. -/
theorem store_of_admits {parent : Location} {name : String} {content : Bytes}
    (hclear : d.obstacle? dir = none) (hreaches : d.Reaches dir parent)
    (hadmits : d.Admits dir parent name) (hstep : ¬ isStep name) (hdot : '.' ∉ name.toList) :
    d.store dir (dir.join name) content = (.ok (), hadmits.holding hstep content) := by
  obtain ⟨base, other, temporary, hstages, hfill, hrename⟩ := obstacle?_eq_none_iff.mp hclear
  have hsame : other = parent := Except.ok.inj
    ((reaches_of_absolute hstages.absolute hstages.reaches).symm.trans hreaches)
  subst hsame
  have hfilled := hstages.puts_holding content
  have hbeside := hfilled.admits_iff.mpr hadmits
  have hopens : (hstages.holding content).refusal? .enter other = none := by
    rw [refusal?, hfilled.refusals]
    exact hstages.opens
  have hread : (hstages.holding content).read (base.join temporary) = .ok content :=
    hfilled.read_join hstages.reaches hstages.not_isStep hstages.admits
  rw [store, hstages.stage_eq]
  dsimp only
  rw [fill, hstages.refusalAt?_holding, hfill]
  dsimp only
  rw [hstages.write_holding]
  dsimp only
  rw [rename, hstages.refusalAt?_holding, hrename]
  dsimp only
  rw [hstages.resolve_holding, ok_bind, hread, ok_bind,
    write_join (hfilled.keeps.reaches hreaches) hstep hbeside hopens, ok_bind]
  exact congrArg (Prod.mk (Except.ok ())) <|
    hstages.admits.remove_holding_beside hstages.not_isStep hstages.node?_eq_none hstep
      (hstages.ne_temporary hdot).symm hadmits hbeside

/-- While the temporary file is there, whatever it holds, a name without a dot stands for what it
stood for. -/
theorem read_join_of_stage {staged : Disk} {temporary : Path} {name : String}
    (hstage : d.stage dir = .ok (temporary, staged)) (hstep : ¬ isStep name)
    (hdot : '.' ∉ name.toList) :
    staged.read (dir.join name) = d.read (dir.join name) ∧
      ∀ content filled, staged.fill temporary content = .ok filled →
        filled.read (dir.join name) = d.read (dir.join name) := by
  obtain ⟨base, parent, temporary, hstages, rfl, rfl⟩ := exists_stages_of_stage hstage
  have hreaches := reaches_of_absolute hstages.absolute hstages.reaches
  have hread := fun content => (hstages.puts_holding content).read_join_of_ne hreaches hstep
    (hstages.ne_temporary hdot)
  refine ⟨hread [], ?_⟩
  intro content filled hfill
  rw [fill] at hfill
  split at hfill
  · cases hfill
  · rw [hstages.write_holding] at hfill
    cases hfill
    exact hread content

end

/-! ## Storing one file after another -/

namespace Puts

variable {d stored : Disk} {parent : Location} {name : String} {content : Bytes}
  (hputs : d.Puts stored (parent ++ [name]) content) (hdot : '.' ∉ name.toList)

include hputs

theorem absolute_eq (dir : Path) : stored.absolute dir = d.absolute dir := by
  simp only [absolute, hputs.workingDirectory, hputs.directory_iff]

include hdot

/-- A file is in the way of no temporary one. -/
theorem spare?_eq {base : Path} {other : Location} (hbefore : d.Reaches base other)
    (hdirectory : d.node? other = some .directory) (n : Nat) :
    stored.spare? base n = d.spare? base n := by
  refine spare?_congr (fun k => ?_) n
  have hstep := Temporary.not_isStep_name k
  have hparent : stored.node? other = d.node? other := by
    rw [hdirectory]
    exact hputs.directory_iff.mpr hdirectory
  have hentry : stored.node? (other ++ [Temporary.name k]) =
      d.node? (other ++ [Temporary.name k]) := by
    apply hputs.node?_of_ne
    intro hsame
    exact Temporary.ne_name hdot k (List.singleton_inj.mp (List.append_inj' hsame rfl).2).symm
  rw [find_join (hputs.keeps.reaches hbefore) hstep, find_join hbefore hstep,
    entry_congr hparent hentry]

theorem stages_iff {dir base : Path} {other : Location} {temporary : String} :
    stored.Stages dir base other temporary ↔ d.Stages dir base other temporary := by
  constructor
  · rintro ⟨habsolute, hspare, hreaches, hadmits, hopens⟩
    have hbefore := hputs.admits_iff.mp hadmits
    have hway : d.Reaches base other := by
      rw [Reaches, start, ← hputs.workingDirectory]
      refine hputs.walk_of_ne hreaches ?_
      rintro rfl
      exact hputs.free.ne_directory hbefore.directory
    rw [hputs.absolute_eq] at habsolute
    rw [hputs.spare?_eq hdot hway hbefore.directory] at hspare
    rw [refusal?, hputs.refusals] at hopens
    exact ⟨habsolute, hspare, hway, hbefore, hopens⟩
  · rintro ⟨habsolute, hspare, hreaches, hadmits, hopens⟩
    rw [← hputs.absolute_eq] at habsolute
    rw [← hputs.spare?_eq hdot hreaches hadmits.directory] at hspare
    rw [refusal?, ← hputs.refusals] at hopens
    exact ⟨habsolute, hspare, hputs.keeps.reaches hreaches, hputs.admits_iff.mpr hadmits, hopens⟩

/-- What is stored stands in the way of nothing that is stored later. -/
theorem obstacle?_eq_none_iff {dir : Path} :
    stored.obstacle? dir = none ↔ d.obstacle? dir = none := by
  simp only [Disk.obstacle?_eq_none_iff, hputs.stages_iff hdot, refusal?, hputs.refusals]

end Puts

end Disk

end MarkupSeeds
