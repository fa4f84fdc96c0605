import MarkupSeeds.Proofs.Disk.Walk

/-!
# Making directories

Whatever becomes of it, making a directory only adds directories that were missing, where
leading parts of its path lead; without `..` these lie on the way from the start of the path
to the end.  If it succeeds, the path leads to a directory, and making it again changes
nothing.
-/

namespace MarkupSeeds.Disk

/-- Directories were added where leading parts of the segments lead, and nothing was
changed. -/
structure Paves (d made : Disk) (base : Location) (segments : List String) : Prop where
  workingDirectory : made.workingDirectory = d.workingDirectory
  node? : ∀ location, made.node? location = d.node? location ∨
    d.node? location = none ∧ made.node? location = some .directory ∧ location ≠ base ∧
      ∃ part, part <+: segments ∧ made.walk base part = .ok location

/-- Directories were added on the way from `base` along `names`, and nothing was changed. -/
structure Grows (d made : Disk) (base : Location) (names : List String) : Prop where
  workingDirectory : made.workingDirectory = d.workingDirectory
  node? : ∀ location, made.node? location = d.node? location ∨
    d.node? location = none ∧ made.node? location = some .directory ∧
      ∃ added, added ≠ [] ∧ added <+: names ∧ location = base ++ added

/-- What was there stays, if only what was missing is added. -/
theorem eq_some_of_kept {before after : Option Node} {added : Prop} {node : Node}
    (hkept : after = before ∨ before = none ∧ added) (hbefore : before = some node) :
    after = some node := by
  rcases hkept with hsame | ⟨hnone, -⟩
  · exact hsame.trans hbefore
  · rw [hnone] at hbefore
    cases hbefore

theorem Grows.toExtends {d made : Disk} {base : Location} {names : List String}
    (hgrows : d.Grows made base names) : d.Extends made :=
  ⟨hgrows.workingDirectory, fun hnode => eq_some_of_kept (hgrows.node? _) hnode⟩

namespace Paves

variable {d made larger : Disk} {base : Location} {segments : List String}

theorem refl (d : Disk) (base : Location) (segments : List String) : d.Paves d base segments :=
  ⟨rfl, fun _ => Or.inl rfl⟩

theorem toExtends (hpaves : d.Paves made base segments) : d.Extends made :=
  ⟨hpaves.workingDirectory, fun hnode => eq_some_of_kept (hpaves.node? _) hnode⟩

/-- No file was added or changed. -/
theorem file_iff (hpaves : d.Paves made base segments) {location : Location}
    {content : Option Bytes} :
    made.node? location = some (.file content) ↔ d.node? location = some (.file content) := by
  rcases hpaves.node? location with hsame | ⟨hnone, hdirectory, -⟩
  · rw [hsame]
  · simp [hnone, hdirectory]

theorem trans (hfirst : d.Paves made base segments) (hsecond : made.Paves larger base segments) :
    d.Paves larger base segments where
  workingDirectory := hsecond.workingDirectory.trans hfirst.workingDirectory
  node? location := by
    rcases hsecond.node? location with hsame | ⟨hnone, hadded⟩
    · rw [hsame]
      rcases hfirst.node? location with hbefore | ⟨hfree, hthere, hbase, part, hlead, hwalk⟩
      · exact Or.inl hbefore
      · exact Or.inr ⟨hfree, hthere, hbase, part, hlead, hsecond.toExtends.keeps.walk hwalk⟩
    · rcases hfirst.node? location with hbefore | ⟨-, hthere, -⟩
      · exact Or.inr ⟨hbefore ▸ hnone, hadded⟩
      · rw [hnone] at hthere
        cases hthere

theorem mono (hpaves : d.Paves made base segments) {more : List String}
    (hmore : segments <+: more) : d.Paves made base more where
  workingDirectory := hpaves.workingDirectory
  node? location := by
    rcases hpaves.node? location with hsame | ⟨hnone, hdir, hbase, part, hlead, hwalk⟩
    · exact Or.inl hsame
    · exact Or.inr ⟨hnone, hdir, hbase, part, hlead.trans hmore, hwalk⟩

/-- Without `..` leading parts lead to locations on the way. -/
theorem grows (hpaves : d.Paves made base segments) (hdots : ".." ∉ segments) :
    d.Grows made base (namesOf segments) where
  workingDirectory := hpaves.workingDirectory
  node? location := by
    rcases hpaves.node? location with hsame | ⟨hnone, hdir, hbase, part, hlead, hwalk⟩
    · exact Or.inl hsame
    · have hlocation := eq_append_of_walk (fun hdot => hdots (hlead.subset hdot)) hwalk
      refine Or.inr ⟨hnone, hdir, namesOf part, ?_, hlead.filter _, hlocation⟩
      intro hnil
      rw [hnil, List.append_nil] at hlocation
      exact hbase hlocation

end Paves

/-! ## A single directory -/

/-- A directory was added at the end of the segments, which may be followed by empty ones. -/
inductive Makes (d made : Disk) (base : Location) : List String → Prop
  | intro {front name blanks parent} (hstep : ¬ isStep name) (hblanks : ∀ b ∈ blanks, b = "")
      (hwalk : d.walk base front = .ok parent) (hparent : d.node? parent = some .directory)
      (hshort : ¬ Path.nameLimit < name.utf8ByteSize)
      (hfree : d.node? (parent ++ [name]) = none)
      (hworking : made.workingDirectory = d.workingDirectory)
      (hnode : ∀ other, made.node? other =
        if other = parent ++ [name] then some .directory else d.node? other) :
      Makes d made base (front ++ name :: blanks)

theorem dropEmptyEnd_append (segments : List String) :
    ∃ blanks, segments = dropEmptyEnd segments ++ blanks ∧ ∀ b ∈ blanks, b = "" := by
  refine ⟨(segments.reverse.takeWhile (· == "")).reverse, ?_, ?_⟩
  · rw [dropEmptyEnd, ← List.reverse_append, List.takeWhile_append_dropWhile,
      List.reverse_reverse]
  · intro b hmem
    exact eq_of_beq (List.all_eq_true.mp List.all_takeWhile b (List.mem_reverse.mp hmem))

/-- What names no step is the last segment up to empty ones. -/
theorem exists_blanks_of_not_isStep {segments : List String}
    (hstep : ¬ isStep ((dropEmptyEnd segments).getLast?.getD "")) :
    ∃ blanks, segments = (dropEmptyEnd segments).dropLast ++
      (dropEmptyEnd segments).getLast?.getD "" :: blanks ∧ ∀ b ∈ blanks, b = "" := by
  obtain ⟨blanks, hsegments, hblanks⟩ := dropEmptyEnd_append segments
  refine ⟨blanks, ?_, hblanks⟩
  have hlast : dropEmptyEnd segments ≠ [] := by
    intro hnil
    rw [hnil] at hstep
    exact hstep rfl
  have hname :
      (dropEmptyEnd segments).getLast?.getD "" = (dropEmptyEnd segments).getLast hlast := by
    rw [List.getLast?_eq_some_getLast hlast, Option.getD_some]
  rw [hname, List.append_cons, List.dropLast_concat_getLast hlast]
  exact hsegments

theorem parent_eq_ok {d : Disk} {base : Location} {segments : List String} {name : String}
    {parent : { parent : Location // d.node? parent = some .directory }}
    (hparent : d.parent base segments name = .ok parent) :
    d.walk base segments = .ok parent.1 ∧ ¬ Path.nameLimit < name.utf8ByteSize := by
  rw [Disk.parent] at hparent
  obtain ⟨found, hwalk, hfound⟩ := exists_of_bind_eq_ok hparent
  split at hfound
  · split at hfound
    · cases hfound
    · rename_i hshort
      cases hfound
      exact ⟨hwalk, hshort⟩
  · cases hfound

theorem makes_of_makeDirectory {d made : Disk} {base : Location} {segments : List String}
    (hmade : d.makeDirectory base segments = .ok made) : d.Makes made base segments := by
  rw [makeDirectory] at hmade
  split at hmade
  · obtain ⟨found, -, hthrow⟩ := exists_of_bind_eq_ok hmade
    cases hthrow
  · rename_i hstep
    obtain ⟨⟨parent, hdir⟩, hparent, hset⟩ := exists_of_bind_eq_ok hmade
    obtain ⟨hwalk, hshort⟩ := parent_eq_ok hparent
    dsimp only at hset
    split at hset
    · cases hset
    · rename_i hfree
      split at hset
      · cases hset
      · have hmade := (Except.ok.inj hset).symm
        have hworking : made.workingDirectory = d.workingDirectory := by
          rw [hmade]
          rfl
        have hnode : ∀ other, made.node? other =
            if other = parent ++ [(dropEmptyEnd segments).getLast?.getD ""] then some .directory
            else d.node? other := by
          rw [hmade]
          exact node?_set d _ _ _ _ _
        obtain ⟨blanks, hsegments, hblanks⟩ := exists_blanks_of_not_isStep hstep
        have hmakes := Makes.intro hstep hblanks hwalk hdir hshort hfree hworking hnode
        rw [← hsegments] at hmakes
        exact hmakes

theorem walk_blanks {d : Disk} {location : Location} (hdir : d.node? location = some .directory)
    {blanks : List String} (hblanks : ∀ b ∈ blanks, b = "") :
    d.walk location blanks = .ok location := by
  induction blanks with
  | nil => rfl
  | cons blank blanks ih =>
      rw [walk, if_pos hdir, if_pos (Or.inl (hblanks blank List.mem_cons_self))]
      exact ih fun b hmem => hblanks b (List.mem_cons_of_mem _ hmem)

theorem isDirectory_iff {d : Disk} {base : Location} {segments : List String} :
    d.isDirectory base segments ↔
      ∃ found, d.walk base segments = .ok found ∧ d.node? found = some .directory := by
  rw [isDirectory]
  split
  · rename_i found hwalk
    simp [hwalk]
  · rename_i fault hwalk
    simp [hwalk]

theorem Keeps.isDirectory {d other : Disk} (hkeeps : d.Keeps other) {base : Location}
    {segments : List String} (hdir : d.isDirectory base segments) :
    other.isDirectory base segments := by
  obtain ⟨found, hwalk, hnode⟩ := isDirectory_iff.mp hdir
  exact isDirectory_iff.mpr ⟨found, hkeeps.walk hwalk, hkeeps.directory hnode⟩

namespace Makes

variable {d made : Disk} {base : Location} {segments : List String}

theorem toExtends (hmakes : d.Makes made base segments) : d.Extends made := by
  obtain ⟨-, -, -, -, -, hfree, hworking, hnode⟩ := hmakes
  refine ⟨hworking, ?_⟩
  intro location node hthere
  rw [hnode, if_neg, hthere]
  rintro rfl
  rw [hfree] at hthere
  cases hthere

/-- A directory that was made is where its segments lead, without those behind its name. -/
theorem exists_walk (hmakes : d.Makes made base segments) :
    ∃ part blanks location, segments = part ++ blanks ∧ (∀ b ∈ blanks, b = "") ∧
      location ≠ base ∧ made.walk base part = .ok location ∧ d.node? location = none ∧
        ∀ other, made.node? other =
          if other = location then some .directory else d.node? other := by
  have hextends := hmakes.toExtends
  cases hmakes with
  | @intro front name blanks parent hstep hblanks hwalk hparent hshort hfree hworking hnode =>
      have hthere : made.node? (parent ++ [name]) = some .directory := by
        rw [hnode, if_pos rfl]
      refine ⟨front ++ [name], blanks, parent ++ [name], List.append_cons _ _ _, hblanks, ?_, ?_,
        hfree, hnode⟩
      · rintro rfl
        exact something_of_walk hwalk (by rw [hparent]; exact Option.some_ne_none _) hfree
      · rw [walk_append, hextends.keeps.walk hwalk, ok_bind,
          walk_name hstep (hextends.node? hparent), if_neg hshort, if_neg (by simp [hthere]), walk]

theorem isDirectory (hmakes : d.Makes made base segments) : made.isDirectory base segments := by
  obtain ⟨part, blanks, location, rfl, hblanks, -, hwalk, -, hnode⟩ := hmakes.exists_walk
  have hthere : made.node? location = some .directory := by rw [hnode, if_pos rfl]
  refine isDirectory_iff.mpr ⟨location, ?_, hthere⟩
  rw [walk_append, hwalk, ok_bind]
  exact walk_blanks hthere hblanks

theorem paves (hmakes : d.Makes made base segments) : d.Paves made base segments where
  workingDirectory := hmakes.toExtends.workingDirectory
  node? other := by
    obtain ⟨part, blanks, location, rfl, -, hbase, hwalk, hfree, hnode⟩ := hmakes.exists_walk
    by_cases hother : other = location
    · subst hother
      exact Or.inr ⟨hfree, by rw [hnode, if_pos rfl], hbase, part, List.prefix_append _ _, hwalk⟩
    · left
      rw [hnode, if_neg hother]

end Makes

/-! ## All the directories of a path -/

theorem makeEach_paves {d : Disk} {base : Location} {segments : List String}
    {parts : List (List String)} (hparts : ∀ part ∈ parts, part <+: segments) :
    d.Paves (d.makeEach base parts).2 base segments := by
  induction parts generalizing d with
  | nil => exact Paves.refl d base segments
  | cons part parts ih =>
      have hlead := hparts part List.mem_cons_self
      have hrest := fun d => @ih d fun other hmem => hparts other (List.mem_cons_of_mem _ hmem)
      rw [makeEach]
      split
      · rename_i made hmade
        exact ((makes_of_makeDirectory hmade).paves.mono hlead).trans (hrest made)
      · split
        · exact hrest d
        · exact Paves.refl d base segments

theorem isDirectory_of_makeEach {d : Disk} {base : Location} {segments : List String}
    {parts : List (List String)} (hparts : ∀ part ∈ parts, part <+: segments)
    (hmade : (d.makeEach base parts).1 = .ok ()) {part : List String} (hmem : part ∈ parts) :
    (d.makeEach base parts).2.isDirectory base part := by
  induction parts generalizing d with
  | nil => cases hmem
  | cons first parts ih =>
      have hlater := fun other hmem => hparts other (List.mem_cons_of_mem first hmem)
      -- What is a directory after the first part stays one.
      have hstays : ∀ {d : Disk}, d.isDirectory base first → (d.makeEach base parts).1 = .ok () →
          (d.makeEach base parts).2.isDirectory base part := by
        intro d hfirst hrest
        rcases List.mem_cons.mp hmem with rfl | hmem
        · exact (makeEach_paves hlater).toExtends.keeps.isDirectory hfirst
        · exact ih hlater hrest hmem
      rw [makeEach] at hmade ⊢
      split at hmade
      · rename_i made hdirectory
        exact hstays (makes_of_makeDirectory hdirectory).isDirectory hmade
      · split at hmade
        · rename_i hthere
          rw [if_pos hthere]
          exact hstays hthere hmade
        · cases hmade

theorem prefix_of_mem_leadingParts {segments part : List String}
    (hmem : part ∈ leadingParts segments) : part <+: segments := by
  rw [leadingParts] at hmem
  rcases List.mem_append.mp hmem with hlead | hwhole
  · have hpart := (List.mem_filter.mp (List.dropLast_subset _ hlead)).1
    obtain ⟨i, -, rfl⟩ := List.mem_map.mp hpart
    exact List.take_prefix (i + 1) segments
  · cases List.mem_singleton.mp hwhole
    exact List.prefix_rfl

section

variable {d : Disk} {path : Path}

theorem makeDirectories_paves (d : Disk) (path : Path) :
    d.Paves (d.makeDirectories path).2 (d.start path) path.segments := by
  rw [makeDirectories]
  split
  · exact Paves.refl ..
  · split
    · exact Paves.refl ..
    · dsimp only
      split
      · rename_i made hmade
        exact (makes_of_makeDirectory hmade).paves
      · exact makeEach_paves fun part hmem => prefix_of_mem_leadingParts hmem
      · split
        · exact Paves.refl ..
        · exact Paves.refl ..

/-- The path of directories that were made leads to a directory. -/
theorem isDirectory_of_makeDirectories (hne : path.text ≠ "")
    (hmade : (d.makeDirectories path).1 = .ok ()) :
    (d.makeDirectories path).2.isDirectory (d.start path) path.segments := by
  rw [makeDirectories, if_neg hne] at hmade ⊢
  split at hmade
  · cases hmade
  · dsimp only at hmade ⊢
    split at hmade
    · rename_i made hdirectory
      exact (makes_of_makeDirectory hdirectory).isDirectory
    · refine isDirectory_of_makeEach (fun part hmem => prefix_of_mem_leadingParts hmem) hmade ?_
      exact List.mem_append_right _ (List.mem_singleton_self _)
    · split at hmade
      · rename_i hthere
        rw [if_pos hthere]
        exact hthere
      · cases hmade

/-- A name on a walk is that of an entry of a directory. -/
theorem exists_parent_of_walk {base found : Location} {front rest : List String} {name : String}
    (hstep : ¬ isStep name) (hwalk : d.walk base (front ++ name :: rest) = .ok found) :
    ∃ parent, d.parent base front name = .ok parent ∧ d.node? (parent.1 ++ [name]) ≠ none := by
  rw [walk_append] at hwalk
  obtain ⟨parent, hparent, hlast⟩ := exists_of_bind_eq_ok hwalk
  have hdirectory : d.node? parent = some .directory := by
    refine Classical.byContradiction fun hnot => ?_
    rw [walk_of_not_directory hnot (List.cons_ne_nil _ _)] at hlast
    cases hlast
  rw [walk_name hstep hdirectory] at hlast
  split at hlast
  · cases hlast
  · rename_i hshort
    split at hlast
    · cases hlast
    · rename_i hthere
      refine ⟨⟨parent, hdirectory⟩, ?_, hthere⟩
      rw [Disk.parent, hparent, ok_bind, dif_pos hdirectory, if_neg hshort]
      rfl

/-- A directory that is there is not made. -/
theorem makeDirectory_of_isDirectory {base : Location} {segments : List String}
    (hdir : d.isDirectory base segments) :
    d.makeDirectory base segments = .error .alreadyExists := by
  obtain ⟨found, hwalk, -⟩ := isDirectory_iff.mp hdir
  rw [makeDirectory]
  dsimp only
  split
  · obtain ⟨blanks, hsegments, -⟩ := dropEmptyEnd_append segments
    rw [hsegments, walk_append] at hwalk
    obtain ⟨location, hlocation, -⟩ := exists_of_bind_eq_ok hwalk
    rw [hlocation]
    rfl
  · rename_i hstep
    obtain ⟨blanks, hsegments, -⟩ := exists_blanks_of_not_isStep hstep
    rw [hsegments] at hwalk
    obtain ⟨parent, hparent, hthere⟩ := exists_parent_of_walk hstep hwalk
    rw [hparent, ok_bind]
    split
    · rfl
    · contradiction

/-- Where a path leads to a directory, nothing needs to be made. -/
theorem makeDirectories_of_isDirectory (hsound : path.fault? = none)
    (hdir : d.isDirectory (d.start path) path.segments) :
    d.makeDirectories path = (.ok (), d) := by
  rw [makeDirectories, hsound]
  split
  · rfl
  · dsimp only
    rw [makeDirectory_of_isDirectory hdir]
    dsimp only
    rw [if_pos hdir]

/-- Directories that were made need not be made again while no directory goes away. -/
theorem Keeps.makeDirectories {other : Disk} (hmade : (d.makeDirectories path).1 = .ok ())
    (hkeeps : (d.makeDirectories path).2.Keeps other) :
    other.makeDirectories path = (.ok (), other) := by
  by_cases hempty : path.text = ""
  · rw [Disk.makeDirectories, if_pos hempty]
  · have hdir := hkeeps.isDirectory (isDirectory_of_makeDirectories hempty hmade)
    have hstart : other.start path = d.start path := by
      rw [start, start, hkeeps.workingDirectory, (makeDirectories_paves d path).workingDirectory]
    have hsound : path.fault? = none := by
      cases hfault : path.fault? with
      | none => rfl
      | some fault =>
          rw [Disk.makeDirectories, if_neg hempty, hfault] at hmade
          cases hmade
    exact makeDirectories_of_isDirectory hsound (hstart ▸ hdir)

end

end MarkupSeeds.Disk
