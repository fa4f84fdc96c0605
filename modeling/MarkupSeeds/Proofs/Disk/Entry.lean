import MarkupSeeds.Proofs.Disk.Directories
import MarkupSeeds.Proofs.Disk.Path

/-!
# Entries of a directory

A name joined to the path of a directory is looked up in that directory.  What is found
depends on nothing but the directory and the entry, so storing a file under a name leaves
what is found under all other names as it was.
-/

namespace MarkupSeeds.Disk

/-- The location in which the names joined to a path are looked up. -/
def Reaches (d : Disk) (dir : Path) (parent : Location) : Prop :=
  d.walk (d.start dir) dir.stem = .ok parent

/-- What a name stands for at a location. -/
def entry (d : Disk) (parent : Location) (name : String) : Except Fault Node :=
  if d.node? parent = some .directory then
    if Path.nameLimit < name.utf8ByteSize then .error .nameTooLong
    else match d.node? (parent ++ [name]) with
      | some node => .ok node
      | none => .error .notFound
  else .error (d.barrier parent)

theorem entry_congr {d other : Disk} {parent : Location} {name : String}
    (hparent : other.node? parent = d.node? parent)
    (hname : other.node? (parent ++ [name]) = d.node? (parent ++ [name])) :
    other.entry parent name = d.entry parent name := by
  rw [entry, entry, barrier, barrier, hparent, hname]

theorem entry_eq_ok_iff {d : Disk} {parent : Location} {name : String} {node : Node} :
    d.entry parent name = .ok node ↔
      ¬ Path.nameLimit < name.utf8ByteSize ∧ d.node? (parent ++ [name]) = some node := by
  constructor
  · intro hentry
    rw [entry] at hentry
    split at hentry
    · split at hentry
      · cases hentry
      · rename_i hshort
        split at hentry
        · rename_i found hfound
          cases hentry
          exact ⟨hshort, hfound⟩
        · cases hentry
    · cases hentry
  · rintro ⟨hshort, hnode⟩
    have hparent := directory_of_node?_append hnode (List.cons_ne_nil name [])
    rw [entry, if_pos hparent, if_neg hshort, hnode]

/-- In a directory that is there nothing is found under a name if the entry itself is missing. -/
theorem entry_eq_notFound_iff {d : Disk} {parent : Location} {name : String}
    (hparent : d.node? parent = some .directory) :
    d.entry parent name = .error .notFound ↔
      ¬ Path.nameLimit < name.utf8ByteSize ∧ d.node? (parent ++ [name]) = none := by
  rw [entry, if_pos hparent]
  split
  · simp [*]
  · cases d.node? (parent ++ [name]) <;> simp [*]

section

variable {d : Disk} {dir : Path} {parent : Location} {name : String}

theorem start_join (hname : IsName name) : d.start (dir.join name) = d.start dir := by
  rw [start, start, Path.isAbsolute_join dir hname]

/-- A slash at the end of the path of a directory leads no further. -/
theorem reaches_of_walk {found : Location} (hne : dir.text ≠ "")
    (hwalk : d.walk (d.start dir) dir.segments = .ok found) : d.Reaches dir found := by
  obtain ⟨front, -, -, hstem | hslash⟩ := Path.exists_front hne
  · rw [Reaches, ← hstem]
    exact hwalk
  · rw [hslash, walk_append] at hwalk
    obtain ⟨middle, hmiddle, hlast⟩ := exists_of_bind_eq_ok hwalk
    have hblank : found = middle ++ namesOf [""] := eq_append_of_walk (by decide) hlast
    rw [Reaches, hmiddle, hblank]
    exact congrArg Except.ok (List.append_nil middle).symm

theorem namesOf_stem (hne : dir.text ≠ "") : namesOf dir.stem = namesOf dir.segments := by
  obtain ⟨front, -, -, hstem | hslash⟩ := Path.exists_front hne
  · rw [hstem]
  · rw [hslash, namesOf_append]
    exact (List.append_nil _).symm

theorem resolve_join (hname : IsName name) :
    d.resolve (dir.join name) =
      match (dir.join name).fault? with
      | some fault => .error fault
      | none => d.walk (d.start dir) dir.stem >>= fun parent => d.walk parent [name] := by
  rw [resolve, start_join hname, Path.segments_join dir hname]
  cases (dir.join name).fault? with
  | some fault => rfl
  | none => exact walk_append d (d.start dir) dir.stem [name]

/-- The fault of a path that is refused, or else what the name stands for. -/
theorem find_join (hreaches : d.Reaches dir parent) (hstep : ¬ isStep name) :
    d.find (dir.join name) =
      match (dir.join name).fault? with
      | some fault => .error fault
      | none => d.entry parent name := by
  rw [find, resolve_join (isName_iff_not_isStep.mpr hstep), hreaches]
  cases hfault : (dir.join name).fault? with
  | some fault => rfl
  | none =>
      dsimp only
      rw [ok_bind, entry]
      by_cases hdir : d.node? parent = some .directory
      · rw [walk_name hstep hdir, if_pos hdir]
        split
        · rfl
        · cases hnode : d.node? (parent ++ [name]) with
          | none => rfl
          | some node =>
              rw [if_neg (Option.some_ne_none node), walk, ok_bind, hnode]
              rfl
      · rw [walk_of_not_directory hdir (List.cons_ne_nil _ _), if_neg hdir]
        rfl

theorem find_join_eq_ok_iff (hreaches : d.Reaches dir parent) (hstep : ¬ isStep name)
    {node : Node} :
    d.find (dir.join name) = .ok node ↔
      (dir.join name).fault? = none ∧ ¬ Path.nameLimit < name.utf8ByteSize ∧
        d.node? (parent ++ [name]) = some node := by
  rw [find_join hreaches hstep, ← entry_eq_ok_iff]
  cases (dir.join name).fault? with
  | some fault => simp
  | none => simp

/-- A name joined to the path of a directory leads to the entry. -/
theorem resolve_join_of_node? (hreaches : d.Reaches dir parent) (hstep : ¬ isStep name)
    (hsound : (dir.join name).fault? = none) (hshort : ¬ Path.nameLimit < name.utf8ByteSize)
    {node : Node} (hnode : d.node? (parent ++ [name]) = some node) :
    d.resolve (dir.join name) = .ok (parent ++ [name]) := by
  have hparent := directory_of_node?_append hnode (List.cons_ne_nil name [])
  rw [resolve_join (isName_iff_not_isStep.mpr hstep), hsound, hreaches]
  dsimp only
  rw [ok_bind, walk_name hstep hparent, if_neg hshort, if_neg (by simp [hnode]), walk]

/-- A name that is joined to the path of a directory leads to an entry of the directory, if it
leads anywhere. -/
theorem eq_of_resolve_join (hreaches : d.Reaches dir parent) (hstep : ¬ isStep name)
    {location : Location} (hresolve : d.resolve (dir.join name) = .ok location) :
    location = parent ++ [name] := by
  rw [resolve_join (isName_iff_not_isStep.mpr hstep), hreaches] at hresolve
  split at hresolve
  · cases hresolve
  · have hwalk : d.walk parent [name] = .ok location := hresolve
    obtain ⟨hname, hdots⟩ := ne_of_not_isStep hstep
    have hlocation := eq_append_of_walk (by simpa using hdots.symm) hwalk
    rwa [namesOf_cons_of_name hname] at hlocation

/-- Without the directory nothing is found in it. -/
theorem find_join_of_walk_error {fault : Fault}
    (hwalk : d.walk (d.start dir) dir.stem = .error fault) (hname : IsName name) :
    d.find (dir.join name) = .error ((dir.join name).fault?.getD fault) := by
  rw [find, resolve_join hname, hwalk]
  cases (dir.join name).fault? with
  | some refused => rfl
  | none => rfl

theorem fault?_join_ne_notFound (hstep : ¬ isStep name) :
    (dir.join name).fault? ≠ some .notFound := by
  have hname : name ≠ "" := fun hempty => (ne_of_not_isStep hstep).1 (Or.inl hempty)
  have htext : (dir.join name).text.isEmpty = false := by
    rw [Path.join]
    split <;> simp [String.isEmpty_eq_false_iff, hname]
  rw [Path.fault?, htext]
  split
  · simp
  · split <;> simp_all

/-- Nothing is at a location but a file that can be read. -/
def Replaceable (d : Disk) (location : Location) : Prop :=
  ∀ node, d.node? location = some node → ∃ content : Bytes, node = .file content

theorem Replaceable.ne_directory {location : Location} (hfree : d.Replaceable location) :
    d.node? location ≠ some .directory := by
  intro hnode
  obtain ⟨content, hfile⟩ := hfree _ hnode
  cases hfile

/-- A name in a directory stands for nothing or for a file that can be read. -/
structure Admits (d : Disk) (dir : Path) (parent : Location) (name : String) : Prop where
  sound : (dir.join name).fault? = none
  short : ¬ Path.nameLimit < name.utf8ByteSize
  directory : d.node? parent = some .directory
  free : d.Replaceable (parent ++ [name])

theorem read_congr {d other : Disk} {path : Path} (hfind : other.find path = d.find path) :
    other.read path = d.read path := by
  rw [read, read, hfind]

theorem read_eq_ok_iff {path : Path} {content : Bytes} :
    d.read path = .ok content ↔ d.find path = .ok (.file content) := by
  rw [read]
  cases d.find path with
  | error fault => simp [error_bind]
  | ok node =>
      cases node with
      | file found =>
          rw [ok_bind]
          cases found <;> simp [pure, Except.pure, throw, throwThe, MonadExceptOf.throw]
      | directory => simp [throw, throwThe, MonadExceptOf.throw]

theorem read_eq_notFound_iff {path : Path} :
    d.read path = .error .notFound ↔ d.find path = .error .notFound := by
  rw [read]
  cases d.find path with
  | error fault => simp [error_bind]
  | ok node =>
      rw [ok_bind]
      split <;> simp [pure, Except.pure, throw, throwThe, MonadExceptOf.throw]

theorem read_join_eq_ok_iff (hreaches : d.Reaches dir parent) (hstep : ¬ isStep name)
    {content : Bytes} :
    d.read (dir.join name) = .ok content ↔
      d.Admits dir parent name ∧ d.node? (parent ++ [name]) = some (.file content) := by
  rw [read_eq_ok_iff, find_join_eq_ok_iff hreaches hstep]
  constructor
  · rintro ⟨hsound, hshort, hnode⟩
    have hparent := directory_of_node?_append hnode (List.cons_ne_nil name [])
    refine ⟨⟨hsound, hshort, hparent, ?_⟩, hnode⟩
    intro node hthere
    exact ⟨content, Option.some.inj (hthere.symm.trans hnode)⟩
  · rintro ⟨hadmits, hnode⟩
    exact ⟨hadmits.sound, hadmits.short, hnode⟩

theorem read_join_eq_notFound_iff (hreaches : d.Reaches dir parent) (hstep : ¬ isStep name)
    (hparent : d.node? parent = some .directory) :
    d.read (dir.join name) = .error .notFound ↔
      d.Admits dir parent name ∧ d.node? (parent ++ [name]) = none := by
  rw [read_eq_notFound_iff, find_join hreaches hstep]
  constructor
  · intro hfind
    split at hfind
    · rename_i fault hfault
      cases hfind
      exact absurd hfault (fault?_join_ne_notFound hstep)
    · rename_i hsound
      obtain ⟨hshort, hnone⟩ := (entry_eq_notFound_iff hparent).mp hfind
      refine ⟨⟨hsound, hshort, hparent, ?_⟩, hnone⟩
      intro node hnode
      cases hnone.symm.trans hnode
  · rintro ⟨hadmits, hnone⟩
    rw [hadmits.sound]
    exact (entry_eq_notFound_iff hparent).mpr ⟨hadmits.short, hnone⟩

end

/-! ## Storing a file -/

/-- A file was put at a location, in place of a file or of nothing. -/
structure Puts (d stored : Disk) (location : Location) (content : Bytes) : Prop where
  free : d.Replaceable location
  workingDirectory : stored.workingDirectory = d.workingDirectory
  refusals : stored.refusals = d.refusals
  node? : ∀ other, stored.node? other =
    if other = location then some (.file content) else d.node? other

section

variable {d stored : Disk} {dir : Path} {parent : Location} {name : String} {content : Bytes}

theorem Keeps.reaches {other : Disk} (hkeeps : d.Keeps other) (hreaches : d.Reaches dir parent) :
    other.Reaches dir parent := by
  rw [Reaches, start, hkeeps.workingDirectory]
  exact hkeeps.walk hreaches

theorem fileName_join (hname : IsName name) : (dir.join name).fileName = name := by
  rw [Path.fileName, Path.segments_join dir hname, List.getLast?_concat, Option.getD_some]

/-- The disk with a file stored under a name in a directory. -/
def Admits.holding (hadmits : d.Admits dir parent name) (hstep : ¬ isStep name)
    (content : Bytes) : Disk :=
  d.set (parent ++ [name]) (.file content)
    (by rw [List.dropLast_concat]; exact hadmits.directory) hadmits.free.ne_directory
    (by simpa using isName_iff_not_isStep.mpr hstep)

theorem Admits.puts_holding (hadmits : d.Admits dir parent name) (hstep : ¬ isStep name)
    (content : Bytes) : d.Puts (hadmits.holding hstep content) (parent ++ [name]) content :=
  ⟨hadmits.free, rfl, rfl, node?_set d _ _ _ _ _⟩

theorem write_join (hreaches : d.Reaches dir parent) (hstep : ¬ isStep name)
    (hadmits : d.Admits dir parent name) (hopen : d.refusal? .enter parent = none)
    (content : Bytes) :
    d.write (dir.join name) content = .ok (hadmits.holding hstep content) := by
  have hname := isName_iff_not_isStep.mpr hstep
  have hfile : (dir.join name).fileName = name := fileName_join hname
  have hdirectory : d.parent (d.start (dir.join name)) (dir.join name).segments.dropLast
      (dir.join name).fileName = .ok ⟨parent, hadmits.directory⟩ := by
    rw [start_join hname, Path.segments_join dir hname, List.dropLast_concat, hfile, Disk.parent,
      hreaches, ok_bind, dif_pos hadmits.directory, if_neg hadmits.short]
    rfl
  have hlocation : parent ++ [(dir.join name).fileName] = parent ++ [name] := by rw [hfile]
  rw [write, hadmits.sound]
  dsimp only
  rw [dif_neg (by rw [hfile]; exact hstep), hdirectory, ok_bind]
  dsimp only
  rw [dif_neg (by rw [hlocation]; exact hadmits.free.ne_directory), hopen]
  simp only [hfile]
  rfl

/-- A file is written under a name only where names are looked up and may be given to files. -/
theorem exists_of_write_join (hstep : ¬ isStep name) {content : Option Bytes}
    (hwrite : d.write (dir.join name) content = .ok stored) :
    ∃ parent, d.Reaches dir parent ∧ (dir.join name).fault? = none ∧
      ¬ Path.nameLimit < name.utf8ByteSize ∧ d.node? parent = some .directory ∧
        d.node? (parent ++ [name]) ≠ some .directory ∧ d.refusal? .enter parent = none := by
  have hname := isName_iff_not_isStep.mpr hstep
  have hfile : (dir.join name).fileName = name := fileName_join hname
  rw [write] at hwrite
  split at hwrite
  · cases hwrite
  · rename_i hsound
    rw [dif_neg (by rw [hfile]; exact hstep), start_join hname, Path.segments_join dir hname,
      List.dropLast_concat] at hwrite
    obtain ⟨⟨parent, hdirectory⟩, hparent, hset⟩ := exists_of_bind_eq_ok hwrite
    obtain ⟨hreaches, hshort⟩ := parent_eq_ok hparent
    dsimp only at hset
    split at hset
    · cases hset
    · rename_i hfree
      split at hset
      · cases hset
      · rename_i hopen
        rw [hfile] at hshort hfree
        exact ⟨parent, hreaches, hsound, hshort, hdirectory, hfree, hopen⟩

namespace Puts

theorem node?_of_ne {target location : Location} (hputs : d.Puts stored target content)
    (hne : location ≠ target) : stored.node? location = d.node? location := by
  rw [hputs.node?, if_neg hne]

/-- The directories are the same. -/
theorem directory_iff {target location : Location} (hputs : d.Puts stored target content) :
    stored.node? location = some .directory ↔ d.node? location = some .directory := by
  rw [hputs.node?]
  split
  · rename_i htarget
    rw [htarget]
    exact iff_of_false (by simp) hputs.free.ne_directory
  · rfl

theorem keeps {location : Location} (hputs : d.Puts stored location content) : d.Keeps stored where
  workingDirectory := hputs.workingDirectory
  directory hdir := hputs.directory_iff.mpr hdir
  something hthere := by
    rw [hputs.node?]
    split
    · exact Option.some_ne_none _
    · exact hthere

theorem replaceable_iff {target location : Location} (hputs : d.Puts stored target content) :
    stored.Replaceable location ↔ d.Replaceable location := by
  by_cases htarget : location = target
  · subst htarget
    refine iff_of_true ?_ hputs.free
    intro node hnode
    rw [hputs.node?, if_pos rfl] at hnode
    exact ⟨content, (Option.some.inj hnode).symm⟩
  · rw [Replaceable, Replaceable, hputs.node?_of_ne htarget]

/-- What may be stored in a directory does not depend on the files that are in it. -/
theorem admits_iff {target : Location} (hputs : d.Puts stored target content) {other : String} :
    stored.Admits dir parent other ↔ d.Admits dir parent other := by
  constructor
  · rintro ⟨hsound, hshort, hparent, hfree⟩
    exact ⟨hsound, hshort, hputs.directory_iff.mp hparent, hputs.replaceable_iff.mp hfree⟩
  · rintro ⟨hsound, hshort, hparent, hfree⟩
    exact ⟨hsound, hshort, hputs.directory_iff.mpr hparent, hputs.replaceable_iff.mpr hfree⟩

theorem read_join (hputs : d.Puts stored (parent ++ [name]) content)
    (hreaches : d.Reaches dir parent) (hstep : ¬ isStep name)
    (hadmits : d.Admits dir parent name) : stored.read (dir.join name) = .ok content := by
  refine (read_join_eq_ok_iff (hputs.keeps.reaches hreaches) hstep).mpr
    ⟨hputs.admits_iff.mpr hadmits, ?_⟩
  rw [hputs.node?, if_pos rfl]

theorem read_join_of_ne (hputs : d.Puts stored (parent ++ [name]) content)
    (hreaches : d.Reaches dir parent) {other : String} (hstep : ¬ isStep other)
    (hne : other ≠ name) : stored.read (dir.join other) = d.read (dir.join other) := by
  have hparent : stored.node? parent = d.node? parent := hputs.node?_of_ne (by simp)
  have hother : stored.node? (parent ++ [other]) = d.node? (parent ++ [other]) :=
    hputs.node?_of_ne (by simpa using hne)
  apply read_congr
  rw [find_join (hputs.keeps.reaches hreaches) hstep, find_join hreaches hstep,
    entry_congr hparent hother]

end Puts

end

/-! ## Entries of directories that were made -/

namespace Grows

variable {d made : Disk} {base : Location} {names : List String}

theorem node?_start (hgrows : d.Grows made base names) : made.node? base = d.node? base := by
  rcases hgrows.node? base with hsame | ⟨-, -, added, hne, -, hbase⟩
  · exact hsame
  · exact absurd (List.self_eq_append_right.mp hbase) hne

/-- No name in a directory that was made is among those on the way to it. -/
theorem node?_concat (hgrows : d.Grows made base names) (name : String) :
    made.node? (base ++ names ++ [name]) = d.node? (base ++ names ++ [name]) := by
  rcases hgrows.node? (base ++ names ++ [name]) with hsame | ⟨-, -, added, -, hlead, hlocation⟩
  · exact hsame
  · rw [List.append_assoc, List.append_cancel_left_eq] at hlocation
    have hlong := hlead.length_le
    rw [← hlocation, List.length_append, List.length_singleton] at hlong
    omega

/-- Where a directory was made there was none to be reached. -/
theorem walk_eq_notFound (hgrows : d.Grows made base names) {segments : List String}
    (hdots : ".." ∉ segments) {parent : Location} (hwalk : made.walk base segments = .ok parent)
    (hparent : made.node? parent = some .directory) (hnone : d.node? parent = none) :
    d.walk base segments = .error .notFound := by
  have hbase : d.node? base ≠ none := by
    rw [eq_append_of_walk hdots hwalk] at hparent
    rw [← hgrows.node?_start]
    exact something_of_append (by rw [hparent]; exact Option.some_ne_none _)
  refine (hgrows.toExtends.walk_or_notFound hbase hwalk).resolve_left ?_
  intro hway
  exact node?_of_walk hbase hway hnone

/-- Making a directory has changed nothing about the names in it. -/
theorem find_join_eq {dir : Path} (hgrows : d.Grows made (d.start dir) (namesOf dir.stem))
    (hdots : ".." ∉ dir.stem) {parent : Location} (hreaches : made.Reaches dir parent)
    (hparent : made.node? parent = some .directory) {name : String} (hstep : ¬ isStep name)
    (hshort : ¬ Path.nameLimit < name.utf8ByteSize) :
    made.find (dir.join name) = d.find (dir.join name) := by
  have hwalk : made.walk (d.start dir) dir.stem = .ok parent := by
    rw [start, ← hgrows.workingDirectory]
    exact hreaches
  have hname : made.node? (parent ++ [name]) = d.node? (parent ++ [name]) := by
    rw [eq_append_of_walk hdots hwalk]
    exact hgrows.node?_concat name
  rw [find_join hreaches hstep]
  by_cases hthere : d.node? parent = none
  · have hmissing := hgrows.walk_eq_notFound hdots hwalk hparent hthere
    have hnone : d.node? (parent ++ [name]) = none :=
      Classical.byContradiction fun hsomething => something_of_append hsomething hthere
    have hentry : made.entry parent name = .error .notFound :=
      (entry_eq_notFound_iff hparent).mpr ⟨hshort, hname.trans hnone⟩
    rw [find_join_of_walk_error hmissing (isName_iff_not_isStep.mpr hstep), hentry]
    cases (dir.join name).fault? <;> rfl
  · have hway := hgrows.toExtends.walk_of_something hdots hwalk hthere
    have hkept : made.node? parent = d.node? parent := by
      obtain ⟨node, hnode⟩ := Option.ne_none_iff_exists'.mp hthere
      rw [hnode, hgrows.toExtends.node? hnode]
    rw [find_join hway hstep, entry_congr hkept hname]

end Grows

/-- Names in a directory that was made are looked up where it was made. -/
theorem exists_reaches_of_makeDirectories {d : Disk} {dir : Path}
    (hmade : (d.makeDirectories dir).1 = .ok ()) :
    ∃ parent, (d.makeDirectories dir).2.Reaches dir parent ∧
      (dir.text ≠ "" → (d.makeDirectories dir).2.node? parent = some .directory) := by
  by_cases hempty : dir.text = ""
  · have hstem : dir.stem = [] := by rw [Path.stem, hempty]; rfl
    exact ⟨_, by rw [Reaches, hstem, walk], fun hne => absurd hempty hne⟩
  · have hdirectory := isDirectory_of_makeDirectories hempty hmade
    obtain ⟨parent, hwalk, hparent⟩ := isDirectory_iff.mp hdirectory
    refine ⟨parent, reaches_of_walk hempty ?_, fun _ => hparent⟩
    rw [start, (makeDirectories_paves d dir).workingDirectory]
    exact hwalk

/-- Making a directory changes nothing about what the names in it stand for. -/
theorem find_join_makeDirectories {d : Disk} {dir : Path} (hdots : ".." ∉ dir.segments)
    (hmade : (d.makeDirectories dir).1 = .ok ()) {name : String} (hstep : ¬ isStep name)
    (hshort : ¬ Path.nameLimit < name.utf8ByteSize) :
    (d.makeDirectories dir).2.find (dir.join name) = d.find (dir.join name) := by
  by_cases hempty : dir.text = ""
  · rw [makeDirectories, if_pos hempty]
  · obtain ⟨parent, hreaches, hparent⟩ := exists_reaches_of_makeDirectories hmade
    have hgrows := (makeDirectories_paves d dir).grows hdots
    rw [← namesOf_stem hempty] at hgrows
    have hstem : ".." ∉ dir.stem := fun hmem => hdots (Path.stem_subset dir hmem)
    exact hgrows.find_join_eq hstem hreaches (hparent hempty) hstep hshort

end MarkupSeeds.Disk
