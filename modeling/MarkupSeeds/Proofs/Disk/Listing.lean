import MarkupSeeds.Fixture
import MarkupSeeds.Proofs.Disk.Entry

/-!
# Listings

The names in a directory are those under which something lies there.  Directories and files
that are added to a disk may add names to a listing, but the fixtures of a directory and
what is read from them remain the same, as long as no file under the name of a fixture is
added or changed.
-/

namespace MarkupSeeds

namespace Disk

theorem something_iff {d : Disk} {location : Location} (hroot : location ≠ []) :
    d.node? location ≠ none ↔ ∃ entry ∈ d.entries, entry.1 = location := by
  rw [node?, Node.at?, if_neg hroot, ne_eq, List.lookup_eq_none_iff]
  simp only [Classical.not_forall, exists_prop]
  refine exists_congr fun entry => and_congr_right fun _ => ?_
  rw [bne_iff_ne, ne_eq, Classical.not_not, eq_comm]

theorem mem_children_iff {d : Disk} {location : Location} {name : String} :
    name ∈ d.children location ↔ d.node? (location ++ [name]) ≠ none := by
  rw [children, Sorted.mem_ofList, List.mem_filterMap, something_iff (by simp)]
  constructor
  · rintro ⟨entry, hentry, hname⟩
    split at hname
    · rename_i hfront
      obtain ⟨front, hlast⟩ := List.getLast?_eq_some_iff.mp hname
      rw [hlast, List.dropLast_concat] at hfront
      exact ⟨entry, hentry, hfront ▸ hlast⟩
    · cases hname
  · rintro ⟨entry, hentry, hkey⟩
    refine ⟨entry, hentry, ?_⟩
    rw [hkey, if_pos List.dropLast_concat, List.getLast?_concat]

/-- What is in a listing is a name. -/
theorem isName_of_mem_children {d : Disk} {location : Location} {name : String}
    (hmem : name ∈ d.children location) : IsName name := by
  obtain ⟨node, hnode⟩ := Option.ne_none_iff_exists'.mp (mem_children_iff.mp hmem)
  exact isName_of_node? hnode name (List.mem_append_right _ (List.mem_singleton_self name))

theorem resolve_eq_ok_iff {d : Disk} {path : Path} {location : Location} :
    d.resolve path = .ok location ↔
      path.fault? = none ∧ d.walk (d.start path) path.segments = .ok location := by
  rw [resolve]
  cases path.fault? with
  | some fault => simp
  | none => simp

/-- A path that leads somewhere is where names joined to it are looked up. -/
theorem reaches_of_resolve {d : Disk} {dir : Path} {location : Location}
    (hresolve : d.resolve dir = .ok location) : d.Reaches dir location := by
  obtain ⟨hsound, hwalk⟩ := resolve_eq_ok_iff.mp hresolve
  refine reaches_of_walk ?_ hwalk
  intro hempty
  simp [Path.fault?, hempty] at hsound

theorem Keeps.resolve {d other : Disk} (hkeeps : d.Keeps other) {path : Path}
    {location : Location} (hresolve : d.resolve path = .ok location) :
    other.resolve path = .ok location := by
  obtain ⟨hsound, hwalk⟩ := resolve_eq_ok_iff.mp hresolve
  refine resolve_eq_ok_iff.mpr ⟨hsound, ?_⟩
  rw [start, hkeeps.workingDirectory]
  exact hkeeps.walk hwalk

theorem list_eq_ok_iff {d : Disk} {dir : Path} {names : List String} :
    d.list dir = .ok names ↔
      ∃ location, d.resolve dir = .ok location ∧ d.node? location = some .directory ∧
        names = d.children location := by
  rw [list]
  constructor
  · intro hlist
    obtain ⟨location, hresolve, hnames⟩ := exists_of_bind_eq_ok hlist
    split at hnames
    · rename_i hdirectory
      cases hnames
      exact ⟨location, hresolve, hdirectory, rfl⟩
    · cases hnames
    · cases hnames
  · rintro ⟨location, hresolve, hdirectory, rfl⟩
    rw [hresolve, ok_bind, hdirectory]
    rfl

theorem isFile_iff {d : Disk} {path : Path} :
    d.isFile path ↔ ∃ content, d.find path = .ok (.file content) := by
  rw [isFile]
  split
  · rename_i content hfind
    simp [hfind]
  · rename_i hfind
    simp only [Bool.false_eq_true, false_iff, not_exists]
    exact hfind

section

variable {d : Disk} {dir : Path} {parent : Location} {name : String}

/-- A name joined to a directory is that of a file if the file is there and the path is accepted. -/
theorem isFile_join_iff (hreaches : d.Reaches dir parent) (hstep : ¬ isStep name) :
    d.isFile (dir.join name) ↔
      (dir.join name).fault? = none ∧ name.utf8ByteSize ≤ Path.nameLimit ∧
        ∃ content, d.node? (parent ++ [name]) = some (.file content) := by
  simp only [isFile_iff, find_join_eq_ok_iff hreaches hstep, Nat.not_lt, exists_and_left]

/-- A path that is too long leads to no file, whatever lies in the directory. -/
theorem not_isFile_join_of_long (hreaches : d.Reaches dir parent) (hstep : ¬ isStep name)
    (hlong : Path.lengthLimit ≤ dir.text.utf8ByteSize + name.utf8ByteSize) :
    ¬ d.isFile (dir.join name) := by
  rw [isFile_join_iff hreaches hstep]
  rintro ⟨hsound, -⟩
  have hshort := (Path.fault?_eq_none_iff.mp hsound).2.2
  have hle := dir.utf8ByteSize_le_join name
  omega

theorem mem_children_of_isFile (hreaches : d.Reaches dir parent) (hstep : ¬ isStep name)
    (hfile : d.isFile (dir.join name)) : name ∈ d.children parent := by
  obtain ⟨-, -, content, hnode⟩ := (isFile_join_iff hreaches hstep).mp hfile
  rw [mem_children_iff, hnode]
  exact Option.some_ne_none _

end

/-! ## Fixtures that stay -/

/-- Directories are kept, and no file under the name of a fixture is added or changed. -/
structure KeepsFixtures (d other : Disk) : Prop extends d.Keeps other where
  file : ∀ {location name content}, isFixtureName name →
    (other.node? (location ++ [name]) = some (.file content) ↔
      d.node? (location ++ [name]) = some (.file content))

/-- Directories that were made are no fixtures. -/
theorem Paves.keepsFixtures {d made : Disk} {base : Location} {segments : List String}
    (hpaves : d.Paves made base segments) : d.KeepsFixtures made where
  toKeeps := hpaves.toExtends.keeps
  file _ := hpaves.file_iff

end Disk

theorem not_isStep_of_mem_children {d : Disk} {location : Location} {name : String}
    (hmem : name ∈ d.children location) : ¬ Disk.isStep name :=
  Disk.isName_iff_not_isStep.mp (Disk.isName_of_mem_children hmem)

namespace Fixtures

/-- A listed file is a fixture if its name says so. -/
theorem inDirectory_eq_ok {d : Disk} {dir : Path} {names : List String}
    (hlist : d.list dir = .ok names) :
    inDirectory d dir = .ok ⟨(names.filter fun name =>
      isFixtureName name && d.isFile (dir.join name)).map dir.join⟩ := by
  rw [inDirectory, hlist]

section

variable {d other : Disk} (hkeeps : d.KeepsFixtures other) {dir : Path} {parent : Location}
  (hreaches : d.Reaches dir parent) {name : String} (hstep : ¬ Disk.isStep name)
  (hfixture : isFixtureName name)

include hkeeps hreaches hstep hfixture

theorem find_file_iff_of_keepsFixtures {content : Option Bytes} :
    other.find (dir.join name) = .ok (.file content) ↔
      d.find (dir.join name) = .ok (.file content) := by
  rw [Disk.find_join_eq_ok_iff (hkeeps.toKeeps.reaches hreaches) hstep,
    Disk.find_join_eq_ok_iff hreaches hstep, hkeeps.file hfixture]

theorem isFile_iff_of_keepsFixtures :
    other.isFile (dir.join name) ↔ d.isFile (dir.join name) := by
  simp only [Disk.isFile_iff, find_file_iff_of_keepsFixtures hkeeps hreaches hstep hfixture]

theorem read_of_keepsFixtures (hfile : d.isFile (dir.join name)) :
    other.read (dir.join name) = d.read (dir.join name) := by
  obtain ⟨content, hfind⟩ := Disk.isFile_iff.mp hfile
  have hafter := (find_file_iff_of_keepsFixtures hkeeps hreaches hstep hfixture).mpr hfind
  exact Disk.read_congr (hafter.trans hfind.symm)

end

section

variable {d other : Disk} (hkeeps : d.KeepsFixtures other) {dir : Path}

include hkeeps

/-- Nothing that was added is a fixture. -/
theorem fixtures_eq_of_keepsFixtures {parent : Location} (hreaches : d.Reaches dir parent) :
    ((other.children parent).filter fun name =>
        isFixtureName name && other.isFile (dir.join name)) =
      (d.children parent).filter fun name =>
        isFixtureName name && d.isFile (dir.join name) := by
  have hother := hkeeps.toKeeps.reaches hreaches
  apply Sorted.eq_of_mem_iff
  · exact (Sorted.ascending_ofList _).filter _
  · exact (Sorted.ascending_ofList _).filter _
  · intro name
    simp only [List.mem_filter, Bool.and_eq_true]
    constructor
    · rintro ⟨hmem, hfixture, hfile⟩
      have hstep := not_isStep_of_mem_children hmem
      have hbefore := (isFile_iff_of_keepsFixtures hkeeps hreaches hstep hfixture).mp hfile
      exact ⟨Disk.mem_children_of_isFile hreaches hstep hbefore, hfixture, hbefore⟩
    · rintro ⟨hmem, hfixture, hfile⟩
      have hstep := not_isStep_of_mem_children hmem
      have hafter := (isFile_iff_of_keepsFixtures hkeeps hreaches hstep hfixture).mpr hfile
      exact ⟨Disk.mem_children_of_isFile hother hstep hafter, hfixture, hafter⟩

/-- The fixtures of a directory and their documents stay as they are while the fixtures on
the disk are kept. -/
theorem inDirectory_of_keepsFixtures {fixtures : Fixtures}
    (hlisted : inDirectory d dir = .ok fixtures) :
    inDirectory other dir = .ok fixtures ∧ fixtures.readAll other = fixtures.readAll d := by
  cases hlist : d.list dir with
  | error fault =>
      rw [inDirectory, hlist] at hlisted
      cases hlisted
  | ok listed =>
      obtain ⟨parent, hresolve, hparent, rfl⟩ := Disk.list_eq_ok_iff.mp hlist
      have hreaches := Disk.reaches_of_resolve hresolve
      have hother : other.list dir = .ok (other.children parent) :=
        Disk.list_eq_ok_iff.mpr ⟨parent, hkeeps.toKeeps.resolve hresolve,
          hkeeps.directory hparent, rfl⟩
      rw [inDirectory_eq_ok hlist] at hlisted
      cases hlisted
      constructor
      · rw [inDirectory_eq_ok hother, fixtures_eq_of_keepsFixtures hkeeps hreaches]
      · apply List.map_congr_left
        intro path hpath
        obtain ⟨name, hname, rfl⟩ := List.mem_map.mp hpath
        obtain ⟨hmem, hboth⟩ := List.mem_filter.mp hname
        obtain ⟨hfixture, hfile⟩ := Bool.and_eq_true_iff.mp hboth
        have hstep := not_isStep_of_mem_children hmem
        rw [Document.read, Document.read,
          read_of_keepsFixtures hkeeps hreaches hstep hfixture hfile]

end

end Fixtures

end MarkupSeeds
