import MarkupSeeds.Proofs.Disk.Listing
import MarkupSeeds.Proofs.Fixture.Name
import MarkupSeeds.Proofs.Text.Order

/-!
# Asking for fixtures

Which fixtures there are is settled when a directory is listed; what is in them is looked up when
they are asked for.  Whatever becomes of the disk in between, each fixture that was listed comes
up once, in the order of the names, and brings what its file holds by then or the one error that
a run survives.
-/

namespace MarkupSeeds

/-! ## Listing -/

/-- The names of the fixtures that a listing finds. -/
theorem Fixtures.exists_names_of_inDirectory {d : Disk} {dir : Path} {fixtures : Fixtures}
    (hlisted : inDirectory d dir = .ok fixtures) :
    ∃ parent names, d.resolve dir = .ok parent ∧ fixtures.pending = names.map dir.join ∧
      Sorted.Ascending names ∧
      ∀ name, name ∈ names ↔ CarriesExtension name ∧
        (∃ content, d.node? (parent ++ [name]) = some (.file content)) ∧
        (dir.join name).fault? = none ∧ name.utf8ByteSize ≤ Path.nameLimit := by
  cases hlist : d.list dir with
  | error fault =>
      rw [inDirectory, hlist] at hlisted
      cases hlisted
  | ok listed =>
      obtain ⟨parent, hresolve, hparent, rfl⟩ := Disk.list_eq_ok_iff.mp hlist
      have hreaches := Disk.reaches_of_resolve hresolve
      rw [inDirectory_eq_ok hlist] at hlisted
      cases hlisted
      refine ⟨parent, _, hresolve, rfl, (Sorted.ascending_ofList _).filter _, ?_⟩
      intro name
      rw [List.mem_filter, Bool.and_eq_true, isFixtureName_iff]
      constructor
      · rintro ⟨hmem, hcarries, hfile⟩
        have hstep := not_isStep_of_mem_children hmem
        obtain ⟨hsound, hshort, hnode⟩ := (Disk.isFile_join_iff hreaches hstep).mp hfile
        exact ⟨hcarries, hnode, hsound, hshort⟩
      · rintro ⟨hcarries, hnode, hsound, hshort⟩
        obtain ⟨content, hcontent⟩ := hnode
        have hmem : name ∈ d.children parent := by
          rw [Disk.mem_children_iff, hcontent]
          exact Option.some_ne_none _
        have hstep := not_isStep_of_mem_children hmem
        exact ⟨hmem, hcarries,
          (Disk.isFile_join_iff hreaches hstep).mpr ⟨hsound, hshort, content, hcontent⟩⟩

/-! ## Reading -/

/-- What may come of reading a file: the text of what it holds at the time, or the error of a
fixture that cannot be read if there is no file with a content. -/
inductive ReadsAs (d : Disk) (path : Path) : Except SeedError Document → Prop
  | content {content : Bytes} (hfile : d.find path = .ok (.file content)) :
      ReadsAs d path (.ok ⟨path.fileName, Utf8.lossy content⟩)
  | failure {fault} (hnone : ∀ content : Bytes, d.find path ≠ .ok (.file content))
      (hfault : d.read path = .error fault) :
      ReadsAs d path (.error (.fixtureRead path fault.reason))

theorem Document.readsAs (d : Disk) (path : Path) : ReadsAs d path (Document.read d path) := by
  rw [Document.read]
  cases hread : d.read path with
  | ok content => exact .content (Disk.read_eq_ok_iff.mp hread)
  | error fault =>
      refine .failure ?_ hread
      intro content hfile
      rw [Disk.read_eq_ok_iff.mpr hfile] at hread
      cases hread

namespace Fixtures

/-- The answers to calls one after another, each with the handle that it leaves.  At each call the
disk is in a state of its own, whatever has become of it since the one before. -/
def calls (f : Fixtures) : List Disk → List (Option Fixture × Fixtures)
  | [] => []
  | d :: disks =>
      match f.next? d with
      | some (fixture, rest) => (some fixture, rest) :: rest.calls disks
      | none => (none, f) :: f.calls disks

/-- One call takes the first path, if there is one, and reads the file behind it. -/
theorem calls_cons (f : Fixtures) (d : Disk) (disks : List Disk) :
    f.calls (d :: disks) =
      (f.pending.head?.map fun path => ⟨path, Document.read d path⟩, ⟨f.pending.tail⟩) ::
        calls ⟨f.pending.tail⟩ disks := by
  obtain ⟨pending⟩ := f
  cases pending <;> rfl

/-- A number of calls have taken as many paths, and each has read its file at its own time. -/
theorem getElem?_calls (f : Fixtures) (disks : List Disk) (k : Nat) :
    (f.calls disks)[k]? = disks[k]?.map fun d =>
      (f.pending[k]?.map fun path => ⟨path, Document.read d path⟩, ⟨f.pending.drop (k + 1)⟩) := by
  induction disks generalizing f k with
  | nil => rfl
  | cons d disks ih =>
      rw [calls_cons]
      cases k with
      | zero => simp [List.head?_eq_getElem?]
      | succ k =>
          rw [List.getElem?_cons_succ, List.getElem?_cons_succ, ih]
          simp [Nat.add_comm]

/-- Two pages, and what is no fixture for its name or for being a directory. -/
def shelf : Disk where
  entries :=
    [(["shelf"], .directory),
     (["shelf", "b.html"], .file (Utf8.encode "<p>Hello</p>")),
     (["shelf", "a.b.HTML"], .file (Utf8.encode "<p>there</p>")),
     (["shelf", ".html"], .file (Utf8.encode "<p>hidden</p>")),
     (["shelf", "c.html"], .directory)]
  closed := by decide
  named := by decide
  workingDirectory := []

/-- The shelf at a later time, with other content and one page turned into a directory. -/
def shelfLater : Disk where
  entries :=
    [(["shelf"], .directory),
     (["shelf", "b.html"], .directory),
     (["shelf", "a.b.HTML"], .file (Utf8.encode "<p>where</p>")),
     (["shelf", "d.html"], .file (Utf8.encode "<p>late</p>"))]
  closed := by decide
  named := by decide
  workingDirectory := []

/-- A number of steps that lead nowhere. -/
def stay : Nat → String
  | 0 => ""
  | n + 1 => "./" ++ stay n

theorem utf8ByteSize_stay (n : Nat) : (stay n).utf8ByteSize = 2 * n := by
  induction n with
  | zero => rfl
  | succ n ih =>
      rw [stay, String.utf8ByteSize_append, ih, show "./".utf8ByteSize = 2 from rfl]
      omega

theorem nul_not_mem_stay (n : Nat) : '\x00' ∉ (stay n).toList := by
  induction n with
  | zero => decide
  | succ n ih =>
      rw [stay, String.toList_append, List.mem_append, not_or]
      exact ⟨by decide, ih⟩

theorem walk_stay {d : Disk} {location : Location} (hdir : d.node? location = some .directory)
    (n : Nat) : d.walk location (⟨stay n⟩ : Path).segments = .ok location := by
  induction n with
  | zero => simp [stay, Path.segments, splitAt, Disk.walk, hdir]
  | succ n ih =>
      have hsegments : (⟨stay (n + 1)⟩ : Path).segments = "." :: (⟨stay n⟩ : Path).segments := by
        have htext : (stay (n + 1)).toList = ['.'] ++ '/' :: (stay n).toList := String.toList_append
        rw [Path.segments, htext, splitAt_append]
        rfl
      rw [hsegments, Disk.walk, if_pos hdir, if_pos (Or.inr rfl), ih]

theorem resolve_stay {d : Disk} (hdir : d.node? d.workingDirectory = some .directory) {n : Nat}
    (hsome : n ≠ 0) (hshort : 2 * n < Path.lengthLimit) :
    d.resolve ⟨stay n⟩ = .ok d.workingDirectory := by
  have hne : stay n ≠ "" := by
    intro hempty
    have hsize := utf8ByteSize_stay n
    rw [hempty, String.utf8ByteSize_empty] at hsize
    omega
  have hstart : d.start ⟨stay n⟩ = d.workingDirectory := by
    obtain ⟨m, rfl⟩ := Nat.exists_eq_succ_of_ne_zero hsome
    simp [Disk.start, Path.isAbsolute, stay]
  refine Disk.resolve_eq_ok_iff.mpr ⟨Path.fault?_eq_none_iff.mpr ⟨nul_not_mem_stay n, hne, ?_⟩, ?_⟩
  · rw [utf8ByteSize_stay]
    exact hshort
  · rw [hstart]
    exact walk_stay hdir n

def lonePage : Disk where
  entries := [(["a.html"], .file (Utf8.encode "<p>Hello</p>"))]
  closed := by decide
  named := by decide
  workingDirectory := []

end Fixtures

end MarkupSeeds
