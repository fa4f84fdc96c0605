import MarkupSeeds.Disk.Access
import MarkupSeeds.SeedError

/-!
# Fixtures

Fixtures are the documents directly inside a directory.  They are listed at once, by
name, and read one at a time when they are asked for, so that a file may have changed
or vanished by then.
-/

namespace MarkupSeeds

/-- The text of a fixture, read leniently. -/
structure Document where
  name : String
  text : String
  deriving DecidableEq, Repr

def Document.read (d : Disk) (path : Path) : Except SeedError Document :=
  match d.read path with
  | .ok content => .ok ⟨path.fileName, Utf8.lossy content⟩
  | .error fault => .error (.fixtureRead path fault.reason)

/-- A fixture that was asked for: its document, or why there is none. -/
structure Fixture where
  path : Path
  document : Except SeedError Document

/-- The extension of fixtures, in any case. -/
def fixtureExtension : String := "html"

def isFixtureName (name : String) : Bool :=
  match Path.extension? name with
  | some extension => extension.map Char.toLower == fixtureExtension.toList
  | none => false

/-- The fixtures of a directory that are still to be read. -/
structure Fixtures where
  pending : List Path
  deriving DecidableEq, Repr

namespace Fixtures

/-- Lists the regular files that carry the extension, in ascending order of names. -/
def inDirectory (d : Disk) (dir : Path) : Except SeedError Fixtures :=
  match d.list dir with
  | .ok names =>
    let fixtures := names.filter fun name => isFixtureName name && d.isFile (dir.join name)
    .ok ⟨fixtures.map dir.join⟩
  | .error fault => .error (.fixtureListing dir fault.reason)

def remaining (f : Fixtures) : Nat := f.pending.length

/-- The least and the greatest number of fixtures to come. -/
def sizeHint (f : Fixtures) : Nat × Option Nat := (f.remaining, some f.remaining)

/-- The next fixture, as it is on the disk now. -/
def next? (f : Fixtures) (d : Disk) : Option (Fixture × Fixtures) :=
  match f.pending with
  | [] => none
  | path :: rest => some (⟨path, Document.read d path⟩, ⟨rest⟩)

/-- All fixtures to come, read from one state of the disk. -/
def readAll (f : Fixtures) (d : Disk) : List Fixture :=
  f.pending.map fun path => ⟨path, Document.read d path⟩

end Fixtures

end MarkupSeeds
