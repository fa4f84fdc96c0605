import MarkupSeeds.Disk.Access

/-!
# Storing by way of a temporary file

A file that must never be seen unfinished is stored in steps.  An empty file is made in the
same directory under a name that nothing has, it is filled, and then it takes the name of
the file.  The temporary file goes by its absolute path, which may be too long where the
path of the file is not.  Each step can fail, and whichever it is, the temporary file is
taken away again.
-/

namespace MarkupSeeds

namespace Temporary

def letters : List Char :=
  "0123456789ABCDEFGHIJKLMNOPQRSTUVWXYZabcdefghijklmnopqrstuvwxyz".toList

/-- A name for a temporary file.  The letters are drawn at random; here they are counted
through, as it makes no difference to what is left in the end which of them are used. -/
def name (n : Nat) : String :=
  ".tmp" ++ String.ofList ((List.range 6).map fun i =>
    letters.getD (n / Nat.pow letters.length i % letters.length) '0')

/-- How many names are tried before a temporary file is given up. -/
def tries : Nat := 65536

end Temporary

namespace Disk

/-- The path of a location as the beginning of other paths. -/
def rooted (location : Location) : String :=
  "/" ++ location.foldr (fun name path => name ++ "/" ++ path) ""

/-- A path from the root to where the given path leads.  From a working directory that was
removed there is none. -/
def absolute (d : Disk) (path : Path) : Except Fault Path :=
  if path.isAbsolute then .ok path
  else if d.node? d.workingDirectory = some .directory then
    .ok ⟨rooted d.workingDirectory ++ path.text⟩
  else .error .notFound

/-- The first of some names for temporary files that nothing has. -/
def spare? (d : Disk) (base : Path) : Nat → Option String
  | 0 => none
  | n + 1 =>
    if (d.find (base.join (Temporary.name n))).isOk then d.spare? base n
    else some (Temporary.name n)

/-- Makes an empty temporary file in a directory. -/
def stage (d : Disk) (dir : Path) : Except Fault (Path × Disk) := do
  let base ← d.absolute dir
  match d.spare? base Temporary.tries with
  | none => throw .temporariesTaken
  | some name =>
    let staged ← d.write (base.join name) (some [])
    return (base.join name, staged)

/-- The fault with which a change of the file at a path is refused by its directory. -/
def refusalAt? (d : Disk) (change : Change) (path : Path) : Option Fault :=
  match d.resolve path with
  | .ok location => d.refusal? change location.dropLast
  | .error _ => none

/-- Gives an empty file its content. -/
def fill (d : Disk) (path : Path) (content : Bytes) : Except Fault Disk :=
  match d.refusalAt? .fill path with
  | some fault => .error fault
  | none => d.write path content

/-- Gives a file another name, under which it takes the place of any file that is there. -/
def rename (d : Disk) (source target : Path) : Except Fault Disk :=
  match d.refusalAt? .rename source with
  | some fault => .error fault
  | none => do
    let location ← d.resolve source
    let renamed ← d.write target (← d.read source)
    return renamed.remove location

/-- Takes away the file at a path. -/
def unlink (d : Disk) (path : Path) : Disk :=
  match d.resolve path with
  | .ok location => d.remove location
  | .error _ => d

/-- Stores a file by way of a temporary one in the given directory. -/
def store (d : Disk) (dir path : Path) (content : Bytes) : Except Fault Unit × Disk :=
  match d.stage dir with
  | .error fault => (.error fault, d)
  | .ok (temporary, staged) =>
    match staged.fill temporary content with
    | .error fault => (.error fault, staged.unlink temporary)
    | .ok filled =>
      match filled.rename temporary path with
      | .error fault => (.error fault, filled.unlink temporary)
      | .ok stored => (.ok (), stored)

end Disk

end MarkupSeeds
