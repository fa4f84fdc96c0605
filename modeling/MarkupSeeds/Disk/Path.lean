import MarkupSeeds.Disk.Fault
import MarkupSeeds.Text.Split

/-!
# Paths

A path is a text whose segments are separated by slashes.  It is kept as it was
given, since messages show it that way.
-/

namespace MarkupSeeds

structure Path where
  text : String
  deriving DecidableEq, Repr

namespace Path

/-- The pieces between slashes, empty ones included. -/
def segments (path : Path) : List String := (splitAt '/' path.text.toList).map String.ofList

/-- The last segment. -/
def fileName (path : Path) : String := path.segments.getLast?.getD ""

/-- The path of an entry of a directory.  The directory is left as it was given, so a
slash is added only where there is none. -/
def join (dir : Path) (name : String) : Path :=
  match dir.text.toList.getLast? with
  | none => ⟨name⟩
  | some '/' => ⟨dir.text ++ name⟩
  | some _ => ⟨dir.text ++ "/" ++ name⟩

/-- A path starts at the root if it begins with a slash. -/
def isAbsolute (path : Path) : Bool := path.text.toList.head? == some '/'

/-- The number of bytes from which on a path is refused. -/
def lengthLimit : Nat := 4096

/-- The number of bytes that a name may have at most. -/
def nameLimit : Nat := 255

/-- The fault of a path that is refused before anything is looked up. -/
def fault? (path : Path) : Option Fault :=
  if path.text.toList.contains '\x00' then some .nulInPath
  else if path.text.isEmpty then some .notFound
  else if lengthLimit ≤ path.text.utf8ByteSize then some .nameTooLong
  else none

/-- What follows the last dot of a name.  A name that merely begins with a dot has no
extension. -/
def extension? (name : String) : Option (List Char) :=
  let reversed := name.toList.reverse
  match reversed.dropWhile (· != '.') with
  | _ :: _ :: _ => some (reversed.takeWhile (· != '.')).reverse
  | _ => none

end Path

end MarkupSeeds
