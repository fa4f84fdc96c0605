/-!
# Faults of the disk

The ways in which access to a file or directory fails, with the wording that goes
into messages.
-/

namespace MarkupSeeds

inductive Fault
  | notFound
  | alreadyExists
  | notADirectory
  | isADirectory
  | permissionDenied
  | readOnly
  | storageFull
  | nameTooLong
  /-- Every name that was tried for a temporary file is taken. -/
  | temporariesTaken
  /-- The path contains the character that ends a path. -/
  | nulInPath
  deriving DecidableEq, Repr

def Fault.reason : Fault → String
  | notFound => "No such file or directory (os error 2)"
  | alreadyExists => "File exists (os error 17)"
  | notADirectory => "Not a directory (os error 20)"
  | isADirectory => "Is a directory (os error 21)"
  | permissionDenied => "Permission denied (os error 13)"
  | readOnly => "Read-only file system (os error 30)"
  | storageFull => "No space left on device (os error 28)"
  | nameTooLong => "File name too long (os error 36)"
  | temporariesTaken => "too many temporary files exist"
  | nulInPath => "file name contained an unexpected NUL byte"

end MarkupSeeds
