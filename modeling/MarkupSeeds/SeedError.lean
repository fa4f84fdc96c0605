import MarkupSeeds.Disk.Path

/-!
# Errors of a run

A fixture that cannot be read is skipped.  Every other error ends the run.
-/

namespace MarkupSeeds

inductive SeedError
  | fixtureListing (path : Path) (reason : String)
  | fixtureRead (path : Path) (reason : String)
  | corpusDirectory (path : Path) (reason : String)
  | seedWrite (path : Path) (reason : String)
  | report (reason : String)
  deriving DecidableEq, Repr

namespace SeedError

def message : SeedError → String
  | fixtureListing path reason => "cannot list fixture directory " ++ path.text ++ ": " ++ reason
  | fixtureRead path reason => "cannot read fixture " ++ path.text ++ ": " ++ reason
  | corpusDirectory path reason =>
    "cannot create corpus directory " ++ path.text ++ ": " ++ reason
  | seedWrite path reason => "cannot write seed " ++ path.text ++ ": " ++ reason
  | report reason => "cannot serialize run report: " ++ reason

/-- Whether a run carries on after the error. -/
def isRecoverable : SeedError → Bool
  | fixtureRead .. => true
  | _ => false

end SeedError

end MarkupSeeds
