import MarkupSeeds.Disk.Staging
import MarkupSeeds.Notice
import MarkupSeeds.Seed.Name
import MarkupSeeds.Seed.Outcome
import MarkupSeeds.SeedError

/-!
# Writing seeds

A writer stores pairs in a corpus directory, each in a file that is named by its
content, and never writes what is there already.  A file that does not hold what its
name says is replaced.  Seeds are stored by way of temporary files, so that a name never
stands for an unfinished one.  A dry run stores nothing; it remembers the paths that it would
have written, so that its answers are those of a real run.
-/

namespace MarkupSeeds

structure Writer where
  dir : Path
  dryRun : Bool
  /-- The paths that a dry run has counted as created. -/
  planned : List Path
  deriving DecidableEq, Repr

/-- What handing over one seed leads to. -/
structure Storing where
  result : Except SeedError Outcome
  writer : Writer
  disk : Disk
  notices : List Notice

namespace Writer

/-- A writer whose directory is made if it is missing. -/
def create (d : Disk) (dir : Path) : Except SeedError Writer × Disk :=
  match d.makeDirectories dir with
  | (.ok (), made) => (.ok ⟨dir, false, []⟩, made)
  | (.error fault, made) => (.error (.corpusDirectory dir fault.reason), made)

/-- A writer that only looks.  Its directory need not exist. -/
def ofDryRun (dir : Path) : Writer := ⟨dir, true, []⟩

/-- The path of a seed with the given stored form. -/
def pathOf (w : Writer) (strategy : Strategy) (bytes : Bytes) : Path :=
  w.dir.join (seedName strategy bytes)

/-- Stores a seed that is not there, or in a dry run makes a note of it.  What the error
says about the temporary file beyond the fault is left out, as its name is drawn at
random. -/
def store (w : Writer) (d : Disk) (path : Path) (bytes : Bytes) : Storing :=
  if w.dryRun then
    if path ∈ w.planned then ⟨.ok .alreadyPresent, w, d, []⟩
    else ⟨.ok .created, { w with planned := path :: w.planned }, d, []⟩
  else
    match d.store w.dir path bytes with
    | (.ok (), stored) =>
      ⟨.ok .created, w, stored,
        [⟨.debug, .seed, "wrote " ++ path.text ++ " (" ++ toString bytes.length ++ " bytes)"⟩]⟩
    | (.error fault, left) => ⟨.error (.seedWrite path fault.reason), w, left, []⟩

/-- Hands over one seed. -/
def write (w : Writer) (d : Disk) (strategy : Strategy) (pair : Pair) : Storing :=
  let bytes := pair.encode
  let path := w.pathOf strategy bytes
  match d.read path with
  | .ok content =>
    if content = bytes then
      ⟨.ok .alreadyPresent, w, d, [⟨.debug, .seed, path.text ++ " already present"⟩]⟩
    else
      let storing := w.store d path bytes
      { storing with
        notices :=
          ⟨.warn, .seed, path.text ++ " does not match its name, rewriting"⟩ :: storing.notices }
  | .error .notFound => w.store d path bytes
  | .error fault => ⟨.error (.seedWrite path fault.reason), w, d, []⟩

end Writer

end MarkupSeeds
