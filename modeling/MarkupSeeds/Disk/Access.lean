import MarkupSeeds.Disk.Tree

/-!
# Access by path

A path leads to a location by following its segments.  Each segment needs a directory
to stand in, also an empty one, so that a slash at the end of a path to a file is a
fault.  From a working directory that was removed no path leads anywhere.  Reading and
listing leave the disk as it is.  Writing a file either puts exactly that file in place
or changes nothing.  Making a directory makes each missing part of its path in turn, and
what was made stays even if a later part fails.
-/

namespace MarkupSeeds.Disk

/-- The fault of looking something up where there is no directory. -/
def barrier (d : Disk) (location : Location) : Fault :=
  if d.node? location = none then .notFound else .notADirectory

/-- Follows segments from a location. -/
def walk (d : Disk) (location : Location) : List String → Except Fault Location
  | [] => .ok location
  | segment :: rest =>
    if d.node? location = some .directory then
      if segment = "" ∨ segment = "." then d.walk location rest
      else if segment = ".." then d.walk location.dropLast rest
      else if Path.nameLimit < segment.utf8ByteSize then .error .nameTooLong
      else if d.node? (location ++ [segment]) = none then .error .notFound
      else d.walk (location ++ [segment]) rest
    else .error (d.barrier location)

/-- The location at which a path starts. -/
def start (d : Disk) (path : Path) : Location :=
  if path.isAbsolute then [] else d.workingDirectory

def resolve (d : Disk) (path : Path) : Except Fault Location :=
  match path.fault? with
  | some fault => .error fault
  | none => d.walk (d.start path) path.segments

/-- What a path leads to. -/
def find (d : Disk) (path : Path) : Except Fault Node := do
  let location ← d.resolve path
  match d.node? location with
  | some node => return node
  | none => throw .notFound

def read (d : Disk) (path : Path) : Except Fault Bytes := do
  match ← d.find path with
  | .file (some content) => return content
  | .file none => throw .permissionDenied
  | .directory => throw .isADirectory

/-- The names in a directory in ascending order. -/
def list (d : Disk) (path : Path) : Except Fault (List String) := do
  let location ← d.resolve path
  match d.node? location with
  | some .directory => return d.children location
  | some (.file _) => throw .notADirectory
  | none => throw .notFound

def isFile (d : Disk) (path : Path) : Bool :=
  match d.find path with
  | .ok (.file _) => true
  | _ => false

/-- The directory for an entry of the given name. -/
def parent (d : Disk) (location : Location) (segments : List String) (name : String) :
    Except Fault { parent : Location // d.node? parent = some .directory } := do
  let parent ← d.walk location segments
  if hparent : d.node? parent = some .directory then
    if Path.nameLimit < name.utf8ByteSize then throw .nameTooLong
    else return ⟨parent, hparent⟩
  else throw (d.barrier parent)

/-- A segment that names no entry of its own. -/
def isStep (segment : String) : Bool :=
  segment == "" || segment == "." || segment == ".." || segment.toList.contains '/'

theorem isName_iff_not_isStep {segment : String} : IsName segment ↔ ¬ isStep segment := by
  simp [IsName, isStep, and_comm, and_assoc]

/-- Writes a file, in place of any file that is there. -/
def write (d : Disk) (path : Path) (content : Option Bytes) : Except Fault Disk :=
  match path.fault? with
  | some fault => .error fault
  | none => do
    if hstep : isStep path.fileName then
      let _ ← d.walk (d.start path) path.segments
      throw .isADirectory
    else
      let ⟨parent, hparent⟩ ← d.parent (d.start path) path.segments.dropLast path.fileName
      let location := parent ++ [path.fileName]
      if hfree : d.node? location = some .directory then throw .isADirectory
      else match d.refusal? .enter parent with
        | some fault => throw fault
        | none =>
          return d.set location (.file content) (by simpa [location] using hparent) hfree
            (by simpa [location] using isName_iff_not_isStep.mpr hstep)

def dropEmptyEnd (segments : List String) : List String :=
  (segments.reverse.dropWhile (· == "")).reverse

/-- Makes a single directory in one that exists. -/
def makeDirectory (d : Disk) (location : Location) (segments : List String) :
    Except Fault Disk := do
  let segments := dropEmptyEnd segments
  let name := segments.getLast?.getD ""
  if hstep : isStep name then
    let _ ← d.walk location segments
    throw .alreadyExists
  else
    let ⟨parent, hparent⟩ ← d.parent location segments.dropLast name
    let location := parent ++ [name]
    match hnode : d.node? location with
    | some _ => throw .alreadyExists
    | none =>
      match d.refusal? .enter parent with
      | some fault => throw fault
      | none =>
        return d.set location .directory (by simpa [location] using hparent) (by simp [hnode])
          (by simpa [location] using isName_iff_not_isStep.mpr hstep)

def isDirectory (d : Disk) (location : Location) (segments : List String) : Bool :=
  match d.walk location segments with
  | .ok found => d.node? found == some .directory
  | .error _ => false

/-- Makes directories one after another, content with those that are there already. -/
def makeEach (d : Disk) (location : Location) : List (List String) → Except Fault Unit × Disk
  | [] => (.ok (), d)
  | segments :: rest =>
    match d.makeDirectory location segments with
    | .ok made => made.makeEach location rest
    | .error fault =>
      if d.isDirectory location segments then d.makeEach location rest else (.error fault, d)

/-- The leading parts of a path that name something, the whole path last. -/
def leadingParts (segments : List String) : List (List String) :=
  let parts := (List.range segments.length).map fun i => segments.take (i + 1)
  let naming := parts.filter fun part =>
    part.getLast? != some "" && part.getLast? != some "."
  naming.dropLast ++ [segments]

/-- Makes a directory together with the missing directories above it.  The empty path
stands for the working directory, which is there. -/
def makeDirectories (d : Disk) (path : Path) : Except Fault Unit × Disk :=
  if path.text = "" then (.ok (), d)
  else match path.fault? with
    | some fault => (.error fault, d)
    | none =>
      let location := d.start path
      match d.makeDirectory location path.segments with
      | .ok made => (.ok (), made)
      | .error .notFound => d.makeEach location (leadingParts path.segments)
      | .error fault =>
        if d.isDirectory location path.segments then (.ok (), d) else (.error fault, d)

end MarkupSeeds.Disk
