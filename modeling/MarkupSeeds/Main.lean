import MarkupSeeds.Program

/-!
# The program on a real disk

What the program may look at is copied from the real disk, the program runs on the
copy, and what it has changed is carried over.  All decisions are made in between.
-/

namespace MarkupSeeds.RealDisk

/-- The content of a file, if it can be read. -/
def content? (real : String) : IO (Option Bytes) := do
  try
    let content ← IO.FS.readBinFile real
    return some content.toList
  catch _ => return none

/-- Copies a file, or a directory without its entries.  A file that cannot be read is there
on the copy as well, without its content. -/
def copy (d : Disk) (path : Path) : IO Disk := do
  let real := (← IO.currentDir) / path.text
  if ← real.isDir then return (d.makeDirectories path).2
  if ← real.pathExists then
    match d.write path (← content? (toString real)) with
    | .ok copied => return copied
    | .error _ => return d
  return d

/-- Copies a directory with its entries and whatever its path leads through. -/
def copyDirectory (d : Disk) (path : Path) : IO Disk := do
  let mut d := d
  for part in Disk.leadingParts path.segments do
    d ← copy d ⟨"/".intercalate part⟩
  let real := (← IO.currentDir) / path.text
  if ← real.isDir then
    for entry in ← real.readDir do
      d ← copy d (path.join entry.fileName)
  return d

/-- An empty copy that is at work in the current directory. -/
def atHome : IO Disk := do
  let home : Path := ⟨toString (← IO.currentDir)⟩
  let d := (Disk.empty.makeDirectories home).2
  return { d with workingDirectory := home.segments.filter (· != "") }

/-- Carries over what is new or has changed, the oldest first.  A file gets its name only
once it is complete. -/
def carryOver (earlier later : Disk) : IO Unit := do
  for (location, node) in later.entries.reverse do
    if earlier.node? location != some node then
      let real := "/" ++ "/".intercalate location
      match node with
      | .directory => IO.FS.createDirAll real
      | .file none => pure ()
      | .file (some content) =>
        let unfinished := real ++ ".part"
        IO.FS.writeBinFile unfinished ⟨content.toArray⟩
        IO.FS.rename unfinished real

end MarkupSeeds.RealDisk

open MarkupSeeds in
def main (arguments : List String) : IO UInt32 := do
  let mut disk ← RealDisk.atHome
  if let .run config _ := CommandLine.parse arguments then
    disk ← RealDisk.copyDirectory disk config.fixturesDir
    disk ← RealDisk.copyDirectory disk config.corpusDir
  let ending := Program.execute disk arguments (← IO.getEnv "SEED_LOG")
  RealDisk.carryOver disk ending.disk
  for line in ending.log do
    IO.eprintln line
  IO.print ending.output
  return UInt32.ofNat ending.code
