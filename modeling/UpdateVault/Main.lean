import UpdateVault.CommandLine.Program

/-!
The program on the file system of the machine: what a command can look at is read into a
disk, the command runs on that disk, and what it changed is written back. A file gets its
new content by way of a temporary sibling.
-/

namespace UpdateVault.Machine

def placeText (place : Location) : String := "/" ++ "/".intercalate place.reverse

/-- The places on the way along steps. -/
def placesAlong : Location → List String → List Location
  | place, [] => [place]
  | place, name :: rest =>
    let next := if name = "." then place else if name = ".." then place.tail else name :: place
    place :: placesAlong next rest

/-- What the machine has at a place. -/
def nodeAt (place : Location) : IO (Option Node) := do
  let path := (← IO.currentDir) / placeText place
  if ← path.isDir then return some .directory
  else if ← path.pathExists then return some (.file (← IO.FS.readBinFile path).data.toList)
  else return none

/-- The disk with what the machine has at a place. -/
def addPlace (d : Disk) (place : Location) : IO Disk := do
  match ← nodeAt place with
  | some node => return if place = [] then d else d.set place node
  | none => return d

/-- The disk with all that leads to a path, unless the operating system does not take the path. -/
def addPath (d : Disk) (p : Path) : IO Disk :=
  if (Disk.pathFault? p).isSome then pure d
  else (placesAlong (if p.isAbsolute then [] else d.here) p.names).foldlM addPlace d

/-- The disk with all that leads to a path, and with what is in the directory there. -/
def addDirectory (d : Disk) (p : Path) : IO Disk := do
  let d ← addPath d p
  match d.find p with
  | .ok (place, .directory) =>
    let entries ← ((← IO.currentDir) / placeText place).readDir
    entries.toList.foldlM (fun d e => addPlace d (e.fileName :: place)) d
  | _ => return d

/-- The part of the machine's file system that an invocation is about: the files it was given, its
root, and the storage root and image that the configuration there names. -/
def snapshot (e : CommandLine.Environment) (i : CommandLine.Invocation) : IO Disk := do
  let here := (Path.mk (← IO.currentDir).toString).names.reverse
  let empty : Disk := { nodes := .empty, here }
  let around ← addPath empty ⟨placeText here⟩
  let withFiles ← i.command.files.foldlM addPath around
  let root := i.rootIn e
  let withRoot ← addDirectory withFiles root
  match CommandLine.configOf root withRoot with
  | .ok c => addPath (← addDirectory withRoot c.root) (c.root.join c.partition.image)
  | .error _ => return withRoot

/-- Makes a place hold a node. -/
def store (place : Location) : Node → IO Unit
  | .directory => do IO.FS.createDir ((← IO.currentDir) / placeText place)
  | .file content => do
    let path := (← IO.currentDir) / placeText place
    let temporary := (← IO.currentDir) / (placeText place ++ ItemDirectory.temporarySuffix)
    IO.FS.writeBinFile temporary ⟨content.toArray⟩
    IO.FS.rename temporary path

/-- Writes back what differs between two disks, outer places first. -/
def writeBack (before after : Disk) : IO Unit := do
  let outerFirst (l : List (Location × Node)) := l.mergeSort fun a b => a.1.length ≤ b.1.length
  for (place, node) in outerFirst after.nodes.toList do
    if before.node? place ≠ some node then store place node
  for (place, _) in before.nodes.toList do
    if (after.node? place).isNone then IO.FS.removeFile ((← IO.currentDir) / placeText place)

/-- What the program takes from its surroundings. -/
def surroundings : IO CommandLine.Environment := do
  return {
    home := ← IO.getEnv "HOME"
    dataHome := ← IO.getEnv "XDG_DATA_HOME"
    colour := ← IO.getEnv "CLICOLOR"
    noColour := ← IO.getEnv "NO_COLOR"
    forceColour := ← IO.getEnv "CLICOLOR_FORCE"
    isTerminal := ← (← IO.getStdout).isTty }

end UpdateVault.Machine

open UpdateVault in
/-- Runs the program on the machine it is started on. -/
def main (arguments : List String) : IO UInt32 := do
  let e ← Machine.surroundings
  let before ← match CommandLine.parse arguments with
    | .ok i => Machine.snapshot e i
    | .error _ => pure { nodes := .empty, here := [] }
  let outcome := CommandLine.run e arguments before
  Machine.writeBack before outcome.disk
  IO.print outcome.output
  IO.eprint outcome.errors
  return UInt32.ofNat outcome.code
