import UpdateVault.Disk.Path
import UpdateVault.Error
import UpdateVault.Utf8

/-!
A disk: directories and files by their place, with a working directory, and the walk
along a path.

There are no links, so a place is the list of names that lead to it. It is kept with the
innermost name first: the tail of a place is the directory it is in.
-/

namespace UpdateVault

/-- A place in the tree, innermost name first; the top is the empty list. -/
abbrev Location := List String

/-- What is at a place. -/
inductive Node
  | directory
  | file (content : Bytes)
  deriving DecidableEq, Repr

/-- The tree and the directory where relative paths start. -/
structure Disk where
  nodes : SortedMap Location Node
  here : Location
  deriving DecidableEq

namespace Disk

/-- The longest name of a directory entry, in bytes. -/
def maxNameLength : Nat := 255

/-- The longest path that a call takes, in bytes. -/
def maxPathLength : Nat := 4095

/-- What is at a place; the top is always a directory. -/
def node? (d : Disk) (place : Location) : Option Node :=
  if place = [] then some .directory else d.nodes.get? place

/-- The disk with something put at a place. -/
def set (d : Disk) (place : Location) (node : Node) : Disk :=
  { d with nodes := d.nodes.insert place node }

/-- The disk with nothing at a place. -/
def clear (d : Disk) (place : Location) : Disk :=
  { d with nodes := d.nodes.erase place }

def isDirectory (d : Disk) (place : Location) : Bool := d.node? place = some .directory

/-- Why a name cannot be a directory entry. -/
def nameFault? (name : String) : Option IoError :=
  if name.toList.contains '\x00' then some .nulInName
  else if maxNameLength < name.utf8ByteSize then some .nameTooLong
  else none

/-- What is at a place, if its name can be there at all. -/
def entry? (d : Disk) (place : Location) : Except IoError (Option Node) :=
  match place.head?.bind nameFault? with
  | some e => .error e
  | none => .ok (d.node? place)

/-! ## Walking -/

/-- One step of a walk, which has to start from a directory. -/
def step (d : Disk) (place : Location) (name : String) : Except IoError Location :=
  match d.node? place with
  | none => .error .noSuchFile
  | some (.file _) => .error .notDirectory
  | some .directory =>
    if name = "." then .ok place
    else if name = ".." then .ok place.tail
    else match d.entry? (name :: place) with
      | .error e => .error e
      | .ok none => .error .noSuchFile
      | .ok (some _) => .ok (name :: place)

/-- The place that a list of steps leads to. -/
def walk (d : Disk) (place : Location) (names : List String) : Except IoError Location :=
  names.foldlM (d.step) place

/-- Why no call takes a path, wherever it leads. -/
def pathFault? (p : Path) : Option IoError :=
  if p.text.toList.contains '\x00' then some .nulInName
  else if maxPathLength < p.text.utf8ByteSize then some .nameTooLong
  else none

/-- Where the walk along a path starts. -/
def start (d : Disk) (p : Path) : Except IoError Location :=
  match pathFault? p with
  | some e => .error e
  | none =>
    if p.text.isEmpty then .error .noSuchFile
    else .ok (if p.isAbsolute then [] else d.here)

/-- The place of a path and what is there. -/
def find (d : Disk) (p : Path) : Except IoError (Location × Node) := do
  let place ← d.walk (← d.start p) p.names
  match d.node? place with
  | none => throw .noSuchFile
  | some .directory => return (place, .directory)
  | some (.file content) =>
    if p.endsInSlash then throw .notDirectory
    return (place, .file content)

/-- Where an entry that a path names may be made: a name in an existing directory. A path
that ends in `.` or `..`, or is the top, has no such place. -/
def slot? (d : Disk) (place : Location) (names : List String) :
    Except IoError (Option Location) := do
  match names.getLast? with
  | none => return none
  | some name =>
    let parent ← d.walk place names.dropLast
    if !d.isDirectory parent then throw .notDirectory
    if name = "." || name = ".." then return none
    discard (d.entry? (name :: parent))
    return some (name :: parent)

/-- The place for a file at a path. -/
def fileSlot (d : Disk) (p : Path) : Except IoError Location := do
  match ← d.slot? (← d.start p) p.names with
  | some place => if p.endsInSlash then throw .isDirectory else return place
  | none => throw .isDirectory

def «exists» (d : Disk) (p : Path) : Bool := (d.find p).toBool

def readFile (d : Disk) (p : Path) : Except IoError Bytes := do
  match ← d.find p with
  | (_, .file content) => return content
  | (_, .directory) => throw .isDirectory

def readText (d : Disk) (p : Path) : Except IoError String := do
  match Utf8.decode? (← d.readFile p) with
  | some text => return text
  | none => throw .notUtf8

/-- All that is below a directory: relative paths in the order of their bytes. -/
def listing (d : Disk) (top : Location) : List (String × Node) :=
  let below := d.nodes.toList.filterMap fun (place, node) =>
    if place ≠ top ∧ top.isSuffixOf place then
      some ("/".intercalate (place.take (place.length - top.length)).reverse, node)
    else none
  (SortedMap.ofList below).toList

end Disk

end UpdateVault
