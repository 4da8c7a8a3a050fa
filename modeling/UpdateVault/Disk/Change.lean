import UpdateVault.Disk.Basic

/-!
Changes to a disk. The primitive changes of files are values, so that a protocol made
of them is a list: running it is `run`, and a loss of power leaves what some of its first
changes did.

`replaceChanges` is the protocol by which a file gets its new content as a whole: the
content goes to a sibling, which is then renamed over the file.
-/

namespace UpdateVault.Disk

/-- A primitive change of a file. -/
inductive Change
  /-- Makes an empty file, or empties the one that is there. -/
  | create (place : Location)
  /-- Puts bytes at the end of a file. -/
  | append (place : Location) (data : Bytes)
  /-- Moves a file to another place, over a file that is there, in one instant. -/
  | rename (source target : Location)
  /-- Removes a file. -/
  | remove (place : Location)
  deriving DecidableEq, Repr

/-- The content of a file, where there has to be one. -/
def fileAt (d : Disk) (place : Location) : Except IoError Bytes := do
  match ← d.entry? place with
  | none => throw .noSuchFile
  | some .directory => throw .isDirectory
  | some (.file content) => return content

/-- The disk after a primitive change. -/
def Change.apply : Change → Disk → Except IoError Disk
  | create place, d => do
    match ← d.entry? place with
    | some .directory => throw .isDirectory
    | _ => return d.set place (.file [])
  | append place data, d => do
    let content ← d.fileAt place
    return d.set place (.file (content ++ data))
  | rename source target, d => do
    let content ← d.fileAt source
    match ← d.entry? target with
    | some .directory => throw .isDirectory
    | _ => return (d.clear source).set target (.file content)
  | remove place, d => do
    discard (d.fileAt place)
    return d.clear place

/-- Makes changes one after the other, up to the first that fails. -/
def run : List Change → Update IoError Disk Unit
  | [], d => .ok () d
  | c :: rest, d =>
    match c.apply d with
    | .error e => .error e d
    | .ok d' => run rest d'

/-- The changes that give a file its content as a whole, by way of a temporary sibling. -/
def replaceChanges (temporary target : Location) (data : Bytes) : List Change :=
  [.create temporary, .append temporary data, .rename temporary target]

/-- Removes a file if that is possible. -/
def discardFile (d : Disk) (place : Location) : Disk :=
  match (Change.remove place).apply d with
  | .ok d' => d'
  | .error _ => d

/-- Gives a file its content as a whole. If that fails, the temporary sibling goes. -/
def replace (temporary target : Location) (data : Bytes) : Update IoError Disk Unit := fun d =>
  match run (replaceChanges temporary target data) d with
  | .ok () d' => .ok () d'
  | .error e d' => .error e (d'.discardFile temporary)

/-- Writes a file in place. -/
def writeFile (p : Path) (data : Bytes) : Update IoError Disk Unit := fun d =>
  match d.fileSlot p with
  | .error e => .error e d
  | .ok place => run [.create place, .append place data] d

def removeFile (p : Path) : Update IoError Disk Unit := fun d =>
  match d.fileSlot p with
  | .error e => .error e d
  | .ok place => run [.remove place] d

/-! ## Directories -/

def makeDirectory (place : Location) (names : List String) : Update IoError Disk Unit := fun d =>
  match d.slot? place names with
  | .error e => .error e d
  | .ok none => .error .fileExists d
  | .ok (some new) =>
    if (d.node? new).isSome then .error .fileExists d else .ok () (d.set new .directory)

/-- Whether steps lead to a directory. -/
def leadsToDirectory (d : Disk) (place : Location) (names : List String) : Bool :=
  match d.walk place names with
  | .ok target => d.isDirectory target
  | .error _ => false

/-- Makes a directory; one that is there already will do. -/
def settleDirectory (place : Location) (names : List String) : Update IoError Disk Unit := fun d =>
  match makeDirectory place names d with
  | .ok () d' => .ok () d'
  | .error e d' => if d'.leadsToDirectory place names then .ok () d' else .error e d'

/-- Makes a directory, and first the directories around it if they are missing. The outer
steps are given innermost first. -/
def makeDirectories (place : Location) :
    List String → List String → Update IoError Disk Unit
  | names, outer => fun d =>
    match makeDirectory place names d with
    | .ok () d' => .ok () d'
    | .error .noSuchFile d' =>
      -- what is missing may be a directory on the way
      match outer with
      | [] => settleDirectory place names d'
      | _ :: rest =>
        match makeDirectories place outer.reverse rest d' with
        | .ok () d'' => settleDirectory place names d''
        | .error e d'' => .error e d''
    | .error e d' => if d'.leadsToDirectory place names then .ok () d' else .error e d'
termination_by _ outer => outer.length

/-- Makes the directory at a path with all that leads to it; the empty path needs nothing. -/
def makePath (p : Path) : Update IoError Disk Unit := fun d =>
  if p.text.isEmpty then .ok () d
  else match d.start p with
    | .error e => .error e d
    | .ok place => makeDirectories place p.names (p.names.filter (· != ".")).reverse.tail d

end UpdateVault.Disk
