import UpdateVault.Disk.Change
import UpdateVault.Storage.Basic

/-!
Items as files in a directory. A file gets its content as a whole, by way of a temporary
sibling, so a loss of power leaves the old content or the new one; opening the directory
removes the siblings that were left behind.
-/

namespace UpdateVault

/-- A directory of items. -/
structure ItemDirectory where
  root : Path
  place : Location
  disk : Disk

namespace ItemDirectory

/-- How the name of a temporary file ends. -/
def temporarySuffix : String := ".tmp"

def isTemporary (name : String) : Bool :=
  Text.endsWith temporarySuffix.toList name.toList

/-- Why the file of a name in a directory is out of reach: its path is one that no call
takes. -/
def reachFault? (root : Path) (name : String) : Option IoError :=
  Disk.pathFault? (root.join ⟨name⟩)

/-- Whether a node is a file with a temporary name directly in a directory, and within
reach. -/
def isLeftover (root : Path) (directory place : Location) : Node → Bool
  | .directory => false
  | .file _ => match place with
    | [] => false
    | name :: rest => rest = directory && isTemporary name && (reachFault? root name).isNone

/-- The disk without the temporary files of a directory. -/
def sweep (d : Disk) (root : Path) (directory : Location) : Disk :=
  { d with nodes := d.nodes.filter fun place node => !isLeftover root directory place node }

/-- Opens the directory at a path, which is made if it is missing. -/
def «open» (root : Path) : Update StorageError Disk ItemDirectory := fun d =>
  match Disk.makePath root d with
  | .error e d' => .error (.io e) d'
  | .ok () d' =>
    match d'.find root with
    | .error e => .error (.io e) d'
    | .ok (place, _) =>
      let swept := sweep d' root place
      .ok { root, place, disk := swept } swept

/-- Whether a name can be the name of an item: one that stays in the directory and is not
that of a temporary file. -/
def isItemName (name : String) : Bool :=
  !name.isEmpty && !name.toList.any (fun c => c = '/' || c = '\\')
    && name ≠ "." && name ≠ ".." && !isTemporary name

def fileOf (directory : Location) (name : String) : Location := name :: directory

def temporaryOf (directory : Location) (name : String) : Location :=
  (name ++ temporarySuffix) :: directory

/-- Makes a change of the disk. -/
def onDisk (change : Update IoError Disk Unit) : Update StorageError ItemDirectory Unit :=
  fun s => match change s.disk with
    | .ok () disk => .ok () { s with disk }
    | .error e disk => .error (.io e) { s with disk }

/-- Gives an item's file its content as a whole. -/
def write (name : String) (data : Bytes) : Update StorageError ItemDirectory Unit := fun s =>
  if isItemName name then
    -- the temporary file has the longer path of the two
    match reachFault? s.root (name ++ temporarySuffix) with
    | some e => .error (.io e) s
    | none => onDisk (Disk.replace (temporaryOf s.place name) (fileOf s.place name) data) s
  else .error (.unknownItem name) s

/-- The content of an item's file; an empty file counts as absent. -/
def read (s : ItemDirectory) (name : String) : Except StorageError Bytes :=
  if isItemName name then
    match reachFault? s.root name, s.disk.fileAt (fileOf s.place name) with
    | some e, _ => .error (.io e)
    | none, .ok [] => .error (.notFound name)
    | none, .ok content => .ok content
    | none, .error .noSuchFile => .error (.notFound name)
    | none, .error e => .error (.io e)
  else .error (.unknownItem name)

/-- Removes the file of an item, also an empty one. -/
def delete (name : String) : Update StorageError ItemDirectory Unit := fun s =>
  if isItemName name then
    match reachFault? s.root name, (Disk.Change.remove (fileOf s.place name)).apply s.disk with
    | some e, _ => .error (.io e) s
    | none, .ok disk => .ok () { s with disk }
    | none, .error .noSuchFile => .error (.notFound name) s
    | none, .error e => .error (.io e) s
  else .error (.unknownItem name) s

instance : ItemStorage ItemDirectory where
  write := write
  read := read
  delete := delete

end ItemDirectory

end UpdateVault
