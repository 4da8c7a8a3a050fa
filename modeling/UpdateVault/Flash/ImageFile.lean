import UpdateVault.Disk.Change
import UpdateVault.Flash.Device

/-!
A flash device kept in a file on a disk, for hosts without a real one.

A device that was opened goes on with the file it opened, also when the file has been
removed from its directory since.
-/

namespace UpdateVault

/-- The file of an open device: an entry of the disk, or one that was removed meanwhile. -/
inductive FileHandle
  | linked (place : Location)
  | unlinked (content : Bytes)
  deriving DecidableEq, Repr

/-- An open flash image. -/
structure FlashImageFile where
  path : Path
  sectorSize : Nat
  sectorCount : Nat
  handle : FileHandle
  disk : Disk

namespace FlashImageFile

def content (f : FlashImageFile) : Bytes :=
  match f.handle with
  | .unlinked content => content
  | .linked place => match f.disk.node? place with
    | some (.file content) => content
    | _ => []

/-- The device with other bytes in its image. -/
def setContent (f : FlashImageFile) (content : Bytes) : FlashImageFile :=
  match f.handle with
  | .unlinked _ => { f with handle := .unlinked content }
  | .linked place => { f with disk := f.disk.set place (.file content) }

/-- A file's content after writing at an offset; a gap before the offset reads as zeros. -/
def writeAt (content : Bytes) (offset : Nat) (data : Bytes) : Bytes :=
  if data.isEmpty then content
  else content.take offset ++ List.replicate (offset - content.length) 0 ++ data
    ++ content.drop (offset + data.length)

/-! ## Opening -/

/-- Makes an erased image where there is no file yet. When there are too many bytes for a
buffer, the temporary file has been made by then, and stays. -/
def create (path : Path) (capacity : Nat) : Update IoError Disk Unit := fun d =>
  match d.fileSlot (path.extend ".tmp") with
  | .error e => .error e d
  | .ok temporary =>
    match Flash.erasedBuffer capacity with
    | .error e => (Disk.run [.create temporary] >>= fun _ => throw e) d
    | .ok image =>
      match d.fileSlot path with
      | .error e => .error e d
      | .ok target => Disk.replace temporary target image d

/-- Opens the image at a path. A missing image is made; one that is too short gets the
erased bytes it lacks, as they were never programmed; one that is too long is refused. -/
def «open» (path : Path) (sectorSize sectorCount : Nat) :
    Update IoError Disk FlashImageFile := do
  let capacity ← liftExcept (Flash.capacity sectorSize sectorCount)
  if !(← get).exists path then create path capacity
  let (place, node) ← liftExcept ((← get).find path)
  match node with
  | .directory => throw .isDirectory
  | .file content =>
    if capacity < content.length then throw (.imageTooLong path content.length capacity)
    if content.length < capacity then
      Disk.run [.append place (← liftExcept (Flash.erasedBuffer (capacity - content.length)))]
    return { path, sectorSize, sectorCount, handle := .linked place, disk := ← get }
where
  liftExcept {α : Type} : Except IoError α → Update IoError Disk α
    | .ok a => pure a
    | .error e => throw e

/-! ## Access -/

/-- The size of the device by its geometry, whatever the length of its file. -/
def capacity (f : FlashImageFile) : Nat := f.sectorSize * f.sectorCount

def read (f : FlashImageFile) (offset len : Nat) : Except IoError Bytes := do
  Flash.ensureInside f.capacity offset len
  let bytes := Flash.readAt f.content offset len
  if bytes.length < len then throw .endOfFile
  return bytes

/-- Programs data by reading what is there and writing back what remains of it. -/
def program (offset : Nat) (data : Bytes) : Update IoError FlashImageFile Unit := fun f =>
  match f.read offset data.length with
  | .error e => .error e f
  | .ok current =>
    .ok () (f.setContent (writeAt f.content offset (List.zipWith (· &&& ·) current data)))

def eraseSector (sector : Nat) : Update IoError FlashImageFile Unit := fun f =>
  match Flash.sectorAddress f.capacity f.sectorSize sector with
  | .error e => .error e f
  | .ok start => .ok () (f.setContent (writeAt f.content start (Bytes.erased f.sectorSize)))

instance : FlashMemory FlashImageFile where
  sectorSize := FlashImageFile.sectorSize
  sectorCount f := .ok f.sectorCount
  read := read
  program := program
  eraseSector := eraseSector

/-! ## Changes behind the device's back -/

/-- The device after the file at a place has been removed from its directory. -/
def afterRemoval (f : FlashImageFile) (place : Location) (disk : Disk) : FlashImageFile :=
  if f.handle = .linked place then { f with handle := .unlinked f.content, disk }
  else { f with disk }

end FlashImageFile

end UpdateVault
