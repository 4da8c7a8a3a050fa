import UpdateVault.Flash.ImageFile
import UpdateVault.Partition.Basic
import UpdateVault.Storage.Directory

/-!
The storage that a configuration names, with the disk it is on.
-/

namespace UpdateVault

instance {φ : Type} [FlashMemory φ] : ItemStorage (Partition φ) where
  write := Partition.write
  read := Partition.read
  delete := Partition.delete

/-- Storage of one of the three kinds. -/
inductive SelectedStorage
  | directory (items : ItemDirectory)
  | partition (items : Partition FlashImageFile)
  | absent (disk : Disk)

namespace SelectedStorage

def disk : SelectedStorage → Disk
  | directory items => items.disk
  | partition items => items.device.disk
  | absent disk => disk

/-- Opens the partition in the image file that a configuration names. -/
def openPartition (c : Config) : Update StorageError Disk (Partition FlashImageFile) := fun d =>
  match Disk.makePath c.root d with
  | .error e d => .error (.io e) d
  | .ok () d =>
    let image := c.root.join c.partition.image
    match FlashImageFile.open image c.partition.sectorSize c.partition.sectorCount d with
    | .error e d => .error (.io e) d
    | .ok device d =>
      match Partition.mount device with
      | .error e => .error e d
      | .ok p => .ok p d

/-- Opens the storage that a configuration names, once the configuration is valid. -/
def «open» (c : Config) : Update StorageError Disk SelectedStorage := fun d =>
  match c.violation? with
  | some v => .error (.invalidInput (.config v)) d
  | none =>
    match c.backend with
    | .file => (directory <$> ItemDirectory.open c.root) d
    | .nvs => (partition <$> openPartition c) d
    | .none => .ok (absent d) d

/-- Does a change on a part of the storage. -/
def within {ε σ τ α : Type} (wrap : σ → τ) (change : Update ε σ α) (s : σ) :
    EStateM.Result ε τ α :=
  match change s with
  | .ok a s' => .ok a (wrap s')
  | .error e s' => .error e (wrap s')

def write (name : String) (data : Bytes) : Update StorageError SelectedStorage Unit
  | directory items => within directory (ItemStorage.write name data) items
  | partition items => within partition (ItemStorage.write name data) items
  | absent disk => within (fun _ => absent disk) (ItemStorage.write name data) NoStorage.mk

def read (s : SelectedStorage) (name : String) : Except StorageError Bytes :=
  match s with
  | directory items => ItemStorage.read items name
  | partition items => ItemStorage.read items name
  | absent _ => ItemStorage.read NoStorage.mk name

def delete (name : String) : Update StorageError SelectedStorage Unit
  | directory items => within directory (ItemStorage.delete name) items
  | partition items => within partition (ItemStorage.delete name) items
  | absent disk => within (fun _ => absent disk) (ItemStorage.delete name) NoStorage.mk

instance : ItemStorage SelectedStorage where
  write := write
  read := read
  delete := delete

end SelectedStorage

end UpdateVault
