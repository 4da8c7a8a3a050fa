import UpdateVault.Checkpoint.Basic
import UpdateVault.Disk.Path
import UpdateVault.Provides.Text

/-!
The configuration of a vault and the conditions it has to meet.
-/

namespace UpdateVault

/-- What the items of a vault are kept in. -/
inductive StorageKind
  /-- A directory with a file for every item. -/
  | file
  /-- A flash partition in an image file. -/
  | nvs
  /-- Nothing; every call is refused. -/
  | none
  deriving DecidableEq, Repr

/-- The image file of a flash partition and its geometry. -/
structure PartitionConfig where
  image : Path := ⟨"nvs.img"⟩
  sectorSize : Nat := 4096
  sectorCount : Nat := 4
  deriving DecidableEq, Repr

/-- The configuration of a vault. -/
structure Config where
  root : Path
  backend : StorageKind := .file
  layout : CheckpointLayout := .checked
  duplicates : RepeatPolicy := .lastWins
  partition : PartitionConfig := {}
  deriving DecidableEq, Repr

namespace StorageKind

/-- The name of a backend in a configuration and on the command line. -/
def name : StorageKind → String
  | file => "file"
  | nvs => "nvs"
  | none => "none"

/-- The name of a backend in messages. -/
def label : StorageKind → String
  | file => "File"
  | nvs => "Nvs"
  | none => "Stub"

def all : List StorageKind := [file, nvs, none]

/-- The kind of storage with a name, spelled exactly. -/
def ofName? (s : String) : Option StorageKind := all.find? (·.name == s)

@[simp] theorem ofName?_name (k : StorageKind) : ofName? k.name = some k := by
  cases k <;> decide

end StorageKind

namespace CheckpointLayout

def name : CheckpointLayout → String
  | plain => "plain"
  | checked => "checked"

def ofName? (s : String) : Option CheckpointLayout := [plain, checked].find? (·.name == s)

@[simp] theorem ofName?_name (f : CheckpointLayout) : ofName? f.name = some f := by
  cases f <;> decide

end CheckpointLayout

namespace RepeatPolicy

def name : RepeatPolicy → String
  | lastWins => "last_wins"
  | reject => "reject"

def ofName? (s : String) : Option RepeatPolicy := [lastWins, reject].find? (·.name == s)

@[simp] theorem ofName?_name (p : RepeatPolicy) : ofName? p.name = some p := by
  cases p <;> decide

end RepeatPolicy

namespace Config

/-- The name of the configuration file in a storage root. -/
def fileName : String := "ota-state.config.json"

/-- The largest flash image, 64 MiB. -/
def maxImageLength : Nat := 67108864

/-- What a configuration can violate. -/
inductive Violation
  | emptyRoot
  | tooFewSectors
  | imageTooLarge (sectorCount sectorSize : Nat)
  | imageOutsideRoot
  deriving DecidableEq, Repr

def Violation.message : Violation → String
  | emptyRoot => "storage_root is empty"
  | tooFewSectors => "nvs needs a non-zero sector_size and at least 2 sectors"
  | imageTooLarge sectorCount sectorSize =>
    s!"nvs geometry {sectorCount} x {sectorSize} exceeds {maxImageLength} bytes"
  | imageOutsideRoot => "nvs.image must be a file name inside storage_root"

/-- The first condition a partition does not meet. -/
def partitionViolation? (p : PartitionConfig) : Option Violation :=
  if p.sectorSize = 0 ∨ p.sectorCount < 2 then some .tooFewSectors
  else if maxImageLength < p.sectorSize * p.sectorCount then
    some (.imageTooLarge p.sectorCount p.sectorSize)
  else if p.image.isSingle then none
  else some .imageOutsideRoot

/-- The first condition a configuration does not meet; those of the partition bind only
where there is one. -/
def violation? (c : Config) : Option Violation :=
  if c.root.text.isEmpty then some .emptyRoot
  else if c.backend = .nvs then partitionViolation? c.partition
  else none

end Config

end UpdateVault
