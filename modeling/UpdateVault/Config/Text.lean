import UpdateVault.Config.Basic
import UpdateVault.Json.Print
import UpdateVault.Json.Typed

/-!
The text of a configuration: a JSON object with a member for each field, on lines of their
own. A reader asks for the storage root only; for all other fields it has defaults.
-/

namespace UpdateVault

open Json

namespace PartitionConfig

/-- A partition with the fields `image`, `sector_size` and `sector_count`. -/
def toJson (p : PartitionConfig) : Value :=
  .object [("image", .string p.image.text), ("sector_size", .natural p.sectorSize),
    ("sector_count", .natural p.sectorCount)]

/-- The fields of a partition that have been read. -/
structure Draft where
  image : Option Path := none
  sectorSize : Option Nat := none
  sectorCount : Option Nat := none

def fields : List (Reader.Field Draft) :=
  [.make "image" (Path.mk <$> Reader.text) (·.image) fun x d => { d with image := some x },
    .make "sector_size" Reader.natural (·.sectorSize) fun x d => { d with sectorSize := some x },
    .make "sector_count" Reader.natural (·.sectorCount)
      fun x d => { d with sectorCount := some x }]

/-- The partition of a draft; a field that is missing has its default. -/
def Draft.finish (d : Draft) : PartitionConfig :=
  let default : PartitionConfig := {}
  { image := d.image.getD default.image
    sectorSize := d.sectorSize.getD default.sectorSize
    sectorCount := d.sectorCount.getD default.sectorCount }

/-- Reads a partition, none of whose members is required. -/
def reader : Reader PartitionConfig := do return (← Reader.record fields {}).finish

end PartitionConfig

namespace Config

/-- A configuration with the fields `storage_root`, `backend`, `record_format`,
`provides_duplicates` and `nvs`. -/
def toJson (c : Config) : Value :=
  .object [("storage_root", .string c.root.text), ("backend", .string c.backend.name),
    ("record_format", .string c.layout.name),
    ("provides_duplicates", .string c.duplicates.name), ("nvs", c.partition.toJson)]

def text (c : Config) : String := c.toJson.pretty

structure Draft where
  root : Option Path := none
  backend : Option StorageKind := none
  layout : Option CheckpointLayout := none
  duplicates : Option RepeatPolicy := none
  partition : Option PartitionConfig := none

def fields : List (Reader.Field Draft) :=
  [.make "storage_root" (Path.mk <$> Reader.text) (·.root)
      fun x d => { d with root := some x },
    .make "backend" (Reader.choice StorageKind.ofName?) (·.backend)
      fun x d => { d with backend := some x },
    .make "record_format" (Reader.choice CheckpointLayout.ofName?) (·.layout)
      fun x d => { d with layout := some x },
    .make "provides_duplicates" (Reader.choice RepeatPolicy.ofName?) (·.duplicates)
      fun x d => { d with duplicates := some x },
    .make "nvs" PartitionConfig.reader (·.partition) fun x d => { d with partition := some x }]

/-- The configuration of a draft with a storage root; a field that is missing otherwise has
its default. -/
def Draft.finish (d : Draft) (root : Path) : Config :=
  let default : Config := { root }
  { root
    backend := d.backend.getD default.backend
    layout := d.layout.getD default.layout
    duplicates := d.duplicates.getD default.duplicates
    partition := d.partition.getD default.partition }

/-- Reads a configuration, of which the storage root is required. -/
def reader : Reader Config := do
  let d ← Reader.record fields {}
  return d.finish (← Reader.required d.root)

def ofText (s : String) : Except Json.Fault Config := Reader.run reader s

end Config

end UpdateVault
