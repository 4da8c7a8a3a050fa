import UpdateVault.Checkpoint.Codec
import UpdateVault.Config.Basic
import UpdateVault.Item
import UpdateVault.Provides.Text

/-!
Why a call can fail. Causes are values; `message` gives their wording, and `kind` is the
coarse reading that the decision at boot acts on.
-/

namespace UpdateVault

/-- Why a device or a file system refuses an access. -/
inductive IoError
  | noSuchFile
  | fileExists
  | notDirectory
  | isDirectory
  | nameTooLong
  | nulInName
  | endOfFile
  | notUtf8
  | zeroGeometry
  | geometryOverflow (sectorCount sectorSize : Nat)
  | sectorOutOfRange (sector : Nat)
  | outOfBounds (offset len capacity : Nat)
  | powerLost
  | imageTooLong (path : Path) (len capacity : Nat)
  /-- Sectors of no size cannot be counted. -/
  | zeroSectorSize
  /-- There cannot be so many bytes at once. -/
  | bufferTooLong
  | other (text : String)
  deriving DecidableEq, Repr

def IoError.message : IoError → String
  | noSuchFile => "No such file or directory (os error 2)"
  | fileExists => "File exists (os error 17)"
  | notDirectory => "Not a directory (os error 20)"
  | isDirectory => "Is a directory (os error 21)"
  | nameTooLong => "File name too long (os error 36)"
  | nulInName => "file name contained an unexpected NUL byte"
  | endOfFile => "failed to fill whole buffer"
  | notUtf8 => "stream did not contain valid UTF-8"
  | zeroGeometry => "flash geometry must be non-zero"
  | geometryOverflow sectorCount sectorSize =>
    s!"flash geometry {sectorCount} x {sectorSize} overflows"
  | sectorOutOfRange sector => s!"sector {sector} out of range"
  | outOfBounds offset len capacity => s!"flash access {offset}+{len} beyond capacity {capacity}"
  | powerLost => "power lost during write"
  | imageTooLong path len capacity =>
    s!"flash image {path.text} is {len} bytes, expected {capacity}"
  | zeroSectorSize => "attempt to divide by zero"
  | bufferTooLong => "capacity overflow"
  | other text => text

/-- An argument or a state that a call does not accept. -/
inductive InputFault
  | emptyKeys
  | emptyDeployment
  | emptyArtifactName
  | shortArtifactType (type : String)
  | singleSector
  | tinyBank
  | lockNotHeld
  | lockHeld
  | config (violation : Config.Violation)
  deriving DecidableEq, Repr

def InputFault.message : InputFault → String
  | emptyKeys => "authentication keys must not be empty"
  | emptyDeployment => "deployment data is empty"
  | emptyArtifactName => "artifact name is empty"
  | shortArtifactType type =>
    s!"artifact type '{type}' is shorter than {Checkpoint.minTypeLength} bytes"
  | singleSector => "NVS partition needs at least two sectors"
  | tinyBank => "NVS sectors too small for a bank header"
  | lockNotHeld => "mutex is not held"
  | lockHeld => "mutex is still held"
  | config violation => "Invalid config: " ++ violation.message

/-- Text that a record cannot be made from. -/
inductive CodecFault
  | provides (fault : Provides.Fault)
  | artifactNameNotUtf8
  deriving DecidableEq, Repr

def CodecFault.message : CodecFault → String
  | provides fault => fault.message
  | artifactNameNotUtf8 => "artifact name is not UTF-8"

/-- Why a call on a vault, its storage or its lock fails. -/
inductive StorageError
  /-- The item is absent or empty. -/
  | notFound (name : String)
  | io (cause : IoError)
  /-- The stored checkpoint is not whole. -/
  | corrupt (fault : Checkpoint.Fault)
  | codec (fault : CodecFault)
  | invalidInput (fault : InputFault)
  | storageFull (needed available : Nat)
  | unknownItem (name : String)
  | timeout
  /-- The platform lacks the capability that is named. -/
  | notImplemented (capability : String)
  deriving DecidableEq, Repr

/-- The coarse reading of an error. -/
inductive ErrorClass
  /-- Nothing is there, as is to be expected on first use. -/
  | absent
  /-- What is there is not to be trusted. -/
  | unusable
  /-- The capability is missing. -/
  | unsupported
  deriving DecidableEq, Repr

namespace StorageError

def message : StorageError → String
  | notFound name => "Item not found: " ++ name
  | io cause => "IO error: " ++ cause.message
  | corrupt fault => "Corrupt record " ++ Item.checkpoint.name ++ ": " ++ fault.message
  | codec fault => "Codec error: " ++ fault.message
  | invalidInput fault => "Invalid input: " ++ fault.message
  | storageFull needed available =>
    s!"Storage full: {needed} bytes needed, {available} available"
  | unknownItem name => "Unknown item: " ++ name
  | timeout => "Timed out waiting for lock"
  | notImplemented capability => "Not implemented: " ++ capability

/-- How an error is to be taken: only absence is expected, and only a missing capability says
nothing about what is stored. -/
def kind : StorageError → ErrorClass
  | notFound _ => .absent
  | notImplemented _ => .unsupported
  | _ => .unusable

/-- Whether an error says no more than that nothing is there. -/
def isAbsence (e : StorageError) : Bool := e.kind = .absent

end StorageError

/-- A step that may fail and changes a state either way. -/
abbrev Update (ε σ : Type) (α : Type) := EStateM ε σ α

end UpdateVault
