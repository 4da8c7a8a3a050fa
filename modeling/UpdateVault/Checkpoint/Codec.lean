import UpdateVault.Checkpoint.Basic
import UpdateVault.Digest
import UpdateVault.Utf8

/-!
The bytes of a checkpoint.

Plain layout: the number of the phase in four little-endian bytes, then the artifact
type in UTF-8, which is empty or at least two bytes long.

Checked layout: `OTS1`, the length of the plain layout in four bytes, the first eight
bytes of its SHA-256 digest, the plain layout. The four letters read as a number are no
phase, so a reader never takes one layout for the other.
-/

namespace UpdateVault.Checkpoint

/-- What can be wrong with stored bytes. -/
inductive Fault
  | truncatedEnvelope
  | lengthMismatch (declared found : Nat)
  | checksumMismatch
  | tooShort (len : Nat)
  | unknownPhase (value : Nat)
  | typeTooShort
  | typeNotUtf8
  deriving DecidableEq, Repr

def Fault.message : Fault → String
  | truncatedEnvelope => "truncated envelope header"
  | lengthMismatch declared found => s!"envelope declares {declared} bytes, found {found}"
  | checksumMismatch => "checksum mismatch"
  | tooShort len => s!"{len} bytes is shorter than a state value"
  | unknownPhase value => s!"unknown state value {value}"
  | typeTooShort => "artifact type too short"
  | typeNotUtf8 => "artifact type is not UTF-8"

/-- The bytes a phase number takes. -/
def valueLength : Nat := 4

/-- The shortest artifact type that is not empty. -/
def minTypeLength : Nat := 2

/-- The letters an envelope begins with: `OTS1`. -/
def magic : Bytes := [0x4F, 0x54, 0x53, 0x31]

/-- Magic, length and checksum. -/
def envelopeLength : Nat := 16

def plainBytes (c : Checkpoint) : Bytes :=
  Bytes.littleEndian valueLength c.phase.value ++ Utf8.encode c.artifactType

/-- A payload in its envelope. The length takes four bytes, whatever the payload. -/
def envelope (payload : Bytes) : Bytes :=
  magic ++ Bytes.littleEndian 4 payload.length ++ Digest.checksum payload ++ payload

/-- Whether an artifact type has a length that no record may have. -/
def isShortType (type : Bytes) : Bool := 0 < type.length && type.length < minTypeLength

/-- The stored bytes of a checkpoint; none if its artifact type is too short. -/
def encode? (layout : CheckpointLayout) (c : Checkpoint) : Option Bytes :=
  if isShortType (Utf8.encode c.artifactType) then none
  else match layout with
    | .plain => some (plainBytes c)
    | .checked => some (envelope (plainBytes c))

def ofPlainBytes (bs : Bytes) : Except Fault Checkpoint :=
  if bs.length < valueLength then .error (.tooShort bs.length)
  else
    let value := Bytes.ofLittleEndian (bs.take valueLength)
    let type := bs.drop valueLength
    match Phase.ofValue? value with
    | none => .error (.unknownPhase value)
    | some phase =>
      if isShortType type then .error .typeTooShort
      else match Utf8.decode? type with
        | none => .error .typeNotUtf8
        | some artifactType => .ok ⟨phase, artifactType⟩

def openEnvelope (bs : Bytes) : Except Fault Bytes :=
  if bs.length < envelopeLength then .error .truncatedEnvelope
  else
    let declared := Bytes.ofLittleEndian ((bs.drop 4).take 4)
    let payload := bs.drop envelopeLength
    if payload.length ≠ declared then .error (.lengthMismatch declared payload.length)
    -- the length is checked first, so every byte of the payload counts
    else if (bs.drop 8).take 8 ≠ Digest.checksum payload then .error .checksumMismatch
    else .ok payload

/-- Reads a checkpoint in either layout; a record that is not whole gives no part of it. -/
def decode (bs : Bytes) : Except Fault Checkpoint :=
  if magic.isPrefixOf bs then openEnvelope bs >>= ofPlainBytes else ofPlainBytes bs

end UpdateVault.Checkpoint
