import UpdateVault.Digest
import UpdateVault.Flash.Device
import UpdateVault.Partition.Table

/-!
A bank of a partition: the letters `NVSB`, a sequence number and the length of the
payload in four little-endian bytes each, the first eight bytes of the payload's SHA-256
digest, and the payload, which is an item table.
-/

namespace UpdateVault

inductive Bank
  | first
  | second
  deriving DecidableEq, Repr

namespace Bank

def other : Bank → Bank
  | first => second
  | second => first

/-- The address of a bank, given the length of each. -/
def base (bankLength : Nat) : Bank → Nat
  | first => 0
  | second => bankLength

/-- The letters a bank begins with: `NVSB`. -/
def magic : Bytes := [0x4E, 0x56, 0x53, 0x42]

/-- Magic, sequence number, length and checksum. -/
def headerLength : Nat := 20

/-- What a bank holds. -/
structure Content where
  sequence : UInt32
  items : ItemTable
  deriving DecidableEq

/-- The bytes that are programmed for a payload. -/
def image (sequence : UInt32) (payload : Bytes) : Bytes :=
  magic ++ Bytes.littleEndian 4 sequence.toNat ++ Bytes.littleEndian 4 payload.length
    ++ Digest.checksum payload ++ payload

/-- The fields of a header: sequence number, length of the payload, checksum. -/
structure Header where
  sequence : UInt32
  payloadLength : Nat
  checksum : Bytes

/-- The header in a bank's first bytes; its payload has to fit the bank. -/
def header? (bankLength : Nat) (bs : Bytes) : Option Header :=
  let payloadLength := Bytes.ofLittleEndian ((bs.drop 8).take 4)
  if bs.take 4 = magic ∧ payloadLength ≤ bankLength - headerLength then
    some {
      sequence := UInt32.ofNat (Bytes.ofLittleEndian ((bs.drop 4).take 4))
      payloadLength
      checksum := (bs.drop 12).take 8 }
  else none

/-- The content of a bank with a given header, if the payload is the one it describes. -/
def content? (header : Header) (payload : Bytes) : Option Content :=
  if header.checksum = Digest.checksum payload then
    (ItemTable.decode? payload).map (⟨header.sequence, ·⟩)
  else none

/-- The content of a bank; none if it is not whole. -/
def recover {φ : Type} [FlashMemory φ] (device : φ) (bankLength : Nat) (bank : Bank) :
    Except IoError (Option Content) := do
  let base := bank.base bankLength
  match header? bankLength (← FlashMemory.read device base headerLength) with
  | none => return none
  | some header =>
    return content? header (← FlashMemory.read device (base + headerLength) header.payloadLength)

/-- Whether sequence number `a` comes after `b`, where the numbers wrap around. -/
def follows (a b : UInt32) : Bool := 0 < (a - b).toNat && (a - b).toNat < UInt32.size / 2

/-- The bank to go on with: the only one that is whole, or of two the newer one, and the
first if neither is newer. -/
def newest : Option Content → Option Content → Option (Bank × Content)
  | none, none => none
  | some c, none => some (first, c)
  | none, some c => some (second, c)
  | some c₁, some c₂ =>
    if follows c₂.sequence c₁.sequence then some (second, c₂) else some (first, c₁)

end Bank

end UpdateVault
