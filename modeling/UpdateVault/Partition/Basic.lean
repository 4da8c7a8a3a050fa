import UpdateVault.Item
import UpdateVault.Partition.Bank

/-!
A mounted partition: a table of items in the newer of two banks. Every change writes
the whole table into the other bank under the next sequence number, so a change that is
cut off leaves the table that was there before in charge.
-/

namespace UpdateVault

/-- A mounted partition. -/
structure Partition (φ : Type) where
  device : φ
  bankLength : Nat
  items : ItemTable
  active : Option Bank
  sequence : UInt32
  deriving DecidableEq

namespace Partition

variable {φ : Type} [FlashMemory φ]

/-- The length of a bank; each of the two takes half of the sectors. -/
def bankLength? (device : φ) : Except StorageError Nat := do
  let sectors ← (FlashMemory.sectorCount device).mapError .io
  if sectors / 2 = 0 then throw (.invalidInput .singleSector)
  let len := sectors / 2 * FlashMemory.sectorSize device
  if len ≤ Bank.headerLength then throw (.invalidInput .tinyBank)
  return len

/-- Mounts the partition on a device, with the table of its newest whole bank. -/
def mount (device : φ) : Except StorageError (Partition φ) := do
  let bankLength ← bankLength? device
  let first ← (Bank.recover device bankLength .first).mapError .io
  let second ← (Bank.recover device bankLength .second).mapError .io
  return match Bank.newest first second with
    | some (bank, content) =>
      { device, bankLength, items := content.items, active := some bank
        sequence := content.sequence }
    | none => { device, bankLength, items := .empty, active := none, sequence := 0 }

/-- The largest payload a bank can hold. -/
def maxPayload (p : Partition φ) : Nat := p.bankLength - Bank.headerLength

/-- The bank that the next change is written to. -/
def target (p : Partition φ) : Bank :=
  match p.active with
  | some bank => bank.other
  | none => .first

/-- Erases a bank and programs an image into it. -/
def writeBank (bankLength : Nat) (bank : Bank) (image : Bytes) : Update IoError φ Unit := do
  FlashMemory.eraseStretch (bank.base bankLength) bankLength
  FlashMemory.program (bank.base bankLength) image

/-- Makes a table the current one. If the device fails, the old table stays in charge. -/
def commit (items : ItemTable) : Update StorageError (Partition φ) Unit := fun p =>
  let payload := items.encode
  if p.maxPayload < payload.length then
    .error (.storageFull payload.length p.maxPayload) p
  else
    -- sequence numbers wrap around
    let sequence := p.sequence + 1
    -- the active bank is not touched, so its table survives a failure
    match writeBank p.bankLength p.target (Bank.image sequence payload) p.device with
    | .error e device => .error (.io e) { p with device }
    | .ok () device => .ok () { p with device, items, active := some p.target, sequence }

/-- The number of an item that a partition knows. -/
def idOf (name : String) : Except StorageError UInt16 :=
  match Item.ofName? name with
  | some item => .ok item.id
  | none => .error (.unknownItem name)

/-- Stores an item. Writing what is there already does not touch the device. -/
def write (name : String) (data : Bytes) : Update StorageError (Partition φ) Unit := fun p =>
  match idOf name with
  | .error e => .error e p
  | .ok id =>
    if p.items.get? id = some data then .ok () p
    else commit (p.items.insert id data) p

/-- The data of an item; an empty item counts as absent. -/
def read (p : Partition φ) (name : String) : Except StorageError Bytes := do
  match p.items.get? (← idOf name) with
  | some (b :: rest) => return b :: rest
  | _ => throw (.notFound name)

/-- Takes an item out, also an empty one. -/
def delete (name : String) : Update StorageError (Partition φ) Unit := fun p =>
  match idOf name with
  | .error e => .error e p
  | .ok id =>
    if p.items.contains id then commit (p.items.erase id) p
    else .error (.notFound name) p

end Partition

end UpdateVault
