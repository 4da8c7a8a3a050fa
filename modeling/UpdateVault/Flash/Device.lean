import UpdateVault.Error

/-!
Flash memory: an image of bytes in sectors of one size. Programming only clears bits, so
a region is erased, a sector at a time, before it takes new content.

`programAt` and `eraseAt` are what the two changes do to an image; a `FlashMemory` is
anything that offers them with its own bounds and failures.
-/

namespace UpdateVault

namespace Flash

/-! ## Images -/

/-- The image after programming: the bytes at the offset keep only the bits that the data
has set. -/
def programAt (image : Bytes) (offset : Nat) (data : Bytes) : Bytes :=
  image.take offset
    ++ List.zipWith (· &&& ·) ((image.drop offset).take data.length) data
    ++ image.drop (offset + data.length)

/-- The image with a stretch of it erased. -/
def eraseAt (image : Bytes) (start len : Nat) : Bytes :=
  image.take start ++ Bytes.erased len ++ image.drop (start + len)

def readAt (image : Bytes) (offset len : Nat) : Bytes := (image.drop offset).take len

/-- A buffer has no more bytes than this. -/
def maxBuffer : Nat := 0x7FFFFFFFFFFFFFFF

/-- A buffer of erased bytes, if there can be one of the length. -/
def erasedBuffer (len : Nat) : Except IoError Bytes :=
  if maxBuffer < len then .error .bufferTooLong else .ok (Bytes.erased len)

theorem erasedBuffer_of_le {len : Nat} (h : len ≤ maxBuffer) :
    erasedBuffer len = .ok (Bytes.erased len) := if_neg (Nat.not_lt.2 h)

theorem erasedBuffer_of_lt {len : Nat} (h : maxBuffer < len) :
    erasedBuffer len = .error .bufferTooLong := if_pos h

theorem eq_of_erasedBuffer {len : Nat} {buffer : Bytes} (h : erasedBuffer len = .ok buffer) :
    buffer = Bytes.erased len ∧ len ≤ maxBuffer := by
  rw [erasedBuffer] at h
  split at h
  · cases h
  · rename_i hle
    cases h
    exact ⟨rfl, Nat.not_lt.1 hle⟩

/-! ## Addresses -/

/-- Addresses, lengths and sector numbers are below this bound. -/
def addressLimit : Nat := UInt64.size

/-- The size of a device with so many sectors of one size, neither of which may be zero. -/
def capacity (sectorSize sectorCount : Nat) : Except IoError Nat :=
  if sectorSize = 0 ∨ sectorCount = 0 then .error .zeroGeometry
  else if addressLimit ≤ sectorSize * sectorCount then
    .error (.geometryOverflow sectorCount sectorSize)
  else .ok (sectorSize * sectorCount)

/-- An access has to lie within the capacity. -/
def ensureInside (capacity offset len : Nat) : Except IoError Unit :=
  if offset + len ≤ capacity then .ok () else .error (.outOfBounds offset len capacity)

/-- The address of a sector that lies within the capacity. -/
def sectorAddress (capacity sectorSize sector : Nat) : Except IoError Nat :=
  if addressLimit ≤ sector * sectorSize then .error (.sectorOutOfRange sector)
  else (ensureInside capacity (sector * sectorSize) sectorSize).map fun _ => sector * sectorSize

end Flash

/-- A flash device, as a value that its changes replace. Reading changes nothing. -/
class FlashMemory (φ : Type) where
  sectorSize : φ → Nat
  sectorCount : φ → Except IoError Nat
  read : φ → Nat → Nat → Except IoError Bytes
  program : Nat → Bytes → Update IoError φ Unit
  eraseSector : Nat → Update IoError φ Unit

namespace FlashMemory

variable {φ : Type} [FlashMemory φ]

/-- The size of all whole sectors together. -/
def capacity (device : φ) : Except IoError Nat :=
  (sectorCount device).map (sectorSize device * ·)

/-- Erases `count` sectors in ascending order, up to the first that fails. -/
def eraseSectors : Nat → Nat → Update IoError φ Unit
  | _, 0 => pure ()
  | first, count + 1 => do
    eraseSector first
    eraseSectors (first + 1) count

/-- Erases every sector that overlaps a stretch. -/
def eraseStretch (start len : Nat) : Update IoError φ Unit := do
  let size := sectorSize (← get)
  if len = 0 then return ()
  if size = 0 then throw .zeroSectorSize
  let first := start / size
  -- a stretch that ends at a sector's end does not overlap the next one
  let last := (start + len - 1) / size
  eraseSectors first (last + 1 - first)

end FlashMemory

end UpdateVault
