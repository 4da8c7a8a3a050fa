import UpdateVault.Flash.Device

/-!
A flash chip held in memory. A chip can be told to lose its power during the next
programming, which then stops after a number of bytes.
-/

namespace UpdateVault

/-- A chip: its image, the size of its sectors, and after how many bytes the next
programming loses its power, if it is to lose it. -/
structure FlashChip where
  image : Bytes
  sectorSize : Nat
  tear : Option Nat := none
  deriving DecidableEq, Repr

namespace FlashChip

/-- An erased chip. -/
def new (sectorSize sectorCount : Nat) : Except IoError FlashChip := do
  return { image := ← Flash.erasedBuffer (← Flash.capacity sectorSize sectorCount), sectorSize }

/-- A chip with a given image. -/
def ofImage (image : Bytes) (sectorSize : Nat) : FlashChip := { image, sectorSize }

section

variable {sectorSize sectorCount len : Nat}
  (h : Flash.capacity sectorSize sectorCount = .ok len)

include h

theorem new_of_le (hbuffer : len ≤ Flash.maxBuffer) :
    new sectorSize sectorCount = .ok (ofImage (Bytes.erased len) sectorSize) := by
  rw [new, h]
  simp only [bind, Except.bind, Flash.erasedBuffer_of_le hbuffer]
  rfl

theorem new_of_lt (hbuffer : Flash.maxBuffer < len) :
    new sectorSize sectorCount = .error .bufferTooLong := by
  rw [new, h]
  simp only [bind, Except.bind, Flash.erasedBuffer_of_lt hbuffer]

end

theorem capacity_of_new {sectorSize sectorCount : Nat} {chip : FlashChip}
    (h : new sectorSize sectorCount = .ok chip) :
    ∃ len, Flash.capacity sectorSize sectorCount = .ok len ∧ len ≤ Flash.maxBuffer := by
  cases hcapacity : Flash.capacity sectorSize sectorCount with
  | error e =>
    rw [new, hcapacity] at h
    cases h
  | ok len =>
    refine ⟨len, rfl, Nat.not_lt.1 fun hbuffer => ?_⟩
    rw [new_of_lt hcapacity hbuffer] at h
    cases h

/-- There is no chip of an impossible geometry, or of one too large for a buffer. -/
theorem new_eq_error {sectorSize sectorCount : Nat} {e : IoError}
    (h : new sectorSize sectorCount = .error e) :
    Flash.capacity sectorSize sectorCount = .error e ∨
      ∃ len, Flash.capacity sectorSize sectorCount = .ok len ∧ Flash.maxBuffer < len ∧
        e = .bufferTooLong := by
  cases hcapacity : Flash.capacity sectorSize sectorCount with
  | error e' =>
    rw [new, hcapacity] at h
    cases h
    exact .inl rfl
  | ok len =>
    rcases Nat.lt_or_ge Flash.maxBuffer len with hbuffer | hbuffer
    · rw [new_of_lt hcapacity hbuffer] at h
      cases h
      exact .inr ⟨len, rfl, hbuffer, rfl⟩
    · rw [new_of_le hcapacity hbuffer] at h
      cases h

/-- The chip that loses its power in the next programming, after `keep` bytes. -/
def tearNext (chip : FlashChip) (keep : Nat) : FlashChip := { chip with tear := some keep }

def sectorCount (chip : FlashChip) : Except IoError Nat :=
  if chip.sectorSize = 0 then .error .zeroSectorSize
  else .ok (chip.image.length / chip.sectorSize)

def read (chip : FlashChip) (offset len : Nat) : Except IoError Bytes :=
  (Flash.ensureInside chip.image.length offset len).map fun _ => Flash.readAt chip.image offset len

/-- Programs data within the bounds. A pending loss of power is used up, and is a failure
if it comes before the last byte. -/
def program (offset : Nat) (data : Bytes) : Update IoError FlashChip Unit := fun chip =>
  match Flash.ensureInside chip.image.length offset data.length with
  | .error e => .error e chip
  | .ok () =>
    let keep := chip.tear.getD data.length
    let image := Flash.programAt chip.image offset (data.take keep)
    let after : FlashChip := { chip with image, tear := none }
    if keep < data.length then .error .powerLost after else .ok () after

/-- Sets every bit of a sector inside the chip. -/
def eraseSector (sector : Nat) : Update IoError FlashChip Unit := fun chip =>
  match Flash.sectorAddress chip.image.length chip.sectorSize sector with
  | .error e => .error e chip
  | .ok start => .ok () { chip with image := Flash.eraseAt chip.image start chip.sectorSize }

instance : FlashMemory FlashChip where
  sectorSize := FlashChip.sectorSize
  sectorCount := sectorCount
  read := read
  program := program
  eraseSector := eraseSector

end FlashChip

end UpdateVault
