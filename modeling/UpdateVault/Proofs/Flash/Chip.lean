import UpdateVault.Flash.Chip
import UpdateVault.Proofs.Flash.Image
import UpdateVault.Proofs.Update

/-!
# Chips

The changes of a chip inside its bounds, each as one equation: whole sectors become one erased
stretch (`eraseSectors_eq`, `eraseStretch_eq`), and programming takes the data, or what comes
before a pending loss of power (`program_eq`).
-/

namespace UpdateVault

namespace FlashMemory

variable {φ : Type} [FlashMemory φ] (device : φ)

/-- A stretch is erased from the sector it begins in to the one it ends in. -/
theorem eraseStretch_apply (start len : Nat) :
    eraseStretch start len device =
      if len = 0 then .ok () device
      else if sectorSize device = 0 then .error .zeroSectorSize device
      else eraseSectors (start / sectorSize device)
        ((start + len - 1) / sectorSize device + 1 - start / sectorSize device) device := by
  rw [eraseStretch, Update.get_bind]
  by_cases hlen : len = 0
  · rw [if_pos hlen, if_pos hlen]
    rfl
  · rw [if_neg hlen, if_neg hlen]
    by_cases hsize : sectorSize device = 0
    · rw [if_pos hsize, if_pos hsize]
      rfl
    · rw [if_neg hsize, if_neg hsize]

/-- The last sector that a stretch of whole sectors overlaps. -/
theorem lastSector_eq {first count size : Nat} (hcount : 0 < count) (hsize : 0 < size) :
    (first * size + count * size - 1) / size = first + count - 1 := by
  have hsum : first * size + count * size = (first + count - 1) * size + size := by
    rw [← Nat.add_mul, ← Nat.succ_mul]
    congr 1
    omega
  refine Nat.div_eq_of_lt_le (by omega) ?_
  rw [Nat.succ_mul]
  omega

/-- A stretch of whole sectors is erased sector by sector. -/
theorem eraseStretch_sectors {first count : Nat} (hcount : 0 < count)
    (hsize : 0 < sectorSize device) :
    eraseStretch (first * sectorSize device) (count * sectorSize device) device
      = eraseSectors first count device := by
  have hlen : count * sectorSize device ≠ 0 := Nat.pos_iff_ne_zero.1 (Nat.mul_pos hcount hsize)
  have hsectors : first + count - 1 + 1 - first = count := by omega
  rw [eraseStretch_apply, if_neg hlen, if_neg (Nat.pos_iff_ne_zero.1 hsize),
    lastSector_eq hcount hsize, Nat.mul_div_cancel first hsize, hsectors]

end FlashMemory

namespace FlashChip

open Flash (addressLimit eraseAt programAt)

/-- The chip with another image. -/
def withImage (chip : FlashChip) (image : Bytes) : FlashChip := { chip with image }

section

variable (chip : FlashChip) (img : Bytes)

@[simp] theorem withImage_image : (chip.withImage img).image = img := rfl

@[simp] theorem withImage_sectorSize : (chip.withImage img).sectorSize = chip.sectorSize := rfl

@[simp] theorem withImage_withImage (img' : Bytes) :
    (chip.withImage img).withImage img' = chip.withImage img' := rfl

@[simp] theorem withImage_self : chip.withImage chip.image = chip := rfl

end

theorem read_eq (chip : FlashChip) {offset len : Nat} (h : offset + len ≤ chip.image.length) :
    FlashMemory.read chip offset len = .ok (Flash.readAt chip.image offset len) := by
  simp only [FlashMemory.read, read, Flash.ensureInside, if_pos h]
  rfl

end FlashChip

/-- A device with the sectors of a chip that reads like it wherever the chip has bytes. What a read
elsewhere gives is left open. -/
structure FlashMemory.ReadsAs {φ : Type} [FlashMemory φ] (f : φ) (chip : FlashChip) : Prop where
  sectorSize_eq : sectorSize f = chip.sectorSize
  sectors : sectorCount f = chip.sectorCount
  read_eq : ∀ {offset len}, offset + len ≤ chip.image.length →
    read f offset len = .ok (Flash.readAt chip.image offset len)

namespace FlashChip

open Flash (addressLimit eraseAt programAt)

theorem readsAs_self (chip : FlashChip) : FlashMemory.ReadsAs chip chip :=
  ⟨rfl, rfl, chip.read_eq⟩

/-! ## Erasing -/

theorem eraseSector_eq (chip : FlashChip) (sector : Nat)
    (hin : (sector + 1) * chip.sectorSize ≤ chip.image.length)
    (hlimit : sector * chip.sectorSize < addressLimit) :
    (FlashMemory.eraseSector sector : Update IoError FlashChip Unit) chip = .ok ()
      (chip.withImage (eraseAt chip.image (sector * chip.sectorSize) chip.sectorSize)) := by
  have hstart : sector * chip.sectorSize + chip.sectorSize ≤ chip.image.length := by
    rwa [Nat.succ_mul] at hin
  have haddress : Flash.sectorAddress chip.image.length chip.sectorSize sector
      = .ok (sector * chip.sectorSize) := by
    rw [Flash.sectorAddress, if_neg (by omega), Flash.ensureInside, if_pos hstart]
    rfl
  simp only [FlashMemory.eraseSector, eraseSector, haddress]
  rfl

/-- Sectors erased one after the other are one erased stretch. -/
theorem eraseSectors_eq (chip : FlashChip) (first count : Nat)
    (hin : (first + count) * chip.sectorSize ≤ chip.image.length)
    (hlimit : (first + count) * chip.sectorSize ≤ addressLimit) (hsize : 0 < chip.sectorSize) :
    (FlashMemory.eraseSectors first count : Update IoError FlashChip Unit) chip = .ok ()
      (chip.withImage
        (eraseAt chip.image (first * chip.sectorSize) (count * chip.sectorSize))) := by
  induction count generalizing chip first with
  | zero =>
    rw [Nat.add_zero] at hin
    simp [FlashMemory.eraseSectors, pure, EStateM.pure, Flash.eraseAt_zero hin]
  | succ count ih =>
    have hnext : (first + (count + 1)) * chip.sectorSize
        = first * chip.sectorSize + (chip.sectorSize + count * chip.sectorSize) := by
      rw [Nat.add_mul, Nat.succ_mul, Nat.add_comm (count * chip.sectorSize)]
    have hfirst : (first + 1) * chip.sectorSize = first * chip.sectorSize + chip.sectorSize :=
      Nat.succ_mul ..
    have hrest : (first + 1 + count) * chip.sectorSize
        = first * chip.sectorSize + (chip.sectorSize + count * chip.sectorSize) := by
      rw [← hnext]
      congr 1
      omega
    rw [hnext] at hin hlimit
    have hlen : (eraseAt chip.image (first * chip.sectorSize) chip.sectorSize).length
        = chip.image.length := Flash.length_eraseAt (by omega)
    have hone := eraseSector_eq chip first (by omega) (by omega)
    have hmore := ih
      (chip.withImage (eraseAt chip.image (first * chip.sectorSize) chip.sectorSize)) (first + 1)
      (by simpa only [withImage_image, withImage_sectorSize, hlen, hrest] using hin)
      (by simpa only [withImage_sectorSize, hrest] using hlimit) hsize
    refine ((Update.bind_ok hone).trans hmore).trans ?_
    simp only [withImage_sectorSize, withImage_image, withImage_withImage, hfirst]
    rw [Flash.eraseAt_eraseAt hin, Nat.succ_mul, Nat.add_comm (count * chip.sectorSize)]

/-- A stretch of whole sectors is erased as it is. -/
theorem eraseStretch_eq (chip : FlashChip) {first count : Nat} (hcount : 0 < count)
    (hsize : 0 < chip.sectorSize)
    (hin : (first + count) * chip.sectorSize ≤ chip.image.length)
    (hlimit : (first + count) * chip.sectorSize ≤ addressLimit) :
    (FlashMemory.eraseStretch (first * chip.sectorSize) (count * chip.sectorSize) :
      Update IoError FlashChip Unit) chip = .ok ()
      (chip.withImage
        (eraseAt chip.image (first * chip.sectorSize) (count * chip.sectorSize))) := by
  rw [← eraseSectors_eq chip first count hin hlimit hsize]
  exact FlashMemory.eraseStretch_sectors chip hcount hsize

/-! ## Programming -/

/-- The bytes that a chip programs of data, given its pending loss of power. -/
def reach (chip : FlashChip) (data : Bytes) : Nat := chip.tear.getD data.length

theorem program_eq (chip : FlashChip) {offset : Nat} {data : Bytes}
    (h : offset + data.length ≤ chip.image.length) :
    (FlashMemory.program offset data : Update IoError FlashChip Unit) chip =
      if chip.reach data < data.length then
        .error .powerLost { chip with
          image := programAt chip.image offset (data.take (chip.reach data)), tear := none }
      else .ok () { chip with image := programAt chip.image offset data, tear := none } := by
  have hin : Flash.ensureInside chip.image.length offset data.length = .ok () := if_pos h
  simp only [FlashMemory.program, program, hin]
  by_cases hreach : chip.reach data < data.length
  · rw [if_pos hreach]
    exact if_pos hreach
  · rw [if_neg hreach]
    refine (if_neg hreach).trans ?_
    rw [← reach, List.take_of_length_le (Nat.not_lt.1 hreach)]

end FlashChip

end UpdateVault
