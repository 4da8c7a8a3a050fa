import UpdateVault.Partition.Basic
import UpdateVault.Proofs.Partition.Bank

/-!
# Mounting a chip

`mount_eq`: what a mount of a chip gives is a function of what its two banks hold. Writing a
bank (`writeBank_eq`) puts the image, or the part of it that came before a loss of power, at the
front of that bank, erases the rest of it, and leaves the other bank alone.
-/

namespace UpdateVault.Partition

open Flash (addressLimit eraseAt programAt readAt)
open Bank (Content)

variable {φ : Type} [FlashMemory φ] {f : φ} {chip : FlashChip} {len : Nat} {data : Bytes}

/-! ## Geometry -/

/-- The sectors of a chip make two banks of a length. -/
structure HasBanks (chip : FlashChip) (len : Nat) : Prop where
  sectorSize_pos : 0 < chip.sectorSize
  length_eq : len = chip.image.length / chip.sectorSize / 2 * chip.sectorSize
  header_lt : Bank.headerLength < len

theorem bankLength?_of_zero (h : chip.sectorSize = 0) :
    bankLength? chip = .error (.io .zeroSectorSize) := by
  have hcount : FlashMemory.sectorCount chip = .error .zeroSectorSize := if_pos h
  rw [bankLength?, hcount]
  rfl

/-- The length of a bank, or what is wrong with it. -/
theorem bankLength?_eq (h : 0 < chip.sectorSize)
    (hlen : len = chip.image.length / chip.sectorSize / 2 * chip.sectorSize) :
    bankLength? chip =
      if len ≤ Bank.headerLength then
        .error (.invalidInput (if len = 0 then .singleSector else .tinyBank))
      else .ok len := by
  have hsize : FlashMemory.sectorSize chip = chip.sectorSize := rfl
  have hcount : FlashMemory.sectorCount chip = .ok (chip.image.length / chip.sectorSize) :=
    if_neg (Nat.pos_iff_ne_zero.1 h)
  have hzero : len = 0 ↔ chip.image.length / chip.sectorSize / 2 = 0 := by
    rw [hlen, Nat.mul_eq_zero]
    omega
  simp only [bankLength?, hcount, hsize, Except.mapError, bind, Except.bind, ← hlen, ← hzero]
  by_cases h0 : len = 0
  · have hshort : len ≤ Bank.headerLength := h0 ▸ Nat.zero_le _
    rw [if_pos h0, if_pos h0, if_pos hshort, if_pos hshort]
    rfl
  · rw [if_neg h0, if_neg h0]
    by_cases h1 : len ≤ Bank.headerLength
    · rw [if_pos h1, if_pos h1]
      rfl
    · rw [if_neg h1, if_neg h1]
      rfl

theorem bankLength?_eq_ok_iff : bankLength? chip = .ok len ↔ HasBanks chip len := by
  constructor
  · intro h
    rcases Nat.eq_zero_or_pos chip.sectorSize with h0 | hpos
    · rw [bankLength?_of_zero h0] at h
      cases h
    · rw [bankLength?_eq hpos rfl] at h
      split at h
      · cases h
      · rename_i hlong
        cases h
        exact ⟨hpos, rfl, Nat.not_le.1 hlong⟩
  · intro h
    rw [bankLength?_eq h.sectorSize_pos h.length_eq, if_neg (Nat.not_le.2 h.header_lt)]

namespace HasBanks

/-- Both banks lie on the chip. -/
theorem le_length (h : HasBanks chip len) : 2 * len ≤ chip.image.length := by
  have htwo : chip.image.length / chip.sectorSize / 2 * 2 ≤ chip.image.length / chip.sectorSize :=
    Nat.div_mul_le_self _ _
  calc 2 * len = chip.image.length / chip.sectorSize / 2 * 2 * chip.sectorSize := by
        rw [h.length_eq]
        ring
    _ ≤ chip.image.length / chip.sectorSize * chip.sectorSize := Nat.mul_le_mul_right _ htwo
    _ ≤ chip.image.length := Nat.div_mul_le_self _ _

theorem base_le (h : HasBanks chip len) (bank : Bank) :
    bank.base len + len ≤ chip.image.length := by
  have := h.le_length
  cases bank <;> simp only [Bank.base] <;> omega

/-- The geometry is that of the sectors; what is in them does not matter. -/
theorem of_length_eq {chip' : FlashChip} (h : HasBanks chip len)
    (hsize : chip'.sectorSize = chip.sectorSize)
    (hlength : chip'.image.length = chip.image.length) : HasBanks chip' len := by
  obtain ⟨hpos, heq, hheader⟩ := h
  rw [← hsize] at hpos
  rw [← hsize, ← hlength] at heq
  exact ⟨hpos, heq, hheader⟩

/-- A bank has a whole number of sectors. -/
theorem sectors_mul (h : HasBanks chip len) : len / chip.sectorSize * chip.sectorSize = len := by
  have hlen := h.length_eq
  have hcount : len / chip.sectorSize = chip.image.length / chip.sectorSize / 2 := by
    rw [hlen, Nat.mul_div_cancel _ h.sectorSize_pos]
  rw [hcount, ← hlen]

theorem sectors_div_pos (h : HasBanks chip len) : 0 < len / chip.sectorSize := by
  refine Nat.pos_of_ne_zero fun h0 => ?_
  have := h.sectors_mul
  rw [h0, Nat.zero_mul] at this
  exact absurd h.header_lt (by omega)

/-- A bank begins with a sector. -/
theorem first_mul (h : HasBanks chip len) (bank : Bank) :
    bank.base len / chip.sectorSize * chip.sectorSize = bank.base len := by
  cases bank with
  | first => simp [Bank.base]
  | second => exact h.sectors_mul

end HasBanks

theorem base_add_le (h : 2 * len ≤ addressLimit) (bank : Bank) :
    bank.base len + len ≤ addressLimit := by
  cases bank <;> simp only [Bank.base] <;> omega

/-! ## Mounting -/

/-- The bytes of one of the banks of a chip. -/
def bankBytes (chip : FlashChip) (len : Nat) (bank : Bank) : Bytes :=
  readAt chip.image (bank.base len) len

/-- What one of the banks of a chip holds. -/
def held (chip : FlashChip) (len : Nat) (bank : Bank) : Option Content :=
  Bank.ofBytes? (bankBytes chip len bank)

/-- The partition that a mount makes of what the banks hold. -/
def ofHeld {φ : Type} (device : φ) (len : Nat) (first second : Option Content) : Partition φ :=
  match Bank.newest first second with
  | some (bank, content) =>
    { device, bankLength := len, items := content.items, active := some bank
      sequence := content.sequence }
  | none => { device, bankLength := len, items := .empty, active := none, sequence := 0 }

theorem bankLength?_of_readsAs (h : FlashMemory.ReadsAs f chip) :
    bankLength? f = bankLength? chip := by
  rw [bankLength?, bankLength?, h.sectors, h.sectorSize_eq]
  rfl

/-- What a mount makes of a device that reads like a chip with two banks. -/
theorem mount_eq_of_readsAs (hf : FlashMemory.ReadsAs f chip) (h : HasBanks chip len) :
    mount f = .ok (ofHeld f len (held chip len .first) (held chip len .second)) := by
  have hheader := Nat.le_of_lt h.header_lt
  rw [mount, bankLength?_of_readsAs hf, bankLength?_eq_ok_iff.2 h]
  simp only [bind, Except.bind]
  rw [Bank.recover_eq hf hheader (h.base_le .first), Bank.recover_eq hf hheader (h.base_le .second)]
  rfl

theorem mount_eq (h : HasBanks chip len) :
    mount chip = .ok (ofHeld chip len (held chip len .first) (held chip len .second)) :=
  mount_eq_of_readsAs chip.readsAs_self h

/-- **A mount reads within the chip only**: a device that reads like it there mounts as it does. -/
theorem mount_of_readsAs (hf : FlashMemory.ReadsAs f chip) :
    mount f = (mount chip).map fun p => { p with device := f } := by
  cases hlen : bankLength? chip with
  | error e =>
    rw [mount, mount, bankLength?_of_readsAs hf, hlen]
    rfl
  | ok len =>
    have hbanks := bankLength?_eq_ok_iff.1 hlen
    rw [mount_eq_of_readsAs hf hbanks, mount_eq hbanks, ofHeld, ofHeld, Except.map]
    split <;> rfl

/-- **A mount fails only if a bank would have no room behind its header**, with the reason. -/
theorem mount_eq_error_iff (h : 0 < chip.sectorSize)
    (hlen : len = chip.image.length / chip.sectorSize / 2 * chip.sectorSize) {e : StorageError} :
    mount chip = .error e ↔ len ≤ Bank.headerLength ∧
      e = .invalidInput (if len = 0 then .singleSector else .tinyBank) := by
  have heq := bankLength?_eq h hlen
  by_cases hshort : len ≤ Bank.headerLength
  · rw [if_pos hshort] at heq
    rw [mount, heq]
    simp only [hshort, true_and]
    exact ⟨fun he => (Except.error.inj he).symm, fun he => he ▸ rfl⟩
  · rw [if_neg hshort] at heq
    rw [mount_eq (bankLength?_eq_ok_iff.1 heq)]
    constructor
    · intro he
      cases he
    · rintro ⟨hshort', -⟩
      exact absurd hshort' hshort

theorem mount_eq_ok_iff {p : Partition FlashChip} :
    mount chip = .ok p ↔ ∃ len, HasBanks chip len ∧
      p = ofHeld chip len (held chip len .first) (held chip len .second) := by
  constructor
  · intro h
    cases hlen : bankLength? chip with
    | error e =>
      rw [mount, hlen] at h
      cases h
    | ok len =>
      have hbanks := bankLength?_eq_ok_iff.1 hlen
      rw [mount_eq hbanks] at h
      exact ⟨len, hbanks, (Except.ok.inj h).symm⟩
  · rintro ⟨len, hbanks, rfl⟩
    exact mount_eq hbanks

/-- A mount takes its banks from the sectors of the chip. -/
theorem hasBanks_of_mount {p : Partition FlashChip} (h : mount chip = .ok p) :
    HasBanks chip p.bankLength := by
  obtain ⟨len, hbanks, rfl⟩ := mount_eq_ok_iff.1 h
  rw [ofHeld]
  split <;> exact hbanks

/-- A partition that is mounted is on the device it was mounted from. -/
theorem device_of_mount {p : Partition φ} (h : mount f = .ok p) : p.device = f := by
  obtain ⟨len, -, hbanks⟩ := Update.except_bind_eq_ok_iff.1 h
  obtain ⟨first, -, hsecond⟩ := Update.except_bind_eq_ok_iff.1 hbanks
  obtain ⟨second, -, hnewest⟩ := Update.except_bind_eq_ok_iff.1 hsecond
  rw [← Except.ok.inj hnewest]
  split <;> rfl

/-- A table that a mount finds is one that a bank has room for. -/
theorem length_items_of_held (hbanks : HasBanks chip len) {bank : Bank} {c : Content}
    (h : held chip len bank = some c) : c.items.encode.length ≤ len - Bank.headerLength := by
  have hlen : (bankBytes chip len bank).length = len := Flash.length_readAt (hbanks.base_le bank)
  exact hlen ▸ Bank.length_items_le h

/-- Whatever is on a chip that mounts, its table fits a bank. -/
theorem fits_of_mount {p : Partition FlashChip} (h : mount chip = .ok p) :
    p.items.encode.length ≤ p.maxPayload := by
  obtain ⟨len, hbanks, rfl⟩ := mount_eq_ok_iff.1 h
  rw [ofHeld]
  cases hfirst : held chip len .first with
  | none =>
    cases hsecond : held chip len .second with
    | none => exact Nat.zero_le _
    | some c₂ => exact length_items_of_held hbanks hsecond
  | some c₁ =>
    cases hsecond : held chip len .second with
    | none => exact length_items_of_held hbanks hfirst
    | some c₂ =>
      rw [Bank.newest]
      split
      · rename_i hnewest
        split at hnewest <;> cases hnewest
        · exact length_items_of_held hbanks hsecond
        · exact length_items_of_held hbanks hfirst
      · rename_i hnewest
        split at hnewest <;> cases hnewest

/-! ## Writing a bank -/

/-- The banks do not overlap. -/
theorem base_disjoint (len : Nat) (bank : Bank) :
    bank.other.base len + len ≤ bank.base len ∨ bank.base len + len ≤ bank.other.base len := by
  cases bank <;> simp only [Bank.other, Bank.base] <;> omega

/-- The chip after the first sectors of a bank have been erased. -/
def wiped (chip : FlashChip) (len : Nat) (bank : Bank) (count : Nat) : FlashChip :=
  chip.withImage (eraseAt chip.image (bank.base len) (count * chip.sectorSize))

/-- The chip after a bank has been erased and given bytes. -/
def written (chip : FlashChip) (len : Nat) (bank : Bank) (data : Bytes) : FlashChip :=
  { chip with
    image := programAt (eraseAt chip.image (bank.base len) len) (bank.base len) data
    tear := none }

/-- On any device with the sectors of a chip a bank is erased sector by sector. -/
theorem eraseStretch_bank_eq (h : HasBanks chip len)
    (hsize : FlashMemory.sectorSize f = chip.sectorSize) (bank : Bank) :
    FlashMemory.eraseStretch (bank.base len) len f
      = FlashMemory.eraseSectors (bank.base len / chip.sectorSize) (len / chip.sectorSize) f := by
  have hsectors : FlashMemory.eraseStretch (bank.base len / chip.sectorSize
      * FlashMemory.sectorSize f) (len / chip.sectorSize * FlashMemory.sectorSize f) f = _ :=
    FlashMemory.eraseStretch_sectors f h.sectors_div_pos (hsize ▸ h.sectorSize_pos)
  rwa [hsize, h.first_mul, h.sectors_mul] at hsectors

theorem eraseStretch_bank (h : HasBanks chip len) (hrange : 2 * len ≤ addressLimit)
    (bank : Bank) :
    (FlashMemory.eraseStretch (bank.base len) len : Update IoError FlashChip Unit) chip =
      .ok () (chip.withImage (eraseAt chip.image (bank.base len) len)) := by
  have hend : (bank.base len / chip.sectorSize + len / chip.sectorSize) * chip.sectorSize
      = bank.base len + len := by rw [Nat.add_mul, h.first_mul bank, h.sectors_mul]
  have hstretch := FlashChip.eraseStretch_eq chip h.sectors_div_pos h.sectorSize_pos
    (hend ▸ h.base_le bank) (hend ▸ base_add_le hrange bank)
  rwa [h.first_mul bank, h.sectors_mul] at hstretch

theorem writeBank_eq (h : HasBanks chip len) (hrange : 2 * len ≤ addressLimit) (bank : Bank)
    (hfit : data.length ≤ len) :
    writeBank len bank data chip =
      if chip.reach data < data.length then
        .error .powerLost (written chip len bank (data.take (chip.reach data)))
      else .ok () (written chip len bank data) := by
  have hin := h.base_le bank
  have hlen : (eraseAt chip.image (bank.base len) len).length = chip.image.length :=
    Flash.length_eraseAt hin
  have herase := eraseStretch_bank h hrange bank
  have hinside : bank.base len + data.length
      ≤ (chip.withImage (eraseAt chip.image (bank.base len) len)).image.length := by
    rw [FlashChip.withImage_image, hlen]
    omega
  exact (Update.bind_ok herase).trans (FlashChip.program_eq _ hinside)

section

variable (h : HasBanks chip len) (bank : Bank)

include h

theorem HasBanks.written (data : Bytes) : HasBanks (written chip len bank data) len :=
  h.of_length_eq rfl (Flash.length_programAt.trans (Flash.length_eraseAt (h.base_le bank)))

/-- The bank that is written holds the bytes, and is erased behind them. -/
theorem bankBytes_written_self (hfit : data.length ≤ len) :
    bankBytes (Partition.written chip len bank data) len bank
      = data ++ Bytes.erased (len - data.length) := by
  have hin := h.base_le bank
  have hlen : (eraseAt chip.image (bank.base len) len).length = chip.image.length :=
    Flash.length_eraseAt hin
  refine Flash.readAt_programAt_erased (by rw [hlen]; exact hin) hfit ?_
  rw [Flash.readAt_eraseAt_front hin (Nat.le_refl _),
    List.drop_of_length_le (by rw [Flash.length_readAt hin]), List.append_nil]

/-- The other bank is left alone. -/
theorem bankBytes_written_other (hfit : data.length ≤ len) :
    bankBytes (Partition.written chip len bank data) len bank.other
      = bankBytes chip len bank.other := by
  have hin := h.base_le bank
  have hlen : (eraseAt chip.image (bank.base len) len).length = chip.image.length :=
    Flash.length_eraseAt hin
  have hdisjoint := base_disjoint len bank
  rw [bankBytes, Partition.written, Flash.readAt_programAt_of_disjoint (by rw [hlen]; omega)
    (by omega), Flash.readAt_eraseAt_of_disjoint hin hdisjoint]
  rfl

end

section

variable (h : HasBanks chip len) (bank : Bank) {count : Nat}
  (hcount : count * chip.sectorSize ≤ len)

include h hcount

theorem HasBanks.wiped : HasBanks (wiped chip len bank count) len := by
  have hin := h.base_le bank
  exact h.of_length_eq rfl (Flash.length_eraseAt (by omega))

/-- The bank begins with the erased sectors, and goes on as before. -/
theorem bankBytes_wiped_self :
    bankBytes (Partition.wiped chip len bank count) len bank
      = Bytes.erased (count * chip.sectorSize)
        ++ (bankBytes chip len bank).drop (count * chip.sectorSize) :=
  Flash.readAt_eraseAt_front (h.base_le bank) hcount

/-- The other bank is left alone. -/
theorem bankBytes_wiped_other :
    bankBytes (Partition.wiped chip len bank count) len bank.other
      = bankBytes chip len bank.other := by
  have hin := h.base_le bank
  have hdisjoint := base_disjoint len bank
  exact Flash.readAt_eraseAt_of_disjoint (by omega) (by omega)

end

end UpdateVault.Partition
