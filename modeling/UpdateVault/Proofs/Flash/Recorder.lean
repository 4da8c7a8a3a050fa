import UpdateVault.Proofs.Flash.Steps

/-!
# Chips that are recorded

A recorder is a chip together with the steps that it has been told to take, also those that a
failure kept it from taking. It answers like the chip, so whatever is done to a device on a recorder
is what is done to the chip, and the record says which cells that was about.
-/

namespace UpdateVault

open FlashChip (FlashStep eraseSteps programSteps)

/-- A chip, and the steps that it has been told to take. -/
structure FlashRecorder where
  chip : FlashChip
  steps : List FlashStep

namespace FlashRecorder

variable {chip chip' : FlashChip} {past steps : List FlashStep} {first count : Nat}

/-- A change of the chip that tells it to take some steps. -/
def recording (steps : List FlashStep) (change : Update IoError FlashChip Unit) :
    Update IoError FlashRecorder Unit := fun r =>
  match change r.chip with
  | .ok () chip => .ok () ⟨chip, r.steps ++ steps⟩
  | .error e chip => .error e ⟨chip, r.steps ++ steps⟩

instance : FlashMemory FlashRecorder where
  sectorSize r := FlashMemory.sectorSize r.chip
  sectorCount r := FlashMemory.sectorCount r.chip
  read r := FlashMemory.read r.chip
  program offset data := recording (programSteps offset data) (FlashMemory.program offset data)
  eraseSector sector := recording [.erase sector] (FlashMemory.eraseSector sector)

theorem recording_ok {change : Update IoError FlashChip Unit} (h : change chip = .ok () chip') :
    recording steps change ⟨chip, past⟩ = .ok () ⟨chip', past ++ steps⟩ := by
  simp only [recording, h]

/-- Sectors that can be erased are erased one after the other. -/
theorem eraseSectors_eq
    (h : (FlashMemory.eraseSectors first count : Update IoError FlashChip Unit) chip
      = .ok () chip') :
    (FlashMemory.eraseSectors first count : Update IoError FlashRecorder Unit) ⟨chip, past⟩
      = .ok () ⟨chip', past ++ eraseSteps first count⟩ := by
  induction count generalizing first chip past with
  | zero =>
    cases h
    rw [eraseSteps, List.append_nil]
    rfl
  | succ count ih =>
    obtain ⟨⟨⟩, next, hone, hmore⟩ := Update.bind_eq_ok_iff.1 h
    refine (Update.bind_ok (recording_ok hone)).trans ((ih hmore).trans ?_)
    rw [eraseSteps, List.append_assoc]
    rfl

end FlashRecorder

end UpdateVault
