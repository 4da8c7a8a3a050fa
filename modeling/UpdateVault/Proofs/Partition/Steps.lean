import UpdateVault.Proofs.Flash.Recorder
import UpdateVault.Proofs.Partition.Call

/-!
# The steps of a call

A call that commits is a list of steps of the chip: the sectors of the target bank are erased, then
the image is programmed byte by byte (`Call.steps`). They are not made up beside the call: a call on
a recorder tells it to take just these (`Call.record_eq`).
-/

namespace UpdateVault.Partition

open Flash (addressLimit eraseAt programAt)
open FlashChip (FlashStep runSteps eraseSteps programSteps)

variable {p : Partition FlashChip} {chip : FlashChip} {len k : Nat} {bank : Bank}
  {table : ItemTable} {data : Bytes}

/-! ## The steps of a commit -/

/-- The steps that give a bank an image. -/
def bankSteps (chip : FlashChip) (len : Nat) (bank : Bank) (data : Bytes) : List FlashStep :=
  eraseSteps (bank.base len / chip.sectorSize) (len / chip.sectorSize)
    ++ programSteps (bank.base len) data

/-- Up to the last of the erases, the steps erase. -/
theorem runSteps_take_of_le (h : HasBanks chip len) (hrange : 2 * len ≤ addressLimit)
    (hk : k ≤ len / chip.sectorSize) :
    runSteps ((bankSteps chip len bank data).take k) chip = .ok () (wiped chip len bank k) := by
  have hfirst := h.first_mul bank
  have hin := h.base_le bank
  have hlimit := base_add_le hrange bank
  have hsectors : k * chip.sectorSize ≤ len :=
    (Nat.mul_le_mul_right _ hk).trans (Nat.le_of_eq h.sectors_mul)
  have hend : (bank.base len / chip.sectorSize + k) * chip.sectorSize
      = bank.base len + k * chip.sectorSize := by rw [Nat.add_mul, hfirst]
  rw [bankSteps, List.take_append_of_le_length (by rwa [FlashChip.length_eraseSteps]),
    FlashChip.take_eraseSteps hk, FlashChip.runSteps_eraseSteps,
    FlashChip.eraseSectors_eq chip _ k (by omega) (by omega) h.sectorSize_pos, hfirst]
  rfl

/-- Behind the erases come the steps that program. -/
theorem runSteps_take_eq (h : HasBanks chip len) (hrange : 2 * len ≤ addressLimit)
    (hk : len / chip.sectorSize ≤ k) :
    runSteps ((bankSteps chip len bank data).take k) chip =
      runSteps (programSteps (bank.base len) (data.take (k - len / chip.sectorSize)))
        (wiped chip len bank (len / chip.sectorSize)) := by
  have herase : runSteps (eraseSteps (bank.base len / chip.sectorSize) (len / chip.sectorSize)) chip
      = .ok () (wiped chip len bank (len / chip.sectorSize)) := by
    have hall : runSteps ((bankSteps chip len bank []).take (len / chip.sectorSize)) chip
        = .ok () (wiped chip len bank (len / chip.sectorSize)) :=
      runSteps_take_of_le h hrange (Nat.le_refl _)
    rwa [bankSteps, programSteps, List.append_nil, List.take_of_length_le
      (by rw [FlashChip.length_eraseSteps])] at hall
  rw [bankSteps, List.take_append, FlashChip.length_eraseSteps, FlashChip.take_programSteps,
    List.take_of_length_le (by rwa [FlashChip.length_eraseSteps]),
    FlashChip.runSteps_append herase]

/-- What is programmed into an erased bank lies on the chip. -/
theorem inside_wiped (h : HasBanks chip len) (hfit : data.length ≤ len) :
    bank.base len + data.length
      ≤ (wiped chip len bank (len / chip.sectorSize)).image.length := by
  have hin := h.base_le bank
  have herased : (eraseAt chip.image (bank.base len) len).length = chip.image.length :=
    Flash.length_eraseAt hin
  rw [wiped, FlashChip.withImage_image, h.sectors_mul, herased]
  omega

/-- Programming an erased bank is writing it. -/
theorem wiped_programAt (h : HasBanks chip len) (tear : Option Nat) :
    { wiped chip len bank (len / chip.sectorSize) with
        image := programAt (wiped chip len bank (len / chip.sectorSize)).image (bank.base len) data
        tear }
      = { written chip len bank data with tear } := by
  rw [wiped, h.sectors_mul]
  rfl

/-- With power the steps behind the erases program what there is time for. -/
theorem runSteps_take_of_ge (h : HasBanks chip len) (hrange : 2 * len ≤ addressLimit)
    (htear : chip.tear = none) (hfit : data.length ≤ len) (hk : len / chip.sectorSize ≤ k) :
    runSteps ((bankSteps chip len bank data).take k) chip =
      .ok () (written chip len bank (data.take (k - len / chip.sectorSize))) := by
  have htake : (data.take (k - len / chip.sectorSize)).length ≤ len :=
    (List.length_take_le' _ _).trans hfit
  have htear' : (wiped chip len bank (len / chip.sectorSize)).tear = none := htear
  rw [runSteps_take_eq h hrange hk, FlashChip.runSteps_programSteps htear' (inside_wiped h htake),
    FlashChip.withImage, htear', wiped_programAt h none]
  rfl

/-- The steps that the chip takes during a call. -/
def Call.steps (call : Call) (p : Partition FlashChip) : List FlashStep :=
  match call.commits? p with
  | none => []
  | some table => bankSteps p.device p.bankLength p.target (p.nextImage table)

/-! ## Calls on a recorder -/

/-- Writing a bank tells a recorder the steps that erase it and program it. -/
theorem writeBank_recording (h : HasBanks chip len) (hrange : 2 * len ≤ addressLimit) (bank : Bank)
    (data : Bytes) (past : List FlashStep) :
    writeBank len bank data (⟨chip, past⟩ : FlashRecorder)
      = FlashRecorder.recording (bankSteps chip len bank data) (writeBank len bank data)
        ⟨chip, past⟩ := by
  have hchip := eraseStretch_bank h hrange bank
  have hsectors := (eraseStretch_bank_eq h rfl bank).symm.trans hchip
  have hrecorder : FlashMemory.eraseStretch (bank.base len) len (⟨chip, past⟩ : FlashRecorder)
      = .ok () ⟨_, past ++ _⟩ :=
    (eraseStretch_bank_eq h rfl bank).trans (FlashRecorder.eraseSectors_eq hsectors)
  rw [writeBank, Update.bind_ok hrecorder]
  simp only [FlashRecorder.recording, writeBank, Update.bind_ok hchip, bankSteps,
    ← List.append_assoc]
  rfl

/-- The partition on a recorder that has been told nothing yet. -/
def recorded (p : Partition FlashChip) : Partition FlashRecorder :=
  { p with device := ⟨p.device, []⟩ }

/-- What a recorder knows after a call: where the chip ends, and the steps it was told to take. -/
def Call.record (call : Call) (p : Partition FlashChip) : FlashRecorder :=
  (call.runOn.after p.recorded).device

theorem commit_recorded (h : p.Sound) (hfit : table.encode.length ≤ p.maxPayload) :
    ((commit table).after p.recorded).device
      = ⟨((commit table).after p).device,
          bankSteps p.device p.bankLength p.target (p.nextImage table)⟩ := by
  have hwrite : writeBank p.recorded.bankLength p.recorded.target
      (Bank.image (p.recorded.sequence + 1) table.encode) p.recorded.device
      = FlashRecorder.recording _ _ ⟨p.device, []⟩ :=
    writeBank_recording h.banks h.inRange p.target (p.nextImage table) []
  have hchip : ¬ p.maxPayload < table.encode.length := Nat.not_lt.2 hfit
  have hrecorder : ¬ p.recorded.maxPayload < table.encode.length := hchip
  simp only [Update.after, commit, if_neg hchip, if_neg hrecorder, hwrite, FlashRecorder.recording,
    nextImage]
  cases writeBank p.bankLength p.target (Bank.image (p.sequence + 1) table.encode) p.device <;> rfl

/-- **A recorder follows a call**: the chip ends where it would, and has been told to take the steps
of the call. -/
theorem Call.record_eq (h : p.Sound) (call : Call) :
    call.record p = ⟨(call.after p).device, call.steps p⟩ := by
  rcases Call.runOn_cases call p.recorded with
    ⟨table, happlied, hne, hfit, hrun⟩ | ⟨hnothing, hrun⟩
  · have hcommits : call.commits? p = some table :=
      Call.commits?_eq_some_iff.2 ⟨happlied, hne, hfit⟩
    have hafter : call.after p = (commit table).after p := by
      rw [Call.after_eq, Update.after, Update.after, Call.run_of_some hcommits]
    rw [Call.record, Update.after, hrun, Call.steps, hcommits, hafter]
    exact commit_recorded h hfit
  · have hcommits : call.commits? p = none := Call.commits?_eq_none_iff.2 hnothing
    have hstays : call.runOn.after p.recorded = p.recorded := by
      rcases hrun with ⟨hok, -⟩ | ⟨e, herror⟩
      · exact Update.after_of_ok hok
      · exact Update.after_of_error herror
    rw [Call.record, hstays, Call.steps, hcommits, Call.after_of_none hcommits]
    rfl

end UpdateVault.Partition
