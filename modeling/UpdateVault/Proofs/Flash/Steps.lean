import UpdateVault.Proofs.Flash.Chip

/-!
# A chip, one step at a time

A chip erases one sector or programs one byte at a time. A chip that loses its power has taken
the first steps of a list and no others; `runSteps_eraseSteps` and `runSteps_programSteps` say
what all of them do.
-/

namespace UpdateVault.FlashChip

open Flash (addressLimit programAt)

variable {first count offset k : Nat} {data : Bytes} {chip chip' : FlashChip}

/-- What a chip does at a time. -/
inductive FlashStep
  | erase (sector : Nat)
  | program (address : Nat) (byte : UInt8)
  deriving DecidableEq, Repr

def FlashStep.run : FlashStep → Update IoError FlashChip Unit
  | erase sector => FlashMemory.eraseSector sector
  | program address byte => FlashMemory.program address [byte]

/-- A step erases or programs a cell, on a chip with sectors of a size. -/
def FlashStep.Touches (size : Nat) : FlashStep → Nat → Prop
  | erase sector, cell => sector * size ≤ cell ∧ cell < (sector + 1) * size
  | program address _, cell => cell = address

/-- Steps one after the other, up to the first that fails. -/
def runSteps : List FlashStep → Update IoError FlashChip Unit
  | [] => pure ()
  | step :: rest => do
    step.run
    runSteps rest

/-- The steps that erase sectors in ascending order. -/
def eraseSteps : Nat → Nat → List FlashStep
  | _, 0 => []
  | first, count + 1 => .erase first :: eraseSteps (first + 1) count

/-- The steps that program data in ascending order. -/
def programSteps : Nat → Bytes → List FlashStep
  | _, [] => []
  | offset, byte :: rest => .program offset byte :: programSteps (offset + 1) rest

@[simp] theorem length_eraseSteps : (eraseSteps first count).length = count := by
  induction count generalizing first with
  | zero => rfl
  | succ count ih => rw [eraseSteps, List.length_cons, ih]

@[simp] theorem length_programSteps : (programSteps offset data).length = data.length := by
  induction data generalizing offset with
  | nil => rfl
  | cons byte rest ih => rw [programSteps, List.length_cons, List.length_cons, ih]

theorem mem_eraseSteps {step : FlashStep} (h : step ∈ eraseSteps first count) :
    ∃ sector, first ≤ sector ∧ sector < first + count ∧ step = .erase sector := by
  induction count generalizing first with
  | zero => cases h
  | succ count ih =>
    rcases List.mem_cons.1 h with rfl | h
    · exact ⟨first, Nat.le_refl _, by omega, rfl⟩
    · obtain ⟨sector, hle, hlt, rfl⟩ := ih h
      exact ⟨sector, by omega, by omega, rfl⟩

theorem mem_programSteps {step : FlashStep} (h : step ∈ programSteps offset data) :
    ∃ address byte, offset ≤ address ∧ address < offset + data.length ∧
      step = .program address byte := by
  induction data generalizing offset with
  | nil => cases h
  | cons byte rest ih =>
    rw [List.length_cons]
    rcases List.mem_cons.1 h with rfl | h
    · exact ⟨offset, byte, Nat.le_refl _, by omega, rfl⟩
    · obtain ⟨address, byte', hle, hlt, rfl⟩ := ih h
      exact ⟨address, byte', by omega, by omega, rfl⟩

theorem take_eraseSteps (h : k ≤ count) : (eraseSteps first count).take k = eraseSteps first k := by
  induction k generalizing first count with
  | zero => rfl
  | succ k ih =>
    obtain ⟨count, rfl⟩ : ∃ n, count = n + 1 := ⟨count - 1, by omega⟩
    rw [eraseSteps, eraseSteps, List.take_succ_cons, ih (by omega)]

theorem take_programSteps :
    (programSteps offset data).take k = programSteps offset (data.take k) := by
  induction data generalizing offset k with
  | nil => simp [programSteps]
  | cons byte rest ih =>
    cases k with
    | zero => rfl
    | succ k => rw [programSteps, List.take_succ_cons, List.take_succ_cons, programSteps, ih]

theorem runSteps_append {steps rest : List FlashStep} (h : runSteps steps chip = .ok () chip') :
    runSteps (steps ++ rest) chip = runSteps rest chip' := by
  induction steps generalizing chip with
  | nil =>
    cases h
    rfl
  | cons step steps ih =>
    obtain ⟨⟨⟩, next, hstep, hsteps⟩ := Update.bind_eq_ok_iff.1 h
    exact (Update.bind_ok hstep).trans (ih hsteps)

theorem runSteps_eraseSteps :
    runSteps (eraseSteps first count) = FlashMemory.eraseSectors first count := by
  induction count generalizing first with
  | zero => rfl
  | succ count ih =>
    rw [eraseSteps, runSteps, ih]
    rfl

theorem runSteps_programSteps (htear : chip.tear = none)
    (h : offset + data.length ≤ chip.image.length) :
    runSteps (programSteps offset data) chip =
      .ok () (chip.withImage (programAt chip.image offset data)) := by
  induction data generalizing offset chip with
  | nil =>
    rw [Flash.programAt_nil (by simpa using h)]
    rfl
  | cons byte rest ih =>
    rw [List.length_cons] at h
    have hreach : ¬ chip.reach [byte] < [byte].length := by
      rw [reach, htear]
      exact Nat.lt_irrefl _
    have hbyte : (FlashStep.program offset byte).run chip =
        .ok () (chip.withImage (programAt chip.image offset [byte])) := by
      rw [FlashStep.run, program_eq chip (by rw [List.length_singleton]; omega), if_neg hreach,
        withImage, htear]
    have hafter : (chip.withImage (programAt chip.image offset [byte])).tear = none := htear
    have hinside : offset + 1 + rest.length
        ≤ (chip.withImage (programAt chip.image offset [byte])).image.length := by
      rw [withImage_image, Flash.length_programAt]
      omega
    refine ((Update.bind_ok hbyte).trans (ih hafter hinside)).trans ?_
    rw [withImage_withImage, withImage_image, Flash.programAt_cons (by omega)]

/-- Bytes that are programmed one by one get as far as the power lasts. -/
theorem after_programSteps (h : offset + data.length ≤ chip.image.length) :
    ∃ k tear, (runSteps (programSteps offset data)).after chip =
      { chip with image := programAt chip.image offset (data.take k), tear } := by
  cases data with
  | nil =>
    refine ⟨0, chip.tear, ?_⟩
    rw [List.take_nil, Flash.programAt_nil (by simpa using h)]
    rfl
  | cons byte rest =>
    rw [List.length_cons] at h
    have hfirst : offset + [byte].length ≤ chip.image.length := by
      rw [List.length_singleton]
      omega
    have hbyte := program_eq chip hfirst
    by_cases hreach : chip.reach [byte] < [byte].length
    · -- the power is lost before the first byte
      have hnone : chip.reach [byte] = 0 := by
        rw [List.length_singleton] at hreach
        omega
      rw [if_pos hreach, hnone] at hbyte
      exact ⟨0, none, Update.after_of_error (Update.bind_error hbyte)⟩
    · -- the first byte uses up a loss of power that comes later
      rw [if_neg hreach] at hbyte
      have hrest : runSteps (programSteps (offset + 1) rest)
          { chip with image := programAt chip.image offset [byte], tear := none } = .ok () _ :=
        runSteps_programSteps rfl (by rw [Flash.length_programAt]; omega)
      have hrun : runSteps (programSteps offset (byte :: rest)) chip = .ok () _ :=
        (Update.bind_ok hbyte).trans hrest
      refine ⟨rest.length + 1, none, ?_⟩
      rw [Update.after_of_ok hrun, List.take_succ_cons, List.take_length, withImage,
        Flash.programAt_cons (by omega)]

end UpdateVault.FlashChip
