import UpdateVault.Text

/-!
The phases of an update: their stored numbers, their names, and the spellings of a
name that are accepted from a user.
-/

namespace UpdateVault

inductive Phase
  /-- The artifact is being downloaded and written to the inactive slot. -/
  | download
  /-- The artifact is written, its installation is being finalized. -/
  | install
  /-- A restart into the new artifact has been requested. -/
  | reboot
  /-- The new artifact has booted and waits for its confirmation. -/
  | verifyReboot
  /-- The new artifact has been accepted. -/
  | commit
  /-- Housekeeping after the update. -/
  | cleanup
  /-- The previous artifact is being restored. -/
  | rollback
  /-- A restart into the previous artifact has been requested. -/
  | rollbackReboot
  /-- The previous artifact has booted again. -/
  | rollbackVerifyReboot
  /-- The update failed and the failure is being reported. -/
  | failure
  /-- The lifecycle is finished. -/
  | finished
  deriving DecidableEq, Repr

namespace Phase

def all : List Phase :=
  [download, install, reboot, verifyReboot, commit, cleanup, rollback, rollbackReboot,
    rollbackVerifyReboot, failure, finished]

/-- The number under which a phase is stored. -/
def value : Phase → Nat
  | download => 0
  | install => 1
  | reboot => 2
  | verifyReboot => 3
  | commit => 4
  | cleanup => 5
  | rollback => 6
  | rollbackReboot => 7
  | rollbackVerifyReboot => 8
  | failure => 9
  | finished => 10

def ofValue? (n : Nat) : Option Phase := all[n]?

@[simp] theorem ofValue?_value (p : Phase) : ofValue? p.value = some p := by cases p <;> rfl

theorem value_of_ofValue? {n : Nat} {p : Phase} (h : ofValue? n = some p) : p.value = n := by
  obtain ⟨hn, hp⟩ := List.getElem?_eq_some_iff.1 h
  have : ∀ i : Fin 11, (all.get ⟨i, i.isLt⟩).value = i := by decide
  simpa [← hp] using this ⟨n, hn⟩

theorem value_lt (p : Phase) : p.value < 11 := by cases p <;> decide

/-- The name of a phase, as it is shown and written. -/
def name : Phase → String
  | download => "download"
  | install => "install"
  | reboot => "reboot"
  | verifyReboot => "verify_reboot"
  | commit => "commit"
  | cleanup => "cleanup"
  | rollback => "rollback"
  | rollbackReboot => "rollback_reboot"
  | rollbackVerifyReboot => "rollback_verify_reboot"
  | failure => "failure"
  | finished => "end"

/-- The phase with a name, spelled exactly. -/
def ofName? (s : String) : Option Phase := all.find? (·.name == s)

@[simp] theorem ofName?_name (p : Phase) : ofName? p.name = some p := by cases p <;> decide

theorem name_of_ofName? {s : String} {p : Phase} (h : ofName? s = some p) : p.name = s := by
  simpa using List.find?_some h

/-- A character of a user's spelling: ASCII letters are taken in lower case and a
hyphen stands for an underscore. -/
def normalizeChar (c : Char) : Char := if c = '-' then '_' else c.toLower

/-- The phase a user means: blanks around the name, the case of its letters and the
choice between `-` and `_` do not matter. -/
def parse? (s : String) : Option Phase :=
  ofName? (String.ofList ((Text.trim Text.isBlank s.toList).map normalizeChar))

def unknownText (s : String) : String := "unknown update state: " ++ s

/-- Whether the phase is stored right before or right after a restart. -/
def isAroundRestart : Phase → Bool
  | reboot | verifyReboot | rollbackReboot | rollbackVerifyReboot => true
  | _ => false

/-- The name of a phase in capitalized words, as diagnostics show it. -/
def label : Phase → String
  | download => "Download"
  | install => "Install"
  | reboot => "Reboot"
  | verifyReboot => "VerifyReboot"
  | commit => "Commit"
  | cleanup => "Cleanup"
  | rollback => "Rollback"
  | rollbackReboot => "RollbackReboot"
  | rollbackVerifyReboot => "RollbackVerifyReboot"
  | failure => "Failure"
  | finished => "End"

end Phase

end UpdateVault
