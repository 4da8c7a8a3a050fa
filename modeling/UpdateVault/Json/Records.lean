import UpdateVault.Boot
import UpdateVault.Json.Print
import UpdateVault.Json.Typed

/-!
The JSON forms of phases, checkpoints, capabilities and boot actions. Records are written
with their fields in the order of the field names.
-/

namespace UpdateVault

open Json

/-! ## Phases and checkpoints -/

namespace Phase

/-- A phase is written as its name. -/
def toJson (p : Phase) : Value := .string p.name

def ofJson (text : String) : Except Json.Fault Phase :=
  Reader.run (Reader.choice ofName?) text

end Phase

namespace Checkpoint

/-- A checkpoint is written with the fields `artifact_type` and `state`. -/
def toJson (c : Checkpoint) : Value :=
  .sorted [("state", c.phase.toJson), ("artifact_type", .string c.artifactType)]

/-- The fields of a checkpoint that have been read. -/
structure Draft where
  phase : Option Phase := none
  artifactType : Option String := none

def fields : List (Reader.Field Draft) :=
  [.make "state" (Reader.choice Phase.ofName?) (·.phase) fun p d => { d with phase := some p },
    .make "artifact_type" Reader.text (·.artifactType)
      fun t d => { d with artifactType := some t }]

/-- Reads a checkpoint, which has to have both fields. -/
def reader : Reader Checkpoint := do
  let d ← Reader.record fields {}
  return ⟨← Reader.required d.phase, ← Reader.required d.artifactType⟩

def ofJson (text : String) : Except Json.Fault Checkpoint := Reader.run reader text

end Checkpoint

/-! ## Capabilities -/

namespace Provides

def toJson (m : Provides) : Value := .ofMap m

def ofJson (text : String) : Except Json.Fault Provides := Reader.run Reader.textMap text

end Provides

/-! ## Boot actions -/

/-- A boot action is written with its name in the field `action`, beside what belongs to it. -/
def BootDecision.toJson : BootDecision → Value
  | freshStart => .sorted [("action", .string "fresh_start")]
  | resume c =>
    .sorted [("action", .string "resume"), ("state", c.phase.toJson),
      ("artifact_type", .string c.artifactType)]
  | rollback reason => .sorted [("action", .string "rollback"), ("reason", .string reason)]

end UpdateVault
