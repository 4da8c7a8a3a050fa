import UpdateVault.Vault

/-!
What to do after a restart, and the end of an update.
-/

namespace UpdateVault

/-- What the update client does after a restart. -/
inductive BootDecision
  /-- No update is in progress. -/
  | freshStart
  /-- The lifecycle goes on from a checkpoint. -/
  | resume (checkpoint : Checkpoint)
  /-- The update is abandoned and the previous artifact restored. -/
  | rollback (reason : String)
  deriving DecidableEq, Repr

namespace BootDecision

def abandonsUpdate : BootDecision → Bool
  | rollback _ => true
  | _ => false

end BootDecision

namespace Phase

/-- Whether an update that stopped in this phase never booted its artifact. -/
def isBeforeBoot : Phase → Bool
  | download | install => true
  | _ => false

end Phase

namespace Vault

variable {σ : Type} [ItemStorage σ]

/-- What to do with the checkpoint that was found. An absent one means that there is nothing
to resume; one that cannot be trusted, or that was left before the artifact ever booted, that
the update is rolled back. A missing capability stays an error. -/
def decisionFor : Except StorageError Checkpoint → Except StorageError BootDecision
  | .ok c =>
    if c.phase.isBeforeBoot then
      .ok (.rollback ("update interrupted during " ++ c.phase.name))
    else .ok (.resume c)
  | .error e => match e.kind with
    | .absent => .ok .freshStart
    | .unsupported => .error e
    | .unusable => .ok (.rollback e.message)

def bootDecision (s : σ) : Except StorageError BootDecision := decisionFor (checkpoint s)

/-- Drops the records of a finished update, the checkpoint first. What describes the
installed artifact stays. -/
def finishUpdate : Update StorageError σ Unit := do
  deleteCheckpoint
  deleteDeployment

end Vault

end UpdateVault
