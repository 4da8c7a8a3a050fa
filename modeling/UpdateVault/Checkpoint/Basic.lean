import UpdateVault.Phase

/-!
A checkpoint: what the device was doing at the last moment worth remembering, and
with which kind of artifact.
-/

namespace UpdateVault

/-- The phase of the update and the type of its artifact. -/
structure Checkpoint where
  phase : Phase
  artifactType : String
  deriving DecidableEq, Repr

/-- The two layouts in which a checkpoint may be written. -/
inductive CheckpointLayout
  /-- The number of the phase, directly followed by the artifact type. -/
  | plain
  /-- The plain layout in an envelope with its length and checksum. -/
  | checked
  deriving DecidableEq, Repr

instance : Inhabited CheckpointLayout := ⟨.checked⟩

end UpdateVault
