import UpdateVault.Config.Text
import UpdateVault.Proofs.Json.Reading

/-!
# The text of a configuration

`ofText_text`: every configuration whose sizes fit 64 bits is read back from its text. Each field
is read where it was written (`readsMembers_fields`), so no default ever steps in.
-/

namespace UpdateVault

open Json Json.Reader

namespace PartitionConfig

/-- Sizes that fit the 64 bits of a machine word. -/
structure FitsWords (p : PartitionConfig) : Prop where
  sectorSize : p.sectorSize < UInt64.size
  sectorCount : p.sectorCount < UInt64.size

variable {p : PartitionConfig}

/-- The draft of which every field has been read. -/
def draft (p : PartitionConfig) : Draft where
  image := some p.image
  sectorSize := some p.sectorSize
  sectorCount := some p.sectorCount

theorem readsMembers_fields (h : p.FitsWords) (level : Nat) :
    ReadsMembers level fields {} p.toJson.members p.draft := by
  refine .cons (fun _ => recordMember_make rfl rfl ((reads_text p.image.text).map Path.mk)) ?_
  refine .cons (fun _ => recordMember_make rfl rfl (reads_natural h.sectorSize)) ?_
  refine .cons (fun _ => recordMember_make rfl rfl (reads_natural h.sectorCount)) ?_
  exact .nil

theorem reads_reader (h : p.FitsWords) (level : Nat) :
    Reads reader (p.toJson.prettyChars level) p :=
  (reads_record (readsMembers_fields h (level + 1))).bind fun _ => rfl

end PartitionConfig

namespace Config

variable {c : Config}

/-- The draft of which every field has been read. -/
def draft (c : Config) : Draft where
  root := some c.root
  backend := some c.backend
  layout := some c.layout
  duplicates := some c.duplicates
  partition := some c.partition

theorem readsMembers_fields (h : c.partition.FitsWords) (level : Nat) :
    ReadsMembers level fields {} c.toJson.members c.draft := by
  refine .cons (fun _ => recordMember_make rfl rfl ((reads_text c.root.text).map Path.mk)) ?_
  refine .cons (fun _ => recordMember_make rfl rfl (reads_choice (c.backend.ofName?_name))) ?_
  refine .cons (fun _ => recordMember_make rfl rfl (reads_choice (c.layout.ofName?_name))) ?_
  refine .cons (fun _ => recordMember_make rfl rfl (reads_choice (c.duplicates.ofName?_name))) ?_
  refine .cons (fun _ => recordMember_make rfl rfl (PartitionConfig.reads_reader h level)) ?_
  exact .nil

/-- **A configuration is read back from its text.** -/
theorem ofText_text (h : c.partition.FitsWords) : ofText c.text = .ok c :=
  ((reads_record (readsMembers_fields h 1)).bind fun _ => rfl).run_eq

end Config

end UpdateVault
