import UpdateVault.Config.File
import UpdateVault.Proofs.Config.Text
import UpdateVault.Proofs.Disk.Frame

/-!
# Keeping a configuration

`load_of_save`: what was saved in a directory is loaded from it, unchanged if it meets the
conditions, and otherwise refused for the first condition that it does not meet.
-/

namespace UpdateVault.Config

variable {c : Config} {dir : Path} {d d' d'' : Disk} {place : Location}

/-- A partition that meets the conditions has at least two sectors, which an image has room for,
and an image in the storage root. -/
theorem partition_of_valid (hvalid : c.violation? = none) (hbackend : c.backend = .nvs) :
    0 < c.partition.sectorSize ∧ 2 ≤ c.partition.sectorCount ∧
      c.partition.sectorSize * c.partition.sectorCount ≤ maxImageLength ∧
      c.partition.image.isSingle = true := by
  rw [violation?, if_pos hbackend] at hvalid
  split at hvalid
  · cases hvalid
  · rw [partitionViolation?] at hvalid
    split at hvalid
    · cases hvalid
    · rename_i hsectors
      split at hvalid
      · cases hvalid
      · rename_i hlength
        split at hvalid
        · rename_i hsingle
          exact ⟨by omega, by omega, Nat.not_lt.1 hlength, hsingle⟩
        · cases hvalid

theorem nonempty_of_valid (hvalid : c.violation? = none) : c.root.text.isEmpty = false := by
  rw [violation?] at hvalid
  split at hvalid
  · cases hvalid
  · rename_i hne
    simpa using hne

/-- The default configuration of a root meets all conditions. -/
theorem violation?_default {root : Path} (hroot : root.text.isEmpty = false)
    (backend : StorageKind) : violation? { root, backend } = none := by
  have hpartition : partitionViolation? {} = none := by decide
  rw [violation?, if_neg (by simp [hroot])]
  split
  · exact hpartition
  · rfl

/-- What a loader makes of a configuration that it has read. -/
def verdict (c : Config) : Except FileError Config :=
  match c.violation? with
  | none => .ok c
  | some v => .error (.invalid v)

theorem check_text (h : c.partition.FitsWords) : check c.text = c.verdict := by
  rw [check, ofText_text h, verdict]
  simp only [bind, Except.bind, Except.mapError]
  cases c.violation? <;> rfl

/-- A configuration that is loaded meets all conditions. -/
theorem valid_of_load (h : load dir d = .ok c) : c.violation? = none := by
  rw [load] at h
  split at h
  · split at h
    · cases h
    · rename_i text _
      obtain ⟨read, -, hcheck⟩ := Update.except_bind_eq_ok_iff.1 h
      split at hcheck
      · cases hcheck
      · rename_i hvalid
        cases hcheck
        exact hvalid
  · cases h

/-- The file of a configuration, where a path leads to it. -/
theorem load_of_find (h : c.partition.FitsWords)
    (hfind : d.find (filePath dir) = .ok (place, .file (Utf8.encode c.text))) :
    load dir d = c.verdict := by
  have hexists : d.exists (filePath dir) = true := by rw [Disk.exists, hfind]; rfl
  have hread : d.readText (filePath dir) = .ok c.text := by
    rw [Disk.readText, Disk.readFile, hfind]
    simp only [bind, Except.bind, pure, Except.pure, Utf8.decode?_encode]
  simp only [load, hexists, hread, if_true]
  exact check_text h

/-- A configuration is saved in one file, in a directory that is there or has been made. -/
theorem save_eq_ok (h : save c dir d = .ok () d') :
    ∃ d₁ place, Disk.makePath dir d = .ok () d₁ ∧ d₁.fileSlot (filePath dir) = .ok place ∧
      d'.node? place = some (.file (Utf8.encode c.text)) ∧
      Disk.ChangesFiles [place] d₁ d' := by
  rw [save] at h
  split at h
  · cases h
  · rename_i d₁ hmake
    split at h
    · cases h
    · rename_i d₂ hwrite
      cases h
      obtain ⟨place, hslot, hnode, hchanges⟩ := Disk.writeFile_eq_ok hwrite
      exact ⟨d₁, place, hmake, hslot, hnode, hchanges⟩

/-- Where a configuration cannot be saved, all files are as they were. -/
theorem onlyAdds_of_save_error {e : FileError} (h : save c dir d = .error e d') :
    d.OnlyAddsDirectories d' := by
  have hmade := Disk.onlyAdds_makePath dir d
  rw [save] at h
  split at h
  · rename_i hmake
    cases h
    rwa [Update.after_of_error hmake] at hmade
  · rename_i d₁ hmake
    rw [Update.after_of_ok hmake] at hmade
    split at h
    · rename_i hwrite
      cases h
      rwa [Disk.writeFile_error hwrite]
    · cases h

/-- **What was saved is loaded**, whatever was in the directory before. -/
theorem load_of_save (h : c.partition.FitsWords) (hsave : save c dir d = .ok () d') :
    load dir d' = match c.violation? with
      | none => .ok c
      | some v => .error (.invalid v) := by
  obtain ⟨d₁, place, -, hslot, hnode, hchanges⟩ := save_eq_ok hsave
  exact load_of_find h (Disk.find_of_fileSlot hslot hchanges.keeps hnode)

/-- A configuration whose storage root takes every kind of escape, and whose sizes are at both
ends of a word. -/
def escaped : Config where
  root := ⟨"/\"\\/\t\x01\x7f/😀"⟩
  layout := .plain
  duplicates := .reject
  partition := { image := ⟨"a\nb"⟩, sectorSize := 0, sectorCount := UInt64.size - 1 }

theorem load_of_save_escaped :
    ∃ d', save escaped ⟨"/"⟩ ⟨.empty, []⟩ = .ok () d' ∧ load ⟨"/"⟩ d' = .ok escaped := by
  have hmake : Disk.makePath ⟨"/"⟩ ⟨.empty, []⟩ = .ok () ⟨.empty, []⟩ := Disk.makePath_eq rfl
  obtain ⟨d', hsave⟩ : ∃ d', save escaped ⟨"/"⟩ ⟨.empty, []⟩ = .ok () d' := by
    rw [save, hmake]
    exact ⟨_, rfl⟩
  exact ⟨d', hsave, load_of_save ⟨by decide, by decide⟩ hsave⟩

end UpdateVault.Config
