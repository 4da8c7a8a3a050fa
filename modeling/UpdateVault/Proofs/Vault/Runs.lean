import UpdateVault.Proofs.Partition.PowerLoss
import UpdateVault.Proofs.Storage.Directory
import UpdateVault.Proofs.Storage.ImageFile
import UpdateVault.Proofs.Vault.Calls

/-!
# The life of a vault

A vault starts on a storage without items and goes through calls and new starts, in any order. At
every time it answers by its records (`Tracked.run_kept`), on a directory as on a partition of flash
(`answers_by_records`).
-/

namespace UpdateVault.Vault

/-- A step of the life of a vault: a call, or a new start on the same storage. Looking a record up
and deciding what to do after a restart change nothing, so they are no steps. -/
inductive Step
  | call (call : Call)
  | reopen

/-- A storage, and what was set last of its records. -/
structure Tracked (σ : Type) where
  storage : σ
  records : Records

section

variable {σ : Type} [ItemStorage σ] (reopen : σ → Except StorageError σ)

def Tracked.step (t : Tracked σ) : Step → Tracked σ
  | .reopen =>
    match reopen t.storage with
    | .ok s => { t with storage := s }
    | .error _ => t
  | .call call =>
    match call.run t.storage with
    | .ok () s => ⟨s, call.effect t.records⟩
    | .error _ s => ⟨s, call.failure t.storage t.records⟩

/-- The life of a vault that starts on a storage without records. -/
def Tracked.run (s : σ) (steps : List Step) : Tracked σ :=
  steps.foldl (Tracked.step reopen) ⟨s, .blank⟩

/-- A vault answers by its records, and its storage can be opened anew. -/
structure Tracked.Faithful (t : Tracked σ) : Prop where
  answers : t.records.AnsweredBy t.storage
  opens : ∃ s, reopen t.storage = .ok s

end

/-! ## What a life preserves -/

section

variable {σ : Type} [ItemStorage σ] {reopen : σ → Except StorageError σ}
  {K : KeptItems σ reopen} {s : σ} {t : Tracked σ}

/-- The storage keeps its items, and they hold the records. -/
structure Tracked.Kept (K : KeptItems σ reopen) (t : Tracked σ) : Prop where
  valid : K.Valid t.storage
  held : Held t.records (K.stored? t.storage)

theorem Tracked.Kept.faithful (h : t.Kept K) : t.Faithful reopen := by
  obtain ⟨s', hs', -, -⟩ := K.reopen_eq h.valid
  exact ⟨h.held.answeredBy h.valid, s', hs'⟩

theorem Tracked.Kept.step (h : t.Kept K) (step : Step) : (t.step reopen step).Kept K := by
  cases step with
  | reopen =>
    obtain ⟨s', hs', hvalid, hstored⟩ := K.reopen_eq h.valid
    rw [Tracked.step, hs']
    exact ⟨hvalid, hstored ▸ h.held⟩
  | call call =>
    have hleaves := leaves h.valid call
    rw [Tracked.step]
    split
    · rename_i hrun
      obtain ⟨hvalid, hheld⟩ := hleaves.ok hrun
      exact ⟨hvalid, hheld h.held⟩
    · rename_i hrun
      obtain ⟨hvalid, hheld⟩ := hleaves.error hrun
      exact ⟨hvalid, hheld h.held⟩

theorem Tracked.Kept.foldl (h : t.Kept K) (steps : List Step) :
    (steps.foldl (Tracked.step reopen) t).Kept K := by
  induction steps generalizing t with
  | nil => exact h
  | cons step rest ih => exact ih (h.step step)

/-- **A vault on a storage that keeps its items has its records held at every time.** -/
theorem Tracked.run_kept (hs : K.Valid s) (hnone : K.stored? s = fun _ => none)
    (steps : List Step) : (Tracked.run reopen s steps).Kept K :=
  Tracked.Kept.foldl ⟨hs, hnone ▸ held_blank⟩ steps

end

/-- What a bank has room for is readable. -/
theorem readable_of_intact {r : Records} {p : Partition FlashChip} (hp : p.Intact)
    (h : Held r p.stored?) : r.Readable :=
  h.readable fun _ hbytes => hp.length_lt hbytes

/-- **A vault answers by its records**: what was set last of each of them, whatever was done to the
others and however often the storage was opened anew. This is so on an empty directory, on an erased
chip, and on an erased image file. -/
theorem answers_by_records :
    (∀ {root : Path} {d d' : Disk} {s : ItemDirectory},
      ItemDirectory.open root d = .ok s d' →
      (∀ name, s.disk.node? (name :: s.place) = none) →
      ItemDirectory.InReach root →
      ∀ steps, (Tracked.run ItemDirectory.reopen s steps).Faithful ItemDirectory.reopen) ∧
    (∀ {n sectorSize : Nat} {p : Partition FlashChip},
      Partition.mount (FlashChip.ofImage (Bytes.erased n) sectorSize) = .ok p →
      p.maxPayload < 2 ^ 32 →
      ∀ steps, (Tracked.run Partition.remount p steps).records.Readable ∧
        (Tracked.run Partition.remount p steps).Faithful Partition.remount) ∧
    (∀ {path : Path} {sectorSize sectorCount : Nat} {d d' : Disk} {f : FlashImageFile}
        {p : Partition FlashImageFile},
      FlashImageFile.open path sectorSize sectorCount d = .ok f d' →
      f.content = Bytes.erased f.capacity →
      Partition.mount f = .ok p →
      p.maxPayload < 2 ^ 32 →
      ∀ steps, (Tracked.run Partition.reopenFile p steps).records.Readable ∧
        (Tracked.run Partition.reopenFile p steps).Faithful Partition.reopenFile) := by
  refine ⟨?directory, ?chip, ?file⟩
  case directory =>
    intro root d d' s hopen hempty hreach steps
    obtain ⟨htidy, hnone⟩ := ItemDirectory.tidy_of_open hopen hempty
    exact (Tracked.run_kept (K := ItemDirectory.keptItems hreach) htidy hnone steps).faithful
  case chip =>
    intro n sectorSize p hmount hsmall steps
    obtain ⟨hintact, hnone⟩ := Partition.intact_of_erased hmount hsmall
    have hkept := Tracked.run_kept (K := Partition.keptItems) hintact hnone steps
    exact ⟨readable_of_intact hkept.valid hkept.held, hkept.faithful⟩
  case file =>
    intro path sectorSize sectorCount d d' f p hopen herased hmount hsmall steps
    obtain ⟨hvalid, hnone⟩ := Partition.intact_of_open hopen herased hmount hsmall
    have hkept := Tracked.run_kept (K := Partition.keptItemsInFile) hvalid hnone steps
    obtain ⟨q, hintact, hmirrors⟩ := hkept.valid
    have hheld : Held _ (Tracked.run Partition.reopenFile p steps).storage.stored? := hkept.held
    rw [hmirrors.stored?_eq] at hheld
    exact ⟨readable_of_intact hintact hheld, hkept.faithful⟩

/-- A disk without any files. -/
def emptyDisk : Disk := { nodes := .empty, here := [] }

set_option maxRecDepth 10000 in
theorem open_new_image :
    ∃ f, FlashImageFile.open ⟨"/f"⟩ 21 2 emptyDisk = .ok f f.disk ∧
      f.content = Bytes.erased f.capacity ∧
      ∃ p, Partition.mount f = .ok p ∧ p.maxPayload < 2 ^ 32 :=
  ⟨_, rfl, rfl, _, rfl, by decide⟩

theorem answers_by_records_new :
    (∃ s d, ItemDirectory.open ⟨"/"⟩ emptyDisk = .ok s d ∧ ∀ steps,
      (Tracked.run ItemDirectory.reopen s steps).Faithful ItemDirectory.reopen) ∧
    (∀ steps, (Tracked.run Partition.remount Partition.blank steps).Faithful Partition.remount) ∧
    ∃ f d p, FlashImageFile.open ⟨"/f"⟩ 21 2 emptyDisk = .ok f d ∧ Partition.mount f = .ok p ∧
      ∀ steps, (Tracked.run Partition.reopenFile p steps).Faithful Partition.reopenFile := by
  obtain ⟨hdirectory, hchip, hfile⟩ := answers_by_records
  refine ⟨?_, ?_, ?_⟩
  · have hfind : emptyDisk.find ⟨"/"⟩ = .ok ([], .directory) := by decide
    have hopen := ItemDirectory.open_of_find hfind
    refine ⟨_, _, hopen, hdirectory hopen (fun name => ItemDirectory.node?_sweep_of_none rfl) ?_⟩
    intro item
    cases item <;> decide
  · intro steps
    exact (hchip Partition.mount_blank (by decide) steps).2
  · obtain ⟨f, hopen, herased, p, hmount, hsmall⟩ := open_new_image
    exact ⟨f, _, p, hopen, hmount, fun steps => (hfile hopen herased hmount hsmall steps).2⟩

/-- Two of the values that a vault does not answer as they were set: a name with a NUL at its end,
and no name at all where the path of its file is too long. -/
theorem not_answered_as_set :
    (∃ p q, Partition.mount (FlashChip.ofImage (Bytes.erased 64) 32) = .ok p ∧
      p.maxPayload < 2 ^ 32 ∧ Vault.setArtifactName "a\x00" p = .ok () q ∧
      Vault.artifactName q = .ok "a" ∧ "a" ≠ "a\x00") ∧
    ∃ s d, ItemDirectory.open (ItemDirectory.slashes 4090) emptyDisk = .ok s d ∧
      (∀ name, s.disk.node? (name :: s.place) = none) ∧
      Vault.artifactName s = .error (.io .nameTooLong) := by
  refine ⟨?terminator, ?reach⟩
  case terminator =>
    have hsettled := Partition.settled_of_mount Partition.mount_blank (by decide) rfl
    let table := Partition.blank.items.insert Item.artifactName.id (Utf8.encode "a\x00")
    have hwrite : Vault.setArtifactName "a\x00" Partition.blank
        = Partition.commit table Partition.blank := rfl
    have hcommit : Partition.commit table Partition.blank
        = .ok () (Partition.blank.committed table) := hsettled.commit_eq (by decide)
    exact ⟨_, _, Partition.mount_blank, by decide, hwrite.trans hcommit, by decide, by decide⟩
  case reach =>
    have hlong : Disk.maxPathLength < 4090 + Item.artifactName.name.utf8ByteSize := by decide
    have hempty : ∀ name, emptyDisk.node? [name] = none := fun _ => rfl
    obtain ⟨s, d, hopen, hempty, hread⟩ :=
      ItemDirectory.open_slashes (by decide) (by decide) hlong hempty
    refine ⟨s, d, hopen, hempty, ?_⟩
    replace hread : Vault.read s .artifactName = .error (.io .nameTooLong) := hread
    rw [Vault.artifactName, hread]
    rfl

end UpdateVault.Vault
