import UpdateVault.Proofs.CommandLine.Parsing
import UpdateVault.Proofs.CommandLine.Step
import UpdateVault.Proofs.Config.Use

/-!
# Setting up a vault

A vault is set up in two steps: its configuration is written, and then it is opened, which makes
what is missing of its storage. What a setup that fails leaves depends on how far it came
(`setUp_error_cases`). Up to the configuration no file is touched. After that only the partition of
an image can still fail to be opened; the configuration is in its file by then, complete, and it is
not taken back (`files_of_failed_init`).
-/

namespace UpdateVault

namespace SelectedStorage

variable {c : Config} {top place : Location} {d : Disk}

/-- A directory in the place of its image keeps a partition from being opened. -/
theorem open_of_directoryImage (hvalid : c.violation? = none)
    (hbackend : c.backend = .nvs) (hroot : d.find c.root = .ok (top, .directory))
    (himage : d.find (c.root.join c.partition.image) = .ok (place, .directory)) :
    «open» c d = .error (.io .isDirectory) d := by
  have hopen : FlashImageFile.open (c.root.join c.partition.image) c.partition.sectorSize
      c.partition.sectorCount d = .error .isDirectory d := by
    rw [FlashImageFile.open_of_find (Config.capacity_of_valid hvalid hbackend) himage,
      FlashImageFile.adopt, himage]
  rw [«open», hvalid]
  simp only [hbackend, Functor.map, EStateM.map, openPartition,
    Disk.makePath_eq hroot, hopen]

end SelectedStorage

namespace CommandLine

variable {format : ResultFormat} {root : Path} {backend : StorageKind} {force : Bool}
  {d d' : Disk} {desk : Desk} {f : Failure}

/-- **All ways in which setting up a vault fails.** -/
theorem setUp_error_cases (h : setUp format root backend force { disk := d } = .error f desk) :
    (d.exists (Config.filePath root) = true ∧ force = false ∧ desk.disk = d) ∨
    (∃ e, Config.save { root, backend } root d = .error e desk.disk) ∨
    (d.exists (Config.filePath root) = true → force = true) ∧
      ∃ d₁ cause, Config.save { root, backend } root d = .ok () d₁ ∧
        SelectedStorage.open { root, backend } d₁ = .error cause desk.disk := by
  rw [setUp, Update.get_bind] at h
  dsimp only at h
  split at h
  · rename_i hrefused
    cases h
    obtain ⟨hexists, hforce⟩ := Bool.and_eq_true_iff.1 hrefused
    exact .inl ⟨hexists, by simpa using hforce, rfl⟩
  · rename_i hallowed
    have hallowed : d.exists (Config.filePath root) = true → force = true := by simpa using hallowed
    cases hsave : Config.save { root, backend } root d with
    | error e d₁ =>
      rw [Update.bind_error (onDisk_error hsave)] at h
      cases h
      exact .inr (.inl ⟨e, rfl⟩)
    | ok _ d₁ =>
      rw [Update.bind_ok (onDisk_ok hsave), Update.discard_bind] at h
      cases hopen : SelectedStorage.open { root, backend } d₁ with
      | error cause d₂ =>
        rw [Update.bind_error (onDisk_error hopen)] at h
        cases h
        exact .inr (.inr ⟨hallowed, d₁, cause, rfl, hopen⟩)
      | ok s d₂ =>
        rw [Update.bind_ok (onDisk_ok hopen)] at h
        cases h

/-- A vault that cannot be opened does not take its configuration back. -/
theorem setUp_of_open_error {d₁ : Disk} {cause : StorageError}
    (hallowed : d.exists (Config.filePath root) = true → force = true)
    (hsave : Config.save { root, backend } root d = .ok () d₁)
    (hopen : SelectedStorage.open { root, backend } d₁ = .error cause d') :
    setUp format root backend force { disk := d } = .error (.storage cause) { disk := d' } := by
  have hgoes : ¬(d.exists (Config.filePath root) && !force) = true := by simpa using hallowed
  rw [setUp, Update.get_bind]
  dsimp only
  rw [if_neg hgoes, Update.bind_ok (onDisk_ok hsave), Update.discard_bind,
    Update.bind_error (onDisk_error hopen)]

/-- The configuration of a new vault was written, and then its partition could not be opened. -/
structure LeftHalfway (root : Path) (force : Bool) (d d' : Disk) : Prop where
  /-- A configuration that was there was to be replaced. -/
  allowed : d.exists (Config.filePath root) = true → force = true
  stopped : ∃ d₁ cause, Config.save { root, backend := .nvs } root d = .ok () d₁ ∧
    SelectedStorage.open { root, backend := .nvs } d₁ = .error cause d'
  saved : ∃ top, Config.Saved { root, backend := .nvs } top d'
  loaded : Config.load root d' = .ok { root, backend := .nvs }

/-- A setup that fails has changed no file, or has come as far as to open a partition. -/
theorem setUp_error (hroot : root.text.isEmpty = false)
    (h : setUp format root backend force { disk := d } = .error f desk) :
    d.OnlyAddsDirectories desk.disk ∨ backend = .nvs ∧ LeftHalfway root force d desk.disk := by
  rcases setUp_error_cases h with ⟨-, -, hsame⟩ | ⟨e, hsave⟩ | ⟨hallowed, d₁, cause, hsave, hopen⟩
  · rw [hsame]
    exact .inl (.refl d)
  · exact .inl (Config.onlyAdds_of_save_error hsave)
  · -- the configuration is in its file, so only a partition can fail to be opened
    have hvalid := Config.violation?_default hroot backend
    obtain ⟨top, hsaved⟩ := Config.saved_of_save hvalid hsave
    have hstopped := hopen
    rw [SelectedStorage.open, hvalid] at hopen
    cases backend with
    | file =>
      simp only [Functor.map, EStateM.map, ItemDirectory.open_of_find hsaved.found] at hopen
      cases hopen
    | none => cases hopen
    | nvs =>
      have himage : (⟨"nvs.img"⟩ : Path) ≠ ⟨Config.fileName⟩ := by decide
      have hspares : Config.SparesItself { root, backend := .nvs } := fun _ h => absurd h himage
      have hbeside := hsaved.openPartition hvalid rfl hspares
      simp only [Functor.map, EStateM.map] at hopen
      split at hopen
      · cases hopen
      · rename_i e d₂ hpartition
        cases hopen
        rw [hpartition] at hbeside
        have hfits : ({} : PartitionConfig).FitsWords := ⟨by decide, by decide⟩
        exact .inr ⟨rfl, hallowed, ⟨d₁, _, hsave, hstopped⟩, ⟨top, hbeside⟩,
          hbeside.load_eq hvalid hfits⟩

/-- **A setup that fails leaves all files alone, or a complete new configuration.** Whatever is on
the disk and whatever else is asked for, a command line for a setup that ends with another exit code
than 0 has made directories at most; but where a partition could not be opened after its
configuration was written, that configuration stays and can be loaded. -/
theorem files_of_failed_init {e : Environment} {arguments : List String}
    (hinit : ∀ i, parse arguments = .ok i → ∃ backend force, i.command = .init backend force)
    (hfails : (run e arguments d).code ≠ 0) :
    d.OnlyAddsDirectories (run e arguments d).disk ∨
    ∃ i force, parse arguments = .ok i ∧ i.command = .init .nvs force ∧
      LeftHalfway (i.rootIn e) force d (run e arguments d).disk := by
  rw [run] at hfails ⊢
  cases hparse : parse arguments with
  | error u =>
    left
    cases u <;> exact .refl d
  | ok i =>
    obtain ⟨backend, force, hcommand⟩ := hinit i hparse
    simp only [hparse, Invocation.run, hcommand, Command.run] at hfails ⊢
    cases hsetUp : setUp i.format (i.rootIn e) backend force { disk := d } with
    | ok lines desk =>
      rw [hsetUp] at hfails
      exact absurd rfl hfails
    | error f desk =>
      rcases setUp_error (nonempty_rootIn hparse e) hsetUp with hfiles | ⟨rfl, hhalf⟩
      · exact .inl hfiles
      · exact .inr ⟨i, force, rfl, hcommand, hhalf⟩

/-- A disk with a directory where the image of a partition would be. -/
def withDirectoryImage : Disk := ⟨.ofList [(["nvs.img"], .directory)], []⟩

/-- The command line that sets up a partition at the top. -/
def initPartition : List String := ["--root", "/", "init", "--backend", "nvs"]

/-- The configuration of a partition at the top. -/
def partitionAtTop : Config where
  root := ⟨"/"⟩
  backend := .nvs

theorem saved_after_initPartition :
    (run {} initPartition withDirectoryImage).code = 1 ∧
      partitionAtTop.Saved [] (run {} initPartition withDirectoryImage).disk := by
  have hmake : Disk.makePath ⟨"/"⟩ withDirectoryImage = .ok () withDirectoryImage :=
    Disk.makePath_eq rfl
  obtain ⟨d₁, hsave⟩ : ∃ d₁, Config.save partitionAtTop ⟨"/"⟩ withDirectoryImage = .ok () d₁ := by
    rw [Config.save, hmake]
    exact ⟨_, rfl⟩
  obtain ⟨top, hsaved⟩ := Config.saved_of_save (c := partitionAtTop) rfl hsave
  obtain rfl : top = [] := by
    cases hsaved.found
    rfl
  -- the directory is still there when the partition is opened
  have hkeeps : withDirectoryImage.Keeps d₁ := by
    obtain ⟨d₂, place, hmade, -, -, hchanges⟩ := Config.save_eq_ok hsave
    cases hmake.symm.trans hmade
    exact hchanges.keeps
  have hopen : SelectedStorage.open partitionAtTop d₁ = .error (.io .isDirectory) d₁ :=
    SelectedStorage.open_of_directoryImage rfl rfl hsaved.found (Disk.find_of_keeps hkeeps rfl)
  have hsetUp : setUp .text ⟨"/"⟩ .nvs false { disk := withDirectoryImage }
      = .error (.storage (.io .isDirectory)) { disk := d₁ } :=
    setUp_of_open_error (by decide) hsave hopen
  have hparse : parse initPartition = .ok ⟨some ⟨"/"⟩, .text, none, .init .nvs false⟩ := rfl
  rw [run, hparse]
  dsimp only
  rw [Invocation.run_error (e := {}) (i := ⟨some ⟨"/"⟩, .text, none, .init .nvs false⟩) hsetUp]
  exact ⟨rfl, hsaved⟩

theorem leftHalfway_initPartition :
    (run {} initPartition withDirectoryImage).code ≠ 0 ∧
      LeftHalfway ⟨"/"⟩ false withDirectoryImage
        (run {} initPartition withDirectoryImage).disk := by
  obtain ⟨hcode, hsaved⟩ := saved_after_initPartition
  have hfails : (run {} initPartition withDirectoryImage).code ≠ 0 := by
    rw [hcode]
    decide
  have hparse : parse initPartition = .ok ⟨some ⟨"/"⟩, .text, none, .init .nvs false⟩ := rfl
  refine ⟨hfails, ?_⟩
  have hinit : ∀ i, parse initPartition = .ok i →
      ∃ backend force, i.command = .init backend force := by
    intro i hi
    cases hparse.symm.trans hi
    exact ⟨_, _, rfl⟩
  rcases files_of_failed_init hinit hfails with hfiles | ⟨i, force, hi, hcommand, hhalf⟩
  · -- there was nothing where the configuration is now
    have hnone : withDirectoryImage.node? [Config.fileName] = none := by decide
    rcases hfiles.node [Config.fileName] with hsame | ⟨-, hmade⟩
    · rw [hsaved.file, hnone] at hsame
      cases hsame
    · rw [hsaved.file] at hmade
      cases hmade
  · cases hparse.symm.trans hi
    cases hcommand
    exact hhalf

/-- The configuration of a partition that was not opened stays, where none was before. -/
theorem config_after_initPartition :
    withDirectoryImage.exists (Config.filePath ⟨"/"⟩) = false ∧
      (run {} initPartition withDirectoryImage).code = 1 ∧
      Config.load ⟨"/"⟩ (run {} initPartition withDirectoryImage).disk = .ok partitionAtTop := by
  obtain ⟨hcode, hsaved⟩ := saved_after_initPartition
  exact ⟨by decide, hcode, hsaved.load_eq rfl ⟨by decide, by decide⟩⟩

end CommandLine

end UpdateVault
