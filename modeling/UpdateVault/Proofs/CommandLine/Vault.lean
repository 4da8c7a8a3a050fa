import UpdateVault.CommandLine.Run
import UpdateVault.Proofs.Config.Writing

/-!
# The vault at a root

The configuration in force at a root is the one in its file, or the default one. Opening the vault
leaves it in force, unless an image is in the place of the file (`VaultAt.of_open`), and so does
writing an item (`VaultAt.configOf_after_write`).
-/

namespace UpdateVault.CommandLine

variable {root : Path} {c : Config} {s s' : SelectedStorage} {d d' d₁ : Disk} {item : Item}
  {data : Bytes} {top : Location}

/-! ## The configuration in force -/

theorem isPlain_fileName : Path.IsPlain Config.fileName :=
  ⟨by decide, by decide, by decide, by decide⟩

theorem endsIn_filePath (root : Path) : (Config.filePath root).EndsIn Config.fileName :=
  (Path.EndsIn.join root isPlain_fileName).1

theorem configOf_congr (h : ∀ found, d'.find (Config.filePath root) = .ok found ↔
    d.find (Config.filePath root) = .ok found) : configOf root d' = configOf root d := by
  cases hfind : d.find (Config.filePath root) with
  | ok found =>
    have hfind' := (h found).2 hfind
    simp only [configOf, Config.load, Disk.exists, Disk.readText, Disk.readFile, hfind, hfind']
  | error e =>
    cases hfind' : d'.find (Config.filePath root) with
    | ok found => cases hfind.symm.trans ((h found).1 hfind')
    | error e' =>
      simp only [configOf, Config.load, Disk.exists, hfind, hfind']
      rfl

/-- The vault at a root on a disk: with its configuration it is opened as a storage, which leaves
another disk. -/
structure VaultAt (root : Path) (c : Config) (s : SelectedStorage) (d d₁ : Disk) : Prop where
  config : configOf root d = .ok c
  opened : SelectedStorage.open c d = .ok s d₁
  /-- The configuration stays in force. -/
  kept : configOf root d₁ = .ok c
  /-- The image of a partition is not the file of the configuration. -/
  apart : c.backend = .nvs →
    d₁.find (c.root.join c.partition.image) ≠ d₁.find (Config.filePath root)

/-- Who opens the vault at a root finds its configuration in force afterwards, too. A configuration
that cannot be read opens nothing. -/
def StaysInForce (root : Path) (d : Disk) : Prop :=
  ∀ c, configOf root d = .ok c →
    ∃ s d₁, SelectedStorage.open c d = .ok s d₁ ∧ configOf root d₁ = .ok c

theorem VaultAt.staysInForce (h : VaultAt root c s d d₁) : StaysInForce root d := by
  intro c' hconfig
  obtain rfl := Except.ok.inj (h.config.symm.trans hconfig)
  exact ⟨s, d₁, h.opened, h.kept⟩

/-- Writing an item does not touch the configuration. -/
theorem VaultAt.configOf_after_write (h : VaultAt root c s d d₁)
    (hwrite : Vault.write item data s = .ok () s') : configOf root s'.disk = .ok c := by
  obtain ⟨ps, hchanges, hplaces⟩ := SelectedStorage.changesFiles_of_write h.opened hwrite
  have hpath := endsIn_filePath root
  rw [← h.kept]
  refine configOf_congr fun found => Disk.find_congr hpath hchanges fun parent hparent hmem => ?_
  rcases hplaces _ hmem with ⟨top, hfile | htemporary⟩ | ⟨hbackend, content, hfind⟩
  · have hne : Config.fileName ≠ item.name := by cases item <;> decide
    exact hne (List.head_eq_of_cons_eq hfile)
  · have hne : Config.fileName ≠ item.name ++ ItemDirectory.temporarySuffix := by
      cases item <;> decide
    exact hne (List.head_eq_of_cons_eq htemporary)
  · -- the image would be found by the path of the configuration too
    have hslot := Disk.fileSlot_of_parent hpath hparent (by decide)
    have hconfig := Disk.find_of_fileSlot hslot (.refl d₁) (Disk.find_eq_ok_iff.1 hfind).2.1
    exact h.apart hbackend (hfind.trans hconfig.symm)

theorem configOf_of_saved {top : Location} (h : c.Saved top d) (hvalid : c.violation? = none)
    (hfits : c.partition.FitsWords) : configOf c.root d = .ok c := by
  rw [configOf, h.load_eq hvalid hfits]

/-! ## Opening -/

theorem configOf_of_missing (h : d.exists (Config.filePath root) = false) :
    configOf root d = .ok { root } := by
  simp only [configOf, Config.load, h, Bool.false_eq_true, if_false]

/-- A configuration in force meets all conditions, also the default one. -/
theorem valid_of_configOf (hroot : root.text.isEmpty = false) (h : configOf root d = .ok c) :
    c.violation? = none := by
  rw [configOf] at h
  split at h
  · rename_i loaded hload
    cases h
    exact Config.valid_of_load hload
  · cases h
    exact Config.violation?_default hroot .file
  · cases h

/-- A configuration that is there and in force is in a file. -/
theorem file_of_configOf (hconfig : configOf root d = .ok c)
    (hexists : d.exists (Config.filePath root) = true) : ∃ parent content,
      d.fileSlot (Config.filePath root) = .ok (Config.fileName :: parent) ∧
      d.find (Config.filePath root) = .ok (Config.fileName :: parent, .file content) := by
  rw [configOf, Config.load] at hconfig
  simp only [hexists, if_true, Disk.readText, Disk.readFile] at hconfig
  cases hfind : d.find (Config.filePath root) with
  | error e =>
    rw [Disk.exists, hfind] at hexists
    cases hexists
  | ok found =>
    obtain ⟨place, node⟩ := found
    obtain ⟨parent, rfl, hparent, hfault⟩ := Disk.parentIs_of_find (endsIn_filePath root) hfind
    have hslot := Disk.fileSlot_of_parent (endsIn_filePath root) hparent hfault
    cases node with
    | directory =>
      simp only [hfind] at hconfig
      cases hconfig
    | file content => exact ⟨parent, content, hslot, rfl⟩

/-- Opening a directory at the root makes no configuration where there was none. -/
theorem missing_of_sweep (h : d.exists (Config.filePath root) = false) :
    (ItemDirectory.sweep d root top).exists (Config.filePath root) = false := by
  rw [Disk.exists]
  cases hfind : (ItemDirectory.sweep d root top).find (Config.filePath root) with
  | error e => rfl
  | ok found =>
    obtain ⟨place, node⟩ := found
    obtain ⟨parent, rfl, hparent, hfault⟩ := Disk.parentIs_of_find (endsIn_filePath root) hfind
    have hback : Disk.Keeps (ItemDirectory.sweep d root top) d :=
      ⟨rfl, fun _ => ItemDirectory.directory_sweep_iff.1⟩
    have hnode := (Disk.find_eq_ok_iff.1 hfind).2.1
    rw [ItemDirectory.node?_sweep_of_name (by decide)] at hnode
    have hslot := Disk.fileSlot_of_parent (endsIn_filePath root) (hparent.of_keeps hback) hfault
    rw [Disk.exists, Disk.find_of_fileSlot hslot (.refl d) hnode] at h
    cases h

/-- **Opening a vault leaves its configuration in force** where there is a configuration, or at
least the root, and no image is made or found in the place of the configuration. -/
theorem VaultAt.of_open (hconfig : configOf root d = .ok c)
    (hopen : SelectedStorage.open c d = .ok s d₁)
    (hthere : d.exists (Config.filePath root) = true ∨ ∃ top, d.find root = .ok (top, .directory))
    (hapart : c.backend = .nvs →
      d₁.find (c.root.join c.partition.image) ≠ d₁.find (Config.filePath root)) :
    VaultAt root c s d d₁ := by
  refine ⟨hconfig, hopen, ?_, hapart⟩
  cases hexists : d.exists (Config.filePath root) with
  | true =>
    obtain ⟨parent, content, hslot, hfind⟩ := file_of_configOf hconfig hexists
    have hkeeps := SelectedStorage.keeps_of_open hopen
    have hnode := SelectedStorage.node?_of_open hopen (Disk.find_eq_ok_iff.1 hfind).2.1 (by decide)
      fun hbackend node himage => by
        have hsame := Disk.find_of_fileSlot hslot hkeeps (Disk.find_eq_ok_iff.1 himage).2.1
        exact hapart hbackend (himage.trans hsame.symm)
    have hfind' := Disk.find_of_fileSlot hslot hkeeps hnode
    rw [← hconfig]
    exact configOf_congr fun found => by rw [hfind, hfind']
  | false =>
    obtain ⟨top, hroot⟩ := hthere.resolve_left (by simp [hexists])
    obtain rfl : { root } = c := Except.ok.inj ((configOf_of_missing hexists).symm.trans hconfig)
    obtain ⟨-, hopens⟩ := SelectedStorage.open_eq_ok_iff.1 hopen
    cases hopens with
    | directory _ hitems =>
      cases (ItemDirectory.open_of_find hroot).symm.trans hitems
      exact configOf_of_missing (missing_of_sweep hexists)
    | partition hbackend _ => cases hbackend
    | absent hbackend _ => cases hbackend

/-- A vault in its own root, with its image under another name than the configuration, is one. -/
theorem VaultAt.of_own_root (hconfig : configOf root d = .ok c) (hown : c.root = root)
    (himage : c.partition.image ≠ ⟨Config.fileName⟩)
    (hopen : SelectedStorage.open c d = .ok s d₁)
    (hroot : d.find root = .ok (top, .directory)) : VaultAt root c s d d₁ := by
  refine .of_open hconfig hopen (.inr ⟨top, hroot⟩) fun hbackend hsame => ?_
  obtain ⟨hvalid, hopens⟩ := SelectedStorage.open_eq_ok_iff.1 hopen
  cases hopens with
  | directory hother _ => simp [hother] at hbackend
  | absent hother _ => simp [hother] at hbackend
  | partition _ hitems =>
    obtain ⟨d₀, f, -, hdevice, -⟩ := SelectedStorage.openPartition_eq_ok hitems
    obtain ⟨chip, hchip⟩ := FlashImageFile.mirrors_of_open hdevice
    obtain ⟨linked, rfl⟩ := FlashImageFile.eq_of_open hdevice
    obtain ⟨place, -, hfind⟩ := hchip.linked
    dsimp only at hfind
    have hfound := Disk.find_of_keeps (SelectedStorage.keeps_of_open hopen) hroot
    rw [hown] at hfind hsame
    -- the path of the configuration leads into the root as well
    obtain ⟨parent, rfl, ⟨from', hstart, hleads⟩, -⟩ :=
      Disk.parentIs_of_find (endsIn_filePath root) (hsame.symm.trans hfind)
    have htop : d₁.ParentIs (Config.filePath root) top :=
      Disk.parentIs_join hfound isPlain_fileName (Disk.start_eq_ok hstart).1
    obtain rfl := htop.unique ⟨from', hstart, hleads⟩
    have hsingle := (Config.partition_of_valid hvalid hbackend).2.2.2
    have hname : c.partition.image.text ≠ Config.fileName := fun h => himage (by rw [← h])
    exact Disk.ne_of_find_single hfound hsingle hfind hname rfl

end UpdateVault.CommandLine
