import UpdateVault.Proofs.Config.Opening
import UpdateVault.Proofs.Partition.Capacity
import UpdateVault.Proofs.Storage.ImageFile

/-!
# Writing to what a configuration names

A storage that was opened takes the data of an item if it has room for it (`exists_write`): in a
directory nothing may be in the way, and in a partition the table has to fit a bank. After a write
the storage is opened again as it was left (`open_after_write`), and no more has changed on the disk
than the files of the item, or the image (`changesFiles_of_write`).
-/

namespace UpdateVault

variable {c : Config} {item : Item} {data : Bytes} {d d₁ : Disk}

/-! ## Directories -/

namespace ItemDirectory

variable {root : Path} {s s' : ItemDirectory}

/-- A write leaves no temporary file behind. -/
theorem open_after_write (hopen : «open» root d = .ok s d₁)
    (hwrite : write item.name data s = .ok () s') : «open» root s'.disk = .ok s' s'.disk := by
  obtain ⟨-, hfound⟩ := open_eq_ok hopen
  obtain ⟨-, -, hs', hreplace⟩ := write_eq_ok hwrite
  have hne := temporaryOf_ne_fileOf s.place item item
  obtain ⟨htemporary, htarget, hfree, hfile⟩ := Disk.replace_eq_ok hne hreplace
  obtain ⟨d', hreplace', hkeeps, hnode⟩ :=
    Disk.replace_eq data htemporary htarget hne hfree hfile
  cases hreplace.symm.trans hreplace'
  obtain ⟨hs, -⟩ := eq_of_open hopen
  have hclean : sweep s'.disk root s.place = s'.disk := by
    refine sweep_eq_self fun other => ?_
    rintro ⟨name, content, rfl, hleft, hsuffix, hreach⟩
    rw [hnode] at hleft
    split at hleft
    · rename_i hname
      cases hname
      rw [not_isTemporary_of_isItemName (isItemName_name item)] at hsuffix
      cases hsuffix
    · split at hleft
      · cases hleft
      · -- it would have been there when the directory was opened
        have hdisk : s.disk = d₁ := by rw [hs]
        rw [hdisk] at hleft
        exact not_leftover_of_open hopen ⟨name, content, rfl, hleft, hsuffix, hreach⟩
  have hagain := open_of_find (Disk.find_of_keeps hkeeps hfound)
  rw [hclean] at hagain
  rw [hagain, hs', hs]

end ItemDirectory

/-! ## Partitions -/

namespace Partition

/-- A table that fits a bank is taken. -/
theorem Intact.exists_write {p : Partition FlashChip} (h : p.Intact)
    (hroom : ItemTable.room (p.items.insert item.id data) ≤ p.maxPayload) :
    ∃ q, write item.name data p = .ok () q := by
  rcases h.write_cases item data with ⟨q, hwrite, -⟩ | ⟨needed, hfull⟩
  · exact ⟨q, hwrite⟩
  · replace hfull : write item.name data p = .error (.storageFull needed p.maxPayload) p := hfull
    by_cases hsame : p.items.get? item.id = some data
    · cases hfull.symm.trans (Call.run_write_same (Item.ofName?_name item) hsame)
    · rw [write_of_ne (Item.ofName?_name item) hsame] at hfull
      exact absurd (commit_eq_storageFull_iff.1 hfull).1 (Nat.not_lt.2 hroom)

end Partition

namespace SelectedStorage

variable {p p' : Partition FlashImageFile}

/-- A partition that was opened does what an intact one on a chip does. -/
theorem mirrors_of_openPartition (hvalid : c.violation? = none) (hbackend : c.backend = .nvs)
    (hopen : openPartition c d = .ok p d₁) : ∃ q, p.Mirrors q ∧ q.Intact := by
  obtain ⟨d₀, f, -, hdevice, hmount⟩ := openPartition_eq_ok hopen
  have hsmall : c.partition.sectorSize * c.partition.sectorCount < 2 ^ 32 :=
    Nat.lt_of_le_of_lt (Config.partition_of_valid hvalid hbackend).2.2.1 (by decide)
  obtain ⟨q, hmirrors, hintact, -⟩ := Partition.mirrors_of_openFile hdevice hmount hsmall
  exact ⟨q, hmirrors, hintact⟩

/-- A write to a partition that was opened changes the file that the path of the image leads to. -/
theorem onFile_of_write (hopen : openPartition c d = .ok p d₁)
    (hwrite : Partition.write item.name data p = .ok () p') :
    ∃ place content, d₁.find (c.root.join c.partition.image) = .ok (place, .file content) ∧
      FlashImageFile.OnFile place ⟨c.root.join c.partition.image, c.partition.sectorSize,
        c.partition.sectorCount, .linked place, d₁⟩ p'.device := by
  obtain ⟨d₀, f, -, hdevice, hmount⟩ := openPartition_eq_ok hopen
  obtain ⟨chip, hchip⟩ := FlashImageFile.mirrors_of_open hdevice
  obtain ⟨place, rfl⟩ := FlashImageFile.eq_of_open hdevice
  obtain ⟨place', hhandle, hfind⟩ := hchip.linked
  cases hhandle
  have hnode : d₁.node? place = some (.file chip.image) := (Disk.find_eq_ok_iff.1 hfind).2.1
  have hfile : d₁.node? place ≠ some .directory := by
    rw [hnode]
    nofun
  refine ⟨place, chip.image, hfind, ?_⟩
  let f₀ : FlashImageFile := ⟨c.root.join c.partition.image, c.partition.sectorSize,
    c.partition.sectorCount, .linked place, d₁⟩
  have hstart : FlashImageFile.OnFile place f₀ p.device := by
    rw [Partition.device_of_mount hmount]
    exact .refl place f₀
  have hafter :
      FlashImageFile.OnFile place f₀ ((Vault.Access.write item data).run.after p).device :=
    Partition.after_access (FlashImageFile.keeps_onFile rfl hfile) (.write item data) hstart
  have hp' : (Vault.Access.write item data).run.after p = p' := Update.after_of_ok hwrite
  rwa [hp'] at hafter

theorem openPartition_after_write (hvalid : c.violation? = none) (hbackend : c.backend = .nvs)
    (hopen : openPartition c d = .ok p d₁)
    (hwrite : Partition.write item.name data p = .ok () p') :
    openPartition c p'.device.disk = .ok p' p'.device.disk := by
  obtain ⟨q, hmirrors, hintact⟩ := mirrors_of_openPartition hvalid hbackend hopen
  obtain ⟨q', hq, hmirrors'⟩ := (Partition.write_same hmirrors item.name data).eq_ok hwrite
  obtain ⟨place, content, -, hchanged⟩ := onFile_of_write hopen hwrite
  -- the directory of the image is where it was
  have hmake : Disk.makePath c.root p'.device.disk = .ok () p'.device.disk := by
    obtain ⟨d₀, f, hmake, hopened, -⟩ := openPartition_eq_ok hopen
    obtain ⟨top, hroot⟩ := Disk.leadsTo_of_makePath (Config.nonempty_of_valid hvalid) hmake
    have hkeeps := FlashImageFile.keeps_of_open hopened
    exact Disk.makePath_eq (Disk.find_of_keeps (hkeeps.trans hchanged.changes.keeps) hroot)
  have hopened : FlashImageFile.open (c.root.join c.partition.image) c.partition.sectorSize
      c.partition.sectorCount p'.device.disk = .ok p'.device p'.device.disk := by
    have hagain := hmirrors'.device.open_eq
    rwa [hchanged.path_eq, hchanged.sectorSize_eq, hchanged.sectorCount_eq] at hagain
  have hmount : Partition.mount p'.device = .ok p' := by
    have hrun : (Partition.Call.write item.name data).run q = .ok () q' := hq
    exact hmirrors'.mount_eq (hintact.of_run hrun).settled.mounts
  simp only [openPartition, hmake, hopened, hmount]

/-! ## Either kind -/

variable {s s' : SelectedStorage}

/-- A write to a selected storage is one to what was selected. -/
theorem write_directory_eq_ok {items : ItemDirectory}
    (h : Vault.write item data (directory items) = .ok () s') :
    ∃ items', ItemDirectory.write item.name data items = .ok () items' ∧ s' = directory items' :=
  within_eq_ok h

theorem write_partition_eq_ok (h : Vault.write item data (partition p) = .ok () s') :
    ∃ p', Partition.write item.name data p = .ok () p' ∧ s' = partition p' :=
  within_eq_ok h

/-- **A storage that was opened and written to is opened again as it was left.** -/
theorem open_after_write (hopen : «open» c d = .ok s d₁)
    (hwrite : Vault.write item data s = .ok () s') : «open» c s'.disk = .ok s' s'.disk := by
  obtain ⟨hvalid, hopens⟩ := open_eq_ok_iff.1 hopen
  refine open_eq_ok_iff.2 ⟨hvalid, ?_⟩
  cases hopens with
  | directory hbackend hitems =>
    obtain ⟨items', hitem, rfl⟩ := write_directory_eq_ok hwrite
    exact .directory hbackend (ItemDirectory.open_after_write hitems hitem)
  | partition hbackend hitems =>
    obtain ⟨p', hitem, rfl⟩ := write_partition_eq_ok hwrite
    exact .partition hbackend (openPartition_after_write hvalid hbackend hitems hitem)
  | absent hbackend hsame => cases hwrite

/-- A write changes the files of the item, or the image. -/
theorem changesFiles_of_write (hopen : «open» c d = .ok s d₁)
    (hwrite : Vault.write item data s = .ok () s') :
    ∃ ps, Disk.ChangesFiles ps d₁ s'.disk ∧ ∀ place ∈ ps,
      (∃ top, place = ItemDirectory.fileOf top item.name ∨
        place = ItemDirectory.temporaryOf top item.name) ∨
      c.backend = .nvs ∧ ∃ content,
        d₁.find (c.root.join c.partition.image) = .ok (place, .file content) := by
  obtain ⟨-, hopens⟩ := open_eq_ok_iff.1 hopen
  cases hopens with
  | @directory items hbackend hitems =>
    obtain ⟨items', hitem, rfl⟩ := write_directory_eq_ok hwrite
    obtain ⟨-, -, -, hreplace⟩ := ItemDirectory.write_eq_ok hitem
    obtain ⟨hs, -⟩ := ItemDirectory.eq_of_open hitems
    have hchanges : Disk.ChangesFiles [ItemDirectory.temporaryOf items.place item.name,
        ItemDirectory.fileOf items.place item.name] items.disk items'.disk :=
      Update.after_of_ok hreplace ▸ Disk.replace_changesFiles
    rw [hs] at hchanges
    exact ⟨_, hchanges, fun place hplace => .inl ⟨items.place, (List.mem_pair.1 hplace).symm⟩⟩
  | partition hbackend hitems =>
    obtain ⟨p', hitem, rfl⟩ := write_partition_eq_ok hwrite
    obtain ⟨place, content, hfind, hchanged⟩ := onFile_of_write hitems hitem
    refine ⟨_, hchanged.changes, fun other hother => .inr ⟨hbackend, content, ?_⟩⟩
    rw [List.mem_singleton.1 hother]
    exact hfind
  | absent hbackend hsame => cases hwrite

/-- What a write needs: in a directory, that the path of the temporary file is one that calls take
and that no directory is in the way; in a partition, that the table with the data fits a bank. -/
inductive HasRoom (item : Item) (data : Bytes) : SelectedStorage → Prop
  | directory {items : ItemDirectory} :
      ItemDirectory.reachFault? items.root (item.name ++ ItemDirectory.temporarySuffix) = none →
      items.disk.node? (ItemDirectory.temporaryOf items.place item.name) ≠ some .directory →
      items.disk.node? (ItemDirectory.fileOf items.place item.name) ≠ some .directory →
      HasRoom item data (directory items)
  | partition {items : Partition FlashImageFile} :
      ItemTable.room (items.items.insert item.id data) ≤ items.maxPayload →
      HasRoom item data (partition items)

/-- **A storage that was opened takes what it has room for.** -/
theorem exists_write (hopen : «open» c d = .ok s d₁) (hroom : s.HasRoom item data) :
    ∃ s', Vault.write item data s = .ok () s' := by
  obtain ⟨hvalid, hopens⟩ := open_eq_ok_iff.1 hopen
  cases hroom with
  | @directory items hreach htemporary hfile =>
    obtain ⟨d', hwrite, -⟩ := ItemDirectory.write_of_reach data hreach htemporary hfile
    refine ⟨directory { items with disk := d' }, ?_⟩
    show within directory (ItemDirectory.write item.name data) items = _
    rw [within, hwrite]
  | @partition p hfits =>
    cases hopens with
    | partition hbackend hitems =>
      obtain ⟨q, hmirrors, hintact⟩ := mirrors_of_openPartition hvalid hbackend hitems
      have hfits' : ItemTable.room (q.items.insert item.id data) ≤ q.maxPayload := by
        cases hmirrors
        exact hfits
      obtain ⟨q', hq⟩ := hintact.exists_write hfits'
      obtain ⟨p', hp, -⟩ := (Partition.write_same hmirrors item.name data).symm.eq_ok hq
      refine ⟨partition p', ?_⟩
      show within partition (Partition.write item.name data) p = _
      rw [within, hp]

end SelectedStorage

end UpdateVault
