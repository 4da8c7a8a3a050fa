import UpdateVault.Proofs.Config.Use
import UpdateVault.Proofs.Flash.Opening

/-!
# Opening what a configuration names

A vault that was opened is opened again on the disk that is left, as it was and without any change
(`SelectedStorage.open_again`). Opening leaves all directories alone and, but for temporary files
and the image, all files (`SelectedStorage.node?_of_open`). On an empty storage root a valid
configuration of a directory is always opened; one of a partition is opened if and only if its image
is a plain name, its banks have room behind their headers and the path of the image's temporary file
is not too long (`Config.open_on_empty_root`).
-/

namespace UpdateVault

/-! ## Opening again -/

/-- What opening swept away is not swept away again. -/
theorem ItemDirectory.open_again {root : Path} {s : ItemDirectory} {d d' : Disk}
    (h : «open» root d = .ok s d') : «open» root d' = .ok s d' := by
  obtain ⟨-, hfound⟩ := open_eq_ok h
  have hclean : sweep d' root s.place = d' := sweep_eq_self fun _ => not_leftover_of_open h
  obtain ⟨hs, -⟩ := eq_of_open h
  rw [hs] at hfound ⊢
  have hopen := open_of_find hfound
  rwa [hclean] at hopen

namespace SelectedStorage

variable {c : Config} {s : SelectedStorage} {p : Partition FlashImageFile} {d d' : Disk}

theorem openPartition_again (hne : c.root.text.isEmpty = false)
    (h : openPartition c d = .ok p d') : openPartition c d' = .ok p d' := by
  obtain ⟨d₀, f, hmake, hopen, hmount⟩ := openPartition_eq_ok h
  obtain ⟨top, hfound⟩ := Disk.leadsTo_of_makePath hne hmake
  have hkeeps := FlashImageFile.keeps_of_open hopen
  have hmake' := Disk.makePath_eq (Disk.find_of_keeps hkeeps hfound)
  simp only [openPartition, hmake', FlashImageFile.open_again hopen, hmount]

/-- What a configuration names is opened. -/
inductive Opens (c : Config) (d d' : Disk) : SelectedStorage → Prop
  | directory {items : ItemDirectory} : c.backend = .file →
      ItemDirectory.open c.root d = .ok items d' → Opens c d d' (directory items)
  | partition {items : Partition FlashImageFile} : c.backend = .nvs →
      openPartition c d = .ok items d' → Opens c d d' (partition items)
  | absent : c.backend = .none → d' = d → Opens c d d' (absent d)

theorem open_eq_ok_iff : «open» c d = .ok s d' ↔ c.violation? = none ∧ Opens c d d' s := by
  constructor
  · intro h
    rw [«open»] at h
    cases hvalid : c.violation? with
    | some v =>
      rw [hvalid] at h
      cases h
    | none =>
      refine ⟨rfl, ?_⟩
      simp only [hvalid] at h
      cases hbackend : c.backend with
      | file =>
        simp only [hbackend] at h
        obtain ⟨items, hitems, rfl⟩ := Update.map_eq_ok_iff.1 h
        exact .directory hbackend hitems
      | nvs =>
        simp only [hbackend] at h
        obtain ⟨items, hitems, rfl⟩ := Update.map_eq_ok_iff.1 h
        exact .partition hbackend hitems
      | none =>
        simp only [hbackend] at h
        cases h
        exact .absent hbackend rfl
  · rintro ⟨hvalid, hopens⟩
    cases hopens with
    | directory hbackend hitems =>
      simp only [«open», hvalid, hbackend]
      exact Update.map_eq_ok_iff.2 ⟨_, hitems, rfl⟩
    | partition hbackend hitems =>
      simp only [«open», hvalid, hbackend]
      exact Update.map_eq_ok_iff.2 ⟨_, hitems, rfl⟩
    | absent hbackend hsame =>
      simp only [«open», hvalid, hbackend, hsame]

/-- A storage that was opened is on the disk that is left. -/
theorem disk_of_open (h : «open» c d = .ok s d') : s.disk = d' := by
  obtain ⟨-, hopens⟩ := open_eq_ok_iff.1 h
  cases hopens with
  | directory _ hitems =>
    obtain ⟨hitems', -⟩ := ItemDirectory.eq_of_open hitems
    exact congrArg ItemDirectory.disk hitems'
  | partition _ hitems =>
    obtain ⟨d₀, f, -, hdevice, hmount⟩ := openPartition_eq_ok hitems
    obtain ⟨place, rfl⟩ := FlashImageFile.eq_of_open hdevice
    exact congrArg FlashImageFile.disk (Partition.device_of_mount hmount)
  | absent _ hsame => exact hsame.symm

/-- **Opening what was opened changes nothing** and comes to the same. -/
theorem open_again (h : «open» c d = .ok s d') : «open» c d' = .ok s d' := by
  obtain ⟨hvalid, hopens⟩ := open_eq_ok_iff.1 h
  refine open_eq_ok_iff.2 ⟨hvalid, ?_⟩
  cases hopens with
  | directory hbackend hitems => exact .directory hbackend (ItemDirectory.open_again hitems)
  | partition hbackend hitems =>
    exact .partition hbackend (openPartition_again (Config.nonempty_of_valid hvalid) hitems)
  | absent hbackend hsame =>
    subst hsame
    exact .absent hbackend rfl

end SelectedStorage

/-! ## What opening leaves alone -/

section

variable {name : String} {parent : Location} {content : Bytes} {d d' : Disk}

namespace SelectedStorage

variable {c : Config} {s : SelectedStorage}

/-- All directories stay. -/
theorem keeps_of_open (h : «open» c d = .ok s d') : Disk.Keeps d d' := by
  obtain ⟨-, hopens⟩ := open_eq_ok_iff.1 h
  cases hopens with
  | directory _ hitems =>
    obtain ⟨-, d₁, hmade, rfl⟩ := ItemDirectory.eq_of_open hitems
    exact hmade.keeps.trans (ItemDirectory.keeps_sweep _)
  | partition _ hitems =>
    obtain ⟨d₁, f, hmake, hopen, -⟩ := openPartition_eq_ok hitems
    have hkeeps := FlashImageFile.keeps_of_open hopen
    exact (Disk.onlyAdds_of_makePath hmake).keeps.trans hkeeps
  | absent _ hsame =>
    subst hsame
    exact .refl _

/-- A file stays that is neither temporary nor the image of the partition. -/
theorem node?_of_open (h : «open» c d = .ok s d')
    (hfile : d.node? (name :: parent) = some (.file content))
    (hname : ItemDirectory.isTemporary name = false) (hother : c.backend = .nvs →
      ∀ node, d'.find (c.root.join c.partition.image) ≠ .ok (name :: parent, node)) :
    d'.node? (name :: parent) = some (.file content) := by
  obtain ⟨-, hopens⟩ := open_eq_ok_iff.1 h
  cases hopens with
  | directory _ hitems =>
    obtain ⟨-, d₁, hmade, rfl⟩ := ItemDirectory.eq_of_open hitems
    rw [ItemDirectory.node?_sweep_of_name hname]
    exact hmade.node?_eq hfile
  | partition hbackend hitems =>
    obtain ⟨d₁, f, hmake, hopen, -⟩ := openPartition_eq_ok hitems
    have hfile₁ := (Disk.onlyAdds_of_makePath hmake).node?_eq hfile
    exact FlashImageFile.node?_of_open hopen hfile₁ hname (hother hbackend)
  | absent _ hsame => rwa [hsame]

end SelectedStorage

end

/-! ## Opening on an empty storage root -/

namespace Config

variable {c : Config} {top : Location} {d d' : Disk} {f : FlashImageFile}
  {p : Partition FlashImageFile}

/-- What a new partition takes besides the conditions that are checked. -/
structure OpensNew (c : Config) : Prop where
  plain : Path.IsPlain c.partition.image.text
  room : Bank.headerLength < c.partition.sectorCount / 2 * c.partition.sectorSize
  inReach : Disk.pathFault? ((c.root.join c.partition.image).extend ".tmp") = none

/-- A device of the geometry of a valid configuration is mounted if its banks have room. -/
theorem exists_mount_iff {chip : FlashChip} (hvalid : c.violation? = none)
    (hbackend : c.backend = .nvs) (hmirrors : f.Mirrors chip)
    (hsize : f.sectorSize = c.partition.sectorSize)
    (hcount : f.sectorCount = c.partition.sectorCount) :
    (∃ p, Partition.mount f = .ok p) ↔
      Bank.headerLength < c.partition.sectorCount / 2 * c.partition.sectorSize := by
  have hpos := (partition_of_valid hvalid hbackend).1
  have hsize' : chip.sectorSize = c.partition.sectorSize := hmirrors.sectorSize_eq.trans hsize
  have hlength : chip.image.length / chip.sectorSize / 2 * chip.sectorSize
      = c.partition.sectorCount / 2 * c.partition.sectorSize := by
    rw [(FlashImageFile.capacity_eq_ok hmirrors.capacity_eq).2.2, hsize', hsize, hcount,
      Nat.mul_div_cancel_left _ hpos]
  constructor
  · rintro ⟨p, hmount⟩
    obtain ⟨q, hchip, -⟩ := Partition.mirrors_of_mount hmirrors hmount
    have hbanks := Partition.hasBanks_of_mount hchip
    rw [← hlength, ← hbanks.length_eq]
    exact hbanks.header_lt
  · intro hroom
    have hbank : Partition.bankLength? chip = _ :=
      Partition.bankLength?_eq (hsize' ▸ hpos) hlength.symm
    rw [if_neg (Nat.not_le.2 hroom)] at hbank
    rw [Partition.mount_onto hmirrors, Partition.mount_eq (Partition.bankLength?_eq_ok_iff.1 hbank)]
    exact ⟨_, rfl⟩

/-- A plain name leads to nothing where there is nothing. -/
theorem missing_of_free (hroot : d.find c.root = .ok (top, .directory))
    (hplain : Path.IsPlain c.partition.image.text)
    (hnone : d.node? (c.partition.image.text :: top) = none) :
    d.exists (c.root.join c.partition.image) = false := by
  rw [Disk.exists]
  cases hfind : d.find (c.root.join c.partition.image) with
  | error e => rfl
  | ok found =>
    obtain ⟨place, node⟩ := found
    obtain rfl := Disk.place_of_find_join hroot hplain.nonempty hplain.slash_free hplain.ne_dot
      hplain.ne_dots hfind
    have hnode := (Disk.find_eq_ok_iff.1 hfind).2.1
    rw [hnone] at hnode
    cases hnode

/-- Where there is no image, and no directory in the way of its temporary file, an erased one is
made, with a partition without items. -/
theorem open_of_free (hvalid : c.violation? = none) (hbackend : c.backend = .nvs)
    (hroot : d.find c.root = .ok (top, .directory)) (h : c.OpensNew)
    (hsize : c.partition.image.text.utf8ByteSize ≤ 251)
    (hnone : d.node? (c.partition.image.text :: top) = none)
    (hfree : d.node? ((c.partition.image.text ++ ".tmp") :: top) ≠ some .directory) :
    ∃ p d', SelectedStorage.openPartition c d = .ok p d' ∧ p.items = .empty ∧
      p.bankLength = c.partition.sectorCount / 2 * c.partition.sectorSize ∧
      ∀ other, d'.node? other = if other = c.partition.image.text :: top
        then some (.file (Bytes.erased (c.partition.sectorSize * c.partition.sectorCount)))
        else if other = (c.partition.image.text ++ ".tmp") :: top then none
        else d.node? other := by
  have hcapacity := capacity_of_valid hvalid hbackend
  have hbuffer := buffer_of_valid hvalid hbackend
  have hmissing := missing_of_free hroot h.plain hnone
  have hpath : (c.root.join c.partition.image).EndsIn c.partition.image.text :=
    (Path.EndsIn.join c.root h.plain).1
  have hparent : d.ParentIs (c.root.join c.partition.image) top :=
    Disk.parentIs_join hroot h.plain (ItemDirectory.pathFault?_of_extend h.inReach)
  obtain ⟨f, d', hopen, hfind, htemporary⟩ := FlashImageFile.open_of_absent hcapacity hbuffer hpath
    hsize hmissing hparent h.inReach hfree
  obtain ⟨chip, hmirrors⟩ := FlashImageFile.mirrors_of_open hopen
  have ⟨linked, hf⟩ := FlashImageFile.eq_of_open hopen
  obtain ⟨p, hmount⟩ :=
    (exists_mount_iff hvalid hbackend hmirrors (by rw [hf]) (by rw [hf])).2 h.room
  obtain ⟨hpos, -, hle, -⟩ := partition_of_valid hvalid hbackend
  have hbank :=
    Partition.bankLength_of_openFile hopen hmount hpos (Nat.lt_of_le_of_lt hle (by decide))
  have herased : f.content = Bytes.erased f.capacity := by
    rw [FlashImageFile.content_of_open hopen hfind, FlashImageFile.capacity, hf]
  refine ⟨p, d', ?_, Partition.items_of_erasedFile hopen herased hmount, hbank, fun other => ?_⟩
  · simp only [SelectedStorage.openPartition, Disk.makePath_eq hroot, hopen, hmount]
  by_cases himage : other = c.partition.image.text :: top
  · rw [if_pos himage, himage]
    exact (Disk.find_eq_ok_iff.1 hfind).2.1
  · rw [if_neg himage]
    have hchanges : Disk.ChangesFiles (FlashImageFile.imagePlaces (c.root.join c.partition.image) d)
        d d' := by
      rw [← Update.after_of_ok hopen]
      exact FlashImageFile.after_open_changesImage hcapacity hbuffer hpath
    by_cases hother : other = (c.partition.image.text ++ ".tmp") :: top
    · rw [if_pos hother, hother, htemporary]
    · rw [if_neg hother]
      refine hchanges.same other fun hmem => ?_
      exact (FlashImageFile.eq_of_mem_imagePlaces hpath hparent hmem).elim himage hother

section

variable (hvalid : c.violation? = none) (hbackend : c.backend = .nvs)
  (hroot : d.find c.root = .ok (top, .directory)) (hempty : ∀ name, d.node? (name :: top) = none)

include hvalid hbackend hroot hempty

/-- A partition that is opened where there was nothing has an image that could be made. -/
theorem opensNew_of_open (hparent : d.node? top.tail = some .directory)
    (h : SelectedStorage.openPartition c d = .ok p d') : c.OpensNew := by
  obtain ⟨d₀, f, hmake, hopen, hmount⟩ := SelectedStorage.openPartition_eq_ok h
  obtain ⟨chip, hmirrors⟩ := FlashImageFile.mirrors_of_open hopen
  have hkeeps := FlashImageFile.keeps_of_open hopen
  rw [Disk.makePath_eq hroot] at hmake
  cases hmake
  obtain ⟨linked, rfl⟩ := FlashImageFile.eq_of_open hopen
  obtain ⟨place, -, hfound⟩ := hmirrors.linked
  -- the image is a file, so its path has led to no directory
  have hplain : Path.IsPlain c.partition.image.text := by
    rcases Disk.place_of_find_single (Disk.find_of_keeps hkeeps hroot)
      (partition_of_valid hvalid hbackend).2.2.2 hfound with rfl | ⟨-, -, hnames, hdot, hdots⟩
    · have hnode := (Disk.find_eq_ok_iff.1 hfound).2.1
      rw [hkeeps.directory _ hparent] at hnode
      cases hnode
    · exact Path.isPlain_of_names hnames hdot hdots
  refine ⟨hplain, (exists_mount_iff hvalid hbackend hmirrors rfl rfl).1 ⟨p, hmount⟩, ?_⟩
  obtain ⟨n, d₁, -, hcreate⟩ :=
    FlashImageFile.create_of_open (missing_of_free hroot hplain (hempty _)) hopen
  obtain ⟨-, temporary, -, htemporary, -⟩ := FlashImageFile.create_eq_ok hcreate
  obtain ⟨-, from', hstart, -⟩ := Disk.fileSlot_eq_ok htemporary
  exact (Disk.start_eq_ok hstart).1

/-- An image that can be made is the only thing that opening makes. -/
theorem open_of_opensNew (hsize : c.partition.image.text.utf8ByteSize ≤ 251) (h : c.OpensNew) :
    ∃ p d', SelectedStorage.openPartition c d = .ok p d' ∧
      ∀ other, d'.node? other = if other = c.partition.image.text :: top
        then some (.file (Bytes.erased (c.partition.sectorSize * c.partition.sectorCount)))
        else d.node? other := by
  obtain ⟨p, d', hopen, -, -, hnode⟩ :=
    open_of_free hvalid hbackend hroot h hsize (hempty _) (by rw [hempty]; nofun)
  refine ⟨p, d', hopen, fun other => ?_⟩
  rw [hnode]
  split
  · rfl
  · split
    · rename_i hother
      rw [hother, hempty]
    · rfl

omit hbackend in
/-- **A valid configuration is opened on an empty storage root if it is one of a directory, or if
its image can be made and its banks have room.** What is opened is opened again without any change,
and the only file that is made is the image, in the storage root itself. -/
theorem open_on_empty_root (hkind : c.backend ≠ .none)
    (hparent : d.node? top.tail = some .directory)
    (hsize : c.backend = .nvs → c.partition.image.text.utf8ByteSize ≤ 251) :
    ((∃ s d', SelectedStorage.open c d = .ok s d') ↔ (c.backend = .nvs → c.OpensNew)) ∧
    ∀ s d', SelectedStorage.open c d = .ok s d' →
      SelectedStorage.open c d' = .ok s d' ∧ ∀ other, d'.node? other ≠ d.node? other →
        c.backend = .nvs ∧ other = c.partition.image.text :: top ∧ d'.node? other
          = some (.file (Bytes.erased (c.partition.sectorSize * c.partition.sectorCount))) := by
  cases hbackend : c.backend with
  | none => exact absurd hbackend hkind
  | file =>
    have hclean : ItemDirectory.sweep d c.root top = d := by
      refine ItemDirectory.sweep_eq_self fun other => ?_
      rintro ⟨name, content, rfl, hnode, -⟩
      rw [hempty] at hnode
      cases hnode
    have hitems := ItemDirectory.open_of_find hroot
    rw [hclean] at hitems
    have hopen := SelectedStorage.open_eq_ok_iff.2 ⟨hvalid, .directory hbackend hitems⟩
    refine ⟨iff_of_true ⟨_, _, hopen⟩ nofun, fun s d' h => ⟨SelectedStorage.open_again h, ?_⟩⟩
    rw [hopen] at h
    cases h
    exact fun other hother => absurd rfl hother
  | nvs =>
    have hopens : (∃ s d', SelectedStorage.open c d = .ok s d') ↔ c.OpensNew := by
      constructor
      · rintro ⟨s, d', h⟩
        obtain ⟨-, hkind⟩ := SelectedStorage.open_eq_ok_iff.1 h
        cases hkind with
        | directory hfile _ => simp [hbackend] at hfile
        | partition _ hitems => exact opensNew_of_open hvalid hbackend hroot hempty hparent hitems
        | absent hnone _ => simp [hbackend] at hnone
      · intro h
        obtain ⟨p, d', hitems, -⟩ :=
          open_of_opensNew hvalid hbackend hroot hempty (hsize hbackend) h
        exact ⟨_, _, SelectedStorage.open_eq_ok_iff.2 ⟨hvalid, .partition hbackend hitems⟩⟩
    refine ⟨hopens.trans ⟨fun h _ => h, fun h => h rfl⟩, fun s d' h =>
      ⟨SelectedStorage.open_again h, fun other hother => ?_⟩⟩
    obtain ⟨p, d₁, hitems, hnode⟩ :=
      open_of_opensNew hvalid hbackend hroot hempty (hsize hbackend) (hopens.1 ⟨s, d', h⟩)
    rw [SelectedStorage.open_eq_ok_iff.2 ⟨hvalid, .partition hbackend hitems⟩] at h
    cases h
    have himage : other = c.partition.image.text :: top := by
      by_contra hne
      exact hother (by rw [hnode, if_neg hne])
    exact ⟨rfl, himage, by rw [hnode, if_pos himage]⟩

end

theorem open_on_empty_root_nvs :
    ∃ s d', SelectedStorage.open (withImage "nvs.img") ⟨.empty, []⟩ = .ok s d' ∧
      SelectedStorage.open (withImage "nvs.img") d' = .ok s d' ∧
      ∀ other, d'.node? other ≠ Disk.node? ⟨.empty, []⟩ other → other = ["nvs.img"] := by
  have hnew : (withImage "nvs.img").OpensNew :=
    ⟨⟨by decide, by decide, by decide, by decide⟩, by decide, by decide⟩
  obtain ⟨hopens, hmade⟩ := open_on_empty_root (c := withImage "nvs.img") (d := ⟨.empty, []⟩)
    (by decide) rfl (fun _ => rfl) (by decide) rfl (fun _ => by decide)
  obtain ⟨s, d', h⟩ := hopens.2 fun _ => hnew
  obtain ⟨hagain, honly⟩ := hmade s d' h
  exact ⟨s, d', h, hagain, fun other hother => (honly other hother).2.1⟩

/-- A configuration that is accepted though its banks have no room behind their headers. -/
def withTinyBanks : Config :=
  { withImage "nvs.img" with partition := { sectorSize := 1, sectorCount := 2 } }

theorem not_opened_of_not_opensNew (hvalid : c.violation? = none) (hbackend : c.backend = .nvs)
    (hroot : c.root = ⟨"/"⟩) (hnew : ¬ c.OpensNew) :
    ¬ ∃ s d', SelectedStorage.open c ⟨.empty, []⟩ = .ok s d' := by
  rintro ⟨s, d', h⟩
  obtain ⟨-, hkind⟩ := SelectedStorage.open_eq_ok_iff.1 h
  cases hkind with
  | directory hfile _ => simp [hbackend] at hfile
  | partition _ hitems =>
    have hfound : Disk.find ⟨.empty, []⟩ c.root = .ok ([], .directory) := by
      rw [hroot]
      rfl
    exact hnew (opensNew_of_open hvalid hbackend hfound (fun _ => rfl) rfl hitems)
  | absent hnone _ => simp [hbackend] at hnone

/-- Neither a name with a slash behind it, nor a directory, nor a tiny partition is refused as that
of an image, and none of them can be opened on an empty disk. -/
theorem accepted_but_not_opened :
    ((withImage "nvs.img/").violation? = none ∧
      ¬ ∃ s d', SelectedStorage.open (withImage "nvs.img/") ⟨.empty, []⟩ = .ok s d') ∧
    ((withImage "..").violation? = none ∧
      ¬ ∃ s d', SelectedStorage.open (withImage "..") ⟨.empty, []⟩ = .ok s d') ∧
    (withTinyBanks.violation? = none ∧
      ¬ ∃ s d', SelectedStorage.open withTinyBanks ⟨.empty, []⟩ = .ok s d') := by
  refine ⟨⟨by decide, ?_⟩, ⟨by decide, ?_⟩, ⟨by decide, ?_⟩⟩
  · exact not_opened_of_not_opensNew (by decide) rfl rfl fun h => h.plain.slash_free (by decide)
  · exact not_opened_of_not_opensNew (by decide) rfl rfl fun h => h.plain.ne_dots rfl
  · exact not_opened_of_not_opensNew (by decide) rfl rfl fun h => absurd h.room (by decide)

end Config

end UpdateVault
