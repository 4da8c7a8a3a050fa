import UpdateVault.Proofs.Disk.Entry
import UpdateVault.Proofs.Disk.PowerLoss
import UpdateVault.Proofs.Flash.Lockstep
import UpdateVault.Proofs.Storage.Directory

/-!
# Opening a flash image

Opening makes a missing image, gives a short one the bytes it lacks and refuses a long one
(`open_settles`). `openingSteps` are its changes of the disk in the smallest steps there are.
However many of them were made when the power was lost, opening anew comes to the same device on the
same disk (`open_cut`), as what is left is a shorter image, or a temporary file that is written
anew.
-/

namespace UpdateVault.FlashImageFile

open Disk (ParentIs Nameable)

variable {path : Path} {sectorSize sectorCount capacity k : Nat} {d d' : Disk}
  {f : FlashImageFile} {name : String} {content : Bytes}
  {place parent temporary target : Location}

/-- The changes by which opening makes an image or gives one the bytes it lacks, byte by byte. -/
def openingSteps (path : Path) (capacity : Nat) (d : Disk) : List Disk.Change :=
  match d.find path with
  | .ok (_, .directory) => []
  | .ok (place, .file content) =>
    (Bytes.erased (capacity - content.length)).map fun b => .append place [b]
  | .error _ =>
    match d.fileSlot (path.extend ".tmp"), d.fileSlot path with
    | .ok temporary, .ok target => Disk.replaceSteps temporary target (Bytes.erased capacity)
    | _, _ => []

/-! ## An image that is there -/

/-- An image that is not too long gets the bytes it lacks. -/
theorem adopt_of_file (hplace : Nameable place) (hfind : d.find path = .ok (place, .file content))
    (hle : content.length ≤ capacity) (hbuffer : capacity ≤ Flash.maxBuffer)
    (hd' : d.set place (.file (content ++ Bytes.erased (capacity - content.length))) = d') :
    adopt path sectorSize sectorCount capacity d
      = .ok ⟨path, sectorSize, sectorCount, .linked place, d'⟩ d' := by
  subst hd'
  have hnode := (Disk.find_eq_ok_iff.1 hfind).2.1
  have hrun : pad place content capacity d
      = .ok () (d.set place (.file (content ++ Bytes.erased (capacity - content.length)))) := by
    rcases Nat.lt_or_ge content.length capacity with hshort | hlong
    · rw [pad_of_lt hshort ((Nat.sub_le _ _).trans hbuffer)]
      exact Disk.run_cons (Disk.append_eq hplace hnode)
    · rw [pad_of_le hlong, Nat.sub_eq_zero_of_le hlong, Bytes.erased, List.replicate_zero,
        List.append_nil, Disk.set_eq_self hplace.1 hnode]
  simp only [adopt, hfind, if_neg (Nat.not_lt.2 hle), hrun]

theorem adopt_of_long (hfind : d.find path = .ok (place, .file content))
    (hlong : capacity < content.length) :
    adopt path sectorSize sectorCount capacity d
      = .error (.imageTooLong path content.length capacity) d := by
  simp only [adopt, hfind, if_pos hlong]

/-! ## An image that is missing -/

theorem missing_of_fileSlot (htarget : d.fileSlot path = .ok target)
    (hnone : d.node? target = none) : d.exists path = false := by
  rw [Disk.exists]
  cases hfind : d.find path with
  | error e => rfl
  | ok found =>
    obtain ⟨place, node⟩ := found
    obtain rfl := Disk.place_of_find htarget hfind
    rw [(Disk.find_eq_ok_iff.1 hfind).2.1] at hnone
    cases hnone

theorem endsIn_temporary (hpath : path.EndsIn name) :
    (path.extend ".tmp").EndsIn (name ++ ".tmp") ∧
      (path.extend ".tmp").names.dropLast = path.names.dropLast := by
  have hlong : 4 ≤ (name ++ ".tmp").length := by
    rw [String.length_append]
    exact Nat.le_add_left ..
  refine hpath.extend (by decide) (fun h => ?_) fun h => ?_
  · rw [h] at hlong
    exact absurd hlong (by decide)
  · rw [h] at hlong
    exact absurd hlong (by decide)

theorem parentIs_temporary (hpath : path.EndsIn name) (hparent : d.ParentIs path parent)
    (hreach : Disk.pathFault? (path.extend ".tmp") = none) :
    d.ParentIs (path.extend ".tmp") parent := by
  obtain ⟨from', hstart, hleads⟩ := hparent
  exact ⟨from', Disk.start_extend hstart hreach, (endsIn_temporary hpath).2 ▸ hleads⟩

/-- The temporary file has a name of its own. -/
theorem ne_of_fileSlots (htarget : d.fileSlot path = .ok target)
    (htemporary : d.fileSlot (path.extend ".tmp") = .ok temporary) : temporary ≠ target := by
  obtain ⟨name, parent, hpath, -, -, rfl⟩ := Disk.fileSlot_eq_ok_iff.1 htarget
  obtain ⟨other, parent', hother, -, -, rfl⟩ := Disk.fileSlot_eq_ok_iff.1 htemporary
  obtain rfl := (endsIn_temporary hpath).1.unique hother
  intro h
  have hlength := congrArg String.length (List.head_eq_of_cons_eq h)
  rw [String.length_append, Nat.add_eq_left] at hlength
  exact absurd hlength (by decide)

/-! ## Losing the power on the way -/

/-- What a loss of power leaves of an image leads on to the same image. -/
theorem adopt_cut (hplace : Nameable place) (hfind : d.find path = .ok (place, .file content))
    (hle : content.length ≤ capacity) (hbuffer : capacity ≤ Flash.maxBuffer) (k : Nat) :
    ∃ content', (Disk.cut (openingSteps path capacity d) k d).find path
        = .ok (place, .file content') ∧
      adopt path sectorSize sectorCount capacity (Disk.cut (openingSteps path capacity d) k d)
        = adopt path sectorSize sectorCount capacity d := by
  have hnode := (Disk.find_eq_ok_iff.1 hfind).2.1
  have hcut : Disk.cut (openingSteps path capacity d) k d
      = d.set place (.file (content ++ Bytes.erased (min k (capacity - content.length)))) := by
    simp only [openingSteps, hfind, Disk.cut_appends hplace hnode, Bytes.erased,
      List.take_replicate]
  have hfind' := Disk.find_set_file hfind
    (content ++ Bytes.erased (min k (capacity - content.length)))
  have hlength : (content ++ Bytes.erased (min k (capacity - content.length))).length
      = content.length + min k (capacity - content.length) := by
    rw [List.length_append, Flash.length_erased]
  rw [hcut]
  refine ⟨_, hfind', ?_⟩
  rw [adopt_of_file hplace hfind hle hbuffer rfl,
    adopt_of_file hplace hfind' (by omega) hbuffer ?_]
  have hsum : min k (capacity - content.length)
      + (capacity - (content.length + min k (capacity - content.length)))
      = capacity - content.length := by omega
  rw [Disk.set_set, List.append_assoc, hlength, Flash.erased_append, hsum]

/-- Whatever became of the temporary file, the image is still missing and made in the same way. -/
theorem open_set_temporary (hcapacity : Flash.capacity sectorSize sectorCount = .ok capacity)
    (hbuffer : capacity ≤ Flash.maxBuffer) (hmissing : d.exists path = false)
    (htarget : d.fileSlot path = .ok target)
    (htemporary : d.fileSlot (path.extend ".tmp") = .ok temporary)
    (hfree : d.node? temporary ≠ some .directory) (content : Bytes) :
    «open» path sectorSize sectorCount (d.set temporary (.file content))
      = «open» path sectorSize sectorCount d := by
  have hkeeps := (Disk.changesFiles_set hfree content).keeps
  have htarget' := Disk.fileSlot_of_keeps hkeeps htarget
  have htemporary' := Disk.fileSlot_of_keeps hkeeps htemporary
  have hnone : (d.set temporary (.file content)).node? target = none := by
    rw [Disk.node?_set (Disk.nameable_of_fileSlot htemporary).1,
      if_neg (ne_of_fileSlots htarget htemporary).symm]
    exact node?_of_missing hmissing htarget
  have hmissing' := missing_of_fileSlot htarget' hnone
  rw [open_of_missing hcapacity hmissing, open_of_missing hcapacity hmissing',
    create_of_le htarget htemporary hbuffer, create_of_le htarget' htemporary' hbuffer,
    Disk.replace_set_temporary (Disk.nameable_of_fileSlot htemporary) hfree]

/-- What opening has to do: nothing, and then it fails, or to give an image the bytes it lacks, or
to make one. -/
theorem opening_cases (hcapacity : Flash.capacity sectorSize sectorCount = .ok capacity)
    (hbuffer : capacity ≤ Flash.maxBuffer) (hpath : path.EndsIn name) :
    (∃ e, openingSteps path capacity d = [] ∧
      «open» path sectorSize sectorCount d = .error e d) ∨
    (∃ place content, d.find path = .ok (place, .file content) ∧ d.fileSlot path = .ok place ∧
      content.length ≤ capacity ∧ openingSteps path capacity d
        = (Bytes.erased (capacity - content.length)).map fun b => .append place [b]) ∨
    (∃ target temporary, d.exists path = false ∧ d.fileSlot path = .ok target ∧
      d.fileSlot (path.extend ".tmp") = .ok temporary ∧
      openingSteps path capacity d
        = Disk.replaceSteps temporary target (Bytes.erased capacity)) := by
  cases hfind : d.find path with
  | ok found =>
    have hopen := open_of_find hcapacity hfind
    obtain ⟨place, _ | content⟩ := found
    · refine .inl ⟨.isDirectory, ?_, ?_⟩
      · simp only [openingSteps, hfind]
      · simp only [hopen, adopt, hfind]
    · by_cases hle : content.length ≤ capacity
      · obtain ⟨parent, rfl, hparent, hfault⟩ := Disk.parentIs_of_find hpath hfind
        refine .inr (.inl ⟨_, content, rfl, Disk.fileSlot_of_parent hpath hparent hfault, hle, ?_⟩)
        simp only [openingSteps, hfind]
      · have hlong := Nat.not_le.1 hle
        refine .inl ⟨_, ?_, hopen.trans (adopt_of_long hfind hlong)⟩
        simp only [openingSteps, hfind, Nat.sub_eq_zero_of_le (Nat.le_of_lt hlong)]
        rfl
  | error e =>
    have hmissing : d.exists path = false := by
      rw [Disk.exists, hfind]
      rfl
    have hopen := open_of_missing hcapacity hmissing
    cases htemporary : d.fileSlot (path.extend ".tmp") with
    | error e =>
      simp only [create, htemporary] at hopen
      refine .inl ⟨e, ?_, hopen⟩
      simp only [openingSteps, hfind, htemporary]
    | ok temporary =>
      cases htarget : d.fileSlot path with
      | error e =>
        simp only [create, htemporary, htarget, Flash.erasedBuffer_of_le hbuffer] at hopen
        refine .inl ⟨e, ?_, hopen⟩
        simp only [openingSteps, hfind, htemporary, htarget]
      | ok target =>
        refine .inr (.inr ⟨target, temporary, hmissing, rfl, rfl, ?_⟩)
        simp only [openingSteps, hfind, htemporary, htarget]

/-- **However far opening got when the power was lost, opening anew gives the same device on the
same disk.** -/
theorem open_cut (hcapacity : Flash.capacity sectorSize sectorCount = .ok capacity)
    (hbuffer : capacity ≤ Flash.maxBuffer) (hpath : path.EndsIn name) (k : Nat) :
    «open» path sectorSize sectorCount (Disk.cut (openingSteps path capacity d) k d)
      = «open» path sectorSize sectorCount d := by
  rcases opening_cases (d := d) hcapacity hbuffer hpath with ⟨e, hsteps, -⟩ |
    ⟨place, content, hfind, hslot, hle, -⟩ |
    ⟨target, temporary, hmissing, htarget, htemporary, hsteps⟩
  · rw [hsteps, Disk.cut_nil]
  · obtain ⟨content', hfind', hadopt⟩ :=
      adopt_cut (Disk.nameable_of_fileSlot hslot) hfind hle hbuffer k
    rw [open_of_find hcapacity hfind, open_of_find hcapacity hfind', hadopt]
  · have hnone := node?_of_missing hmissing htarget
    rw [hsteps]
    rcases Disk.cut_replaceSteps_cases (Disk.nameable_of_fileSlot htemporary)
      (Disk.nameable_of_fileSlot htarget) (ne_of_fileSlots htarget htemporary)
      (by rw [hnone]; nofun) (Bytes.erased capacity) k
      with hcut | ⟨hfree, content, hcut⟩ | hreplace
    · rw [hcut]
    · rw [hcut, open_set_temporary hcapacity hbuffer hmissing htarget htemporary hfree]
    · have hcreate : create path capacity d = .ok () (Disk.cut
          (Disk.replaceSteps temporary target (Bytes.erased capacity)) k d) := by
        rw [create_of_le htarget htemporary hbuffer, hreplace]
      obtain ⟨-, _, place, -, -, hfound⟩ := create_eq_ok hcreate
      rw [open_of_missing hcapacity hmissing, hcreate, open_of_find hcapacity hfound]

/-- Done to the end, the steps are what opening does. -/
theorem cut_length (hcapacity : Flash.capacity sectorSize sectorCount = .ok capacity)
    (hbuffer : capacity ≤ Flash.maxBuffer) (hpath : path.EndsIn name) :
    Disk.cut (openingSteps path capacity d) (openingSteps path capacity d).length d
      = («open» path sectorSize sectorCount).after d := by
  rcases opening_cases (d := d) hcapacity hbuffer hpath with ⟨e, hsteps, hopen⟩ |
    ⟨place, content, hfind, hslot, hle, hsteps⟩ |
    ⟨target, temporary, hmissing, htarget, htemporary, hsteps⟩
  · rw [hsteps, Disk.cut_nil, Update.after_of_error hopen]
  · have hplace := Disk.nameable_of_fileSlot hslot
    have hopen := open_of_find hcapacity hfind
    rw [adopt_of_file hplace hfind hle hbuffer rfl] at hopen
    rw [hsteps, Update.after_of_ok hopen,
      Disk.cut_appends hplace (Disk.find_eq_ok_iff.1 hfind).2.1, List.length_map, List.take_length]
  · rw [hsteps, Disk.length_replaceSteps]
    by_cases hway : d.node? temporary = some .directory
    · have hname := Disk.nameable_of_fileSlot htemporary
      have hopen := open_of_missing hcapacity hmissing
      rw [create_of_le htarget htemporary hbuffer, Disk.replace_of_occupied hname hway] at hopen
      rw [Disk.cut_replaceSteps_of_directory hname hway, Update.after_of_error hopen]
    · obtain ⟨d', hcreate⟩ := exists_create htarget htemporary hmissing hway hbuffer
      obtain ⟨f, hopen, -⟩ := open_of_create hcapacity hmissing hcreate
      rw [create_of_le htarget htemporary hbuffer] at hcreate
      rw [Update.after_of_ok hopen]
      exact Disk.cut_replaceSteps_of_le (ne_of_fileSlots htarget htemporary) hcreate (Nat.le_refl _)

/-- The two places are in one directory. -/
theorem eq_of_mem_imagePlaces (hpath : path.EndsIn name) (hparent : d.ParentIs path parent)
    (h : place ∈ imagePlaces path d) :
    place = name :: parent ∨ place = (name ++ ".tmp") :: parent := by
  rcases mem_imagePlaces.1 h with hslot | hslot
  · obtain ⟨name', parent', hpath', hparent', -, rfl⟩ := Disk.fileSlot_eq_ok_iff.1 hslot
    rw [hpath.unique hpath', hparent.unique hparent']
    exact .inl rfl
  · obtain ⟨name', parent', hpath', hparent', -, rfl⟩ := Disk.fileSlot_eq_ok_iff.1 hslot
    have hreach : Disk.pathFault? (path.extend ".tmp") = none := by
      obtain ⟨from', hstart, -⟩ := hparent'
      exact (Disk.start_eq_ok hstart).1
    rw [(endsIn_temporary hpath).1.unique hpath',
      (parentIs_temporary hpath hparent hreach).unique hparent']
    exact .inr rfl

/-- However far opening gets, it touches the image and the temporary file beside it only. -/
theorem cut_changesImage (hcapacity : Flash.capacity sectorSize sectorCount = .ok capacity)
    (hbuffer : capacity ≤ Flash.maxBuffer) (hpath : path.EndsIn name) (k : Nat) :
    Disk.ChangesFiles (imagePlaces path d) d (Disk.cut (openingSteps path capacity d) k d) := by
  refine Disk.run_changesFiles fun c hc place hplace => mem_imagePlaces.2 ?_
  replace hc := List.mem_of_mem_take hc
  rcases opening_cases (d := d) hcapacity hbuffer hpath with ⟨e, hsteps, -⟩ |
    ⟨image, content, -, hslot, -, hsteps⟩ | ⟨target, temporary, -, htarget, htemporary, hsteps⟩
  · rw [hsteps] at hc
    cases hc
  · rw [hsteps] at hc
    obtain ⟨b, -, rfl⟩ := List.mem_map.1 hc
    obtain rfl := List.mem_singleton.1 hplace
    exact .inl hslot
  · rw [hsteps] at hc
    rcases List.mem_pair.1 (Disk.places_of_mem_replaceSteps hc hplace) with rfl | rfl
    · exact .inr htemporary
    · exact .inl htarget

theorem after_open_changesImage (hcapacity : Flash.capacity sectorSize sectorCount = .ok capacity)
    (hbuffer : capacity ≤ Flash.maxBuffer) (hpath : path.EndsIn name) :
    Disk.ChangesFiles (imagePlaces path d) d ((«open» path sectorSize sectorCount).after d) := by
  rw [← cut_length hcapacity hbuffer hpath]
  exact cut_changesImage hcapacity hbuffer hpath _

/-! ## Other files -/

/-- A file that was adopted is the only one that has changed. -/
theorem changesFiles_of_adopt (h : adopt path sectorSize sectorCount capacity d = .ok f d') :
    ∃ place content image, d.find path = .ok (place, .file content) ∧
      d'.find path = .ok (place, .file image) ∧ Disk.ChangesFiles [place] d d' := by
  rw [adopt] at h
  split at h
  · cases h
  · cases h
  · rename_i place content hfind
    split at h
    · cases h
    · rename_i hlong
      split at h
      · cases h
      · rename_i hrun
        cases h
        obtain ⟨image, -, hfound⟩ := find_of_pad hfind (Nat.not_lt.1 hlong) hrun
        have hchanges : Disk.ChangesFiles [place] d
            ((pad place content capacity).after d) := pad_changesFiles
        rw [Update.after_of_ok hrun] at hchanges
        exact ⟨place, content, image, hfind, hfound, hchanges⟩

/-- A file that is neither temporary nor where the image is then is left alone. -/
theorem node?_of_open (h : «open» path sectorSize sectorCount d = .ok f d')
    (hfile : d.node? (name :: parent) = some (.file content))
    (hname : ItemDirectory.isTemporary name = false)
    (hother : ∀ node, d'.find path ≠ .ok (name :: parent, node)) :
    d'.node? (name :: parent) = some (.file content) := by
  have hadopted {d₁ : Disk} {n : Nat} (hadopt : adopt path sectorSize sectorCount n d₁ = .ok f d')
      (hfile₁ : d₁.node? (name :: parent) = some (.file content)) :
      d'.node? (name :: parent) = some (.file content) := by
    obtain ⟨place, _, image, -, hfound, hchanges⟩ := changesFiles_of_adopt hadopt
    refine (hchanges.same _ fun hmem => ?_).trans hfile₁
    rw [← List.mem_singleton.1 hmem] at hfound
    exact hother _ hfound
  rw [open_eq] at h
  split at h
  · cases h
  · split at h
    · exact hadopted h hfile
    · split at h
      · cases h
      · rename_i d₁ hcreate
        obtain ⟨-, temporary, target, htemporary, hmade, hfind⟩ := create_eq_ok hcreate
        refine hadopted h ((hmade.same _ fun hmem => ?_).trans hfile)
        rcases List.mem_pair.1 hmem with rfl | rfl
        · obtain ⟨other, rest, hslot⟩ := Disk.fileSlot_extend (by decide) (by decide) htemporary
          have htemporary' := ItemDirectory.isTemporary_append other
          rw [ItemDirectory.temporarySuffix, ← (List.cons.inj hslot).1, hname] at htemporary'
          cases htemporary'
        · -- the file that was made is the one that is adopted
          obtain ⟨place, _, image, hsame, hfound, -⟩ := changesFiles_of_adopt h
          cases hfind.symm.trans hsame
          exact hother _ hfound

/-! ## Whatever there is at a path -/

/-- A missing image is made where its path leads, if no directory has the name of the temporary file
beside it and the operating system takes that file's path. -/
theorem open_of_absent (hcapacity : Flash.capacity sectorSize sectorCount = .ok capacity)
    (hbuffer : capacity ≤ Flash.maxBuffer) (hpath : path.EndsIn name)
    (hsize : name.utf8ByteSize ≤ 251) (hmissing : d.exists path = false)
    (hparent : d.ParentIs path parent) (hreach : Disk.pathFault? (path.extend ".tmp") = none)
    (hfree : d.node? ((name ++ ".tmp") :: parent) ≠ some .directory) :
    ∃ f d', «open» path sectorSize sectorCount d = .ok f d' ∧
      d'.find path = .ok (name :: parent, .file (Bytes.erased capacity)) ∧
      d'.node? ((name ++ ".tmp") :: parent) = none := by
  have hnul : '\x00' ∉ name.toList := fun hmem =>
    (Disk.pathFault?_eq_none_iff.1 (ItemDirectory.pathFault?_of_extend hreach)).1
      (Path.mem_of_mem_names (hpath.names_eq ▸ List.mem_append_right _ List.mem_cons_self) hmem)
  have hname : Disk.nameFault? name = none :=
    Disk.nameFault?_eq_none_iff.2 ⟨hnul, Nat.le_trans hsize (by decide)⟩
  have hname' : Disk.nameFault? (name ++ ".tmp") = none := by
    refine Disk.nameFault?_eq_none_iff.2 ⟨?_, ?_⟩
    · rw [String.toList_append, List.mem_append, not_or]
      exact ⟨hnul, by decide⟩
    · rw [String.utf8ByteSize_append]
      exact Nat.add_le_add_right hsize 4
  have htarget := Disk.fileSlot_of_parent hpath hparent hname
  have htemporary := Disk.fileSlot_of_parent (endsIn_temporary hpath).1
    (parentIs_temporary hpath hparent hreach) hname'
  obtain ⟨d', hreplace, hkeeps, hnode⟩ := Disk.replace_eq (Bytes.erased capacity)
    (Disk.nameable_of_fileSlot htemporary) (Disk.nameable_of_fileSlot htarget)
    (ne_of_fileSlots htarget htemporary) hfree (by rw [node?_of_missing hmissing htarget]; nofun)
  have hcreate : create path capacity d = .ok () d' := by
    rw [create_of_le htarget htemporary hbuffer, hreplace]
  obtain ⟨f, hopen, -⟩ := open_of_create hcapacity hmissing hcreate
  refine ⟨f, d', hopen, Disk.find_of_fileSlot htarget hkeeps ?_, ?_⟩
  · rw [hnode, if_pos rfl]
  · rw [hnode, if_neg (ne_of_fileSlots htarget htemporary), if_pos rfl]

/-- **Opening gives an image the bytes it lacks, refuses one that is too long and makes one that is
missing**, as long as a buffer can have the bytes of an image. In all cases it touches nothing but
the image and the temporary file beside it, and if the power is lost on the way, opening anew comes
to the same. -/
theorem open_settles (path : Path) (sectorSize sectorCount capacity : Nat) (d : Disk)
    {name : String} (hcapacity : Flash.capacity sectorSize sectorCount = .ok capacity)
    (hbuffer : capacity ≤ Flash.maxBuffer) (hpath : path.EndsIn name) :
    (∀ place content, d.find path = .ok (place, .file content) →
      (content.length ≤ capacity → ∃ f d', «open» path sectorSize sectorCount d = .ok f d' ∧
        d'.find path
          = .ok (place, .file (content ++ Bytes.erased (capacity - content.length)))) ∧
      (capacity < content.length → «open» path sectorSize sectorCount d
        = .error (.imageTooLong path content.length capacity) d)) ∧
    (∀ parent, name.utf8ByteSize ≤ 251 → d.exists path = false → d.ParentIs path parent →
      Disk.pathFault? (path.extend ".tmp") = none →
      d.node? ((name ++ ".tmp") :: parent) ≠ some .directory →
      ∃ f d', «open» path sectorSize sectorCount d = .ok f d' ∧
        d'.find path = .ok (name :: parent, .file (Bytes.erased capacity)) ∧
        d'.node? ((name ++ ".tmp") :: parent) = none) ∧
    Disk.ChangesFiles (imagePlaces path d) d ((«open» path sectorSize sectorCount).after d) ∧
    Disk.cut (openingSteps path capacity d) (openingSteps path capacity d).length d
      = («open» path sectorSize sectorCount).after d ∧
    ∀ k, Disk.ChangesFiles (imagePlaces path d) d
        (Disk.cut (openingSteps path capacity d) k d) ∧
      «open» path sectorSize sectorCount (Disk.cut (openingSteps path capacity d) k d)
        = «open» path sectorSize sectorCount d := by
  refine ⟨fun place content hfind => ⟨fun hle => ?completed, fun hlong => ?refused⟩,
    fun parent hsize hmissing hparent hreach hfree => ?made,
    after_open_changesImage hcapacity hbuffer hpath, cut_length hcapacity hbuffer hpath,
    fun k => ⟨cut_changesImage hcapacity hbuffer hpath k, open_cut hcapacity hbuffer hpath k⟩⟩
  case completed =>
    obtain ⟨parent, rfl, -, hfault⟩ := Disk.parentIs_of_find hpath hfind
    exact ⟨_, _, (open_of_find hcapacity hfind).trans
      (adopt_of_file ⟨List.cons_ne_nil _ _, hfault⟩ hfind hle hbuffer rfl),
      Disk.find_set_file hfind _⟩
  case refused => exact (open_of_find hcapacity hfind).trans (adopt_of_long hfind hlong)
  case made => exact open_of_absent hcapacity hbuffer hpath hsize hmissing hparent hreach hfree

/-- An image that lacks three of its four bytes, and the power is lost when it lacks one; and one
that is missing, when its temporary file has two bytes. -/
theorem open_settles_two_sectors :
    (∃ f d', «open» ⟨"/f"⟩ 2 2 ⟨.ofList [(["f"], .file [1])], []⟩ = .ok f d' ∧
      d'.find ⟨"/f"⟩ = .ok (["f"], .file [1, 255, 255, 255]) ∧
      «open» ⟨"/f"⟩ 2 2 ⟨.ofList [(["f"], .file [1, 255, 255])], []⟩ = .ok f d') ∧
    ∃ f d', «open» ⟨"/f"⟩ 2 2 ⟨.empty, []⟩ = .ok f d' ∧
      d'.find ⟨"/f"⟩ = .ok (["f"], .file [255, 255, 255, 255]) ∧
      «open» ⟨"/f"⟩ 2 2 ⟨.ofList [(["f.tmp"], .file [255, 255])], []⟩ = .ok f d' := by
  have hpath : Path.EndsIn ⟨"/f"⟩ "f" := ⟨rfl, rfl, by decide, by decide⟩
  constructor
  · obtain ⟨hfound, -, -, -, hcut⟩ := open_settles ⟨"/f"⟩ 2 2 4
      ⟨.ofList [(["f"], .file [1])], []⟩ rfl (by decide) hpath
    obtain ⟨f, d', hopen, hfind⟩ := (hfound ["f"] [1] rfl).1 (by decide)
    exact ⟨f, d', hopen, hfind, (hcut 2).2.trans hopen⟩
  · obtain ⟨-, hmade, -, -, hcut⟩ := open_settles ⟨"/f"⟩ 2 2 4 ⟨.empty, []⟩ rfl (by decide)
      hpath
    obtain ⟨f, d', hopen, hfind, -⟩ := hmade [] (by decide) rfl ⟨[], rfl, rfl, rfl⟩ rfl nofun
    exact ⟨f, d', hopen, hfind, (hcut 3).2.trans hopen⟩

/-- An image is not made where nothing is in its way: under a path that is just short enough, as its
temporary file's path is too long; and if no buffer can have its bytes, which leaves the temporary
file behind. -/
theorem missing_image_not_made :
    (let path := (ItemDirectory.slashes 4092).join ⟨"f"⟩
    let d : Disk := ⟨.empty, []⟩
    Flash.capacity 4 2 = .ok 8 ∧ path.EndsIn "f" ∧ "f".utf8ByteSize ≤ 251 ∧
      d.exists path = false ∧ d.ParentIs path [] ∧ d.node? ["f.tmp"] ≠ some .directory ∧
      «open» path 4 2 d = .error .nameTooLong d) ∧
    (let d : Disk := ⟨.empty, []⟩
    Flash.capacity (2 ^ 32) (2 ^ 31) = .ok (2 ^ 63) ∧ Path.EndsIn ⟨"/f"⟩ "f" ∧
      "f".utf8ByteSize ≤ 251 ∧ d.exists ⟨"/f"⟩ = false ∧ d.ParentIs ⟨"/f"⟩ [] ∧
      Disk.pathFault? ((⟨"/f"⟩ : Path).extend ".tmp") = none ∧
      d.node? ["f.tmp"] ≠ some .directory ∧
      «open» ⟨"/f"⟩ (2 ^ 32) (2 ^ 31) d
        = .error .bufferTooLong ⟨.ofList [(["f.tmp"], .file [])], []⟩) := by
  constructor
  · intro path d
    have hroot := ItemDirectory.find_slashes (n := 4092) d (by decide) (by decide)
    have hfault (name : String) (hrelative : Path.isAbsolute ⟨name⟩ = false)
        (hnul : name.toList.contains '\x00' = false) :=
      ItemDirectory.reachFault?_slashes_eq (n := 4092) (by decide) hrelative hnul
    have hreach : Disk.pathFault? path = none :=
      (hfault "f" (by decide) (by decide)).trans (by decide)
    have hlong : Disk.pathFault? (path.extend ".tmp") = some .nameTooLong := by
      rw [Path.join_extend _ (by decide)]
      exact (hfault "f.tmp" (by decide) (by decide)).trans (by decide)
    have hname : Path.IsPlain "f" := ⟨by decide, by decide, by decide, by decide⟩
    have hpath : path.EndsIn "f" := (Path.EndsIn.join _ hname).1
    have hparent : d.ParentIs path [] := Disk.parentIs_join hroot hname hreach
    have hmissing : d.exists path = false :=
      missing_of_fileSlot (Disk.fileSlot_of_parent hpath hparent (by decide)) (by decide)
    refine ⟨rfl, hpath, by decide, hmissing, hparent, by decide, ?_⟩
    have hslot : d.fileSlot (path.extend ".tmp") = .error .nameTooLong := by
      rw [Disk.fileSlot, Disk.start, hlong]
      rfl
    have hcapacity : Flash.capacity 4 2 = .ok 8 := rfl
    rw [open_of_missing hcapacity hmissing, create, hslot]
  · intro d
    have hcapacity : Flash.capacity (2 ^ 32) (2 ^ 31) = .ok (2 ^ 63) := by decide
    have hmissing : d.exists ⟨"/f"⟩ = false := by decide
    have hslot : d.fileSlot ((⟨"/f"⟩ : Path).extend ".tmp") = .ok ["f.tmp"] := by decide
    have hpath : Path.EndsIn ⟨"/f"⟩ "f" := ⟨rfl, rfl, by decide, by decide⟩
    refine ⟨hcapacity, hpath, by decide, hmissing, ⟨[], rfl, rfl, rfl⟩, by decide, by decide, ?_⟩
    rw [open_of_missing hcapacity hmissing, create_of_lt hslot (by decide)]
    rfl

end UpdateVault.FlashImageFile
