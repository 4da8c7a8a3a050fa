import UpdateVault.Proofs.Config.File
import UpdateVault.Proofs.Disk.Path
import UpdateVault.Proofs.Flash.Lockstep
import UpdateVault.Proofs.Storage.Selected
import UpdateVault.Proofs.Utf8

/-!
# Using a vault beside its configuration

The configuration file is in the directory where the items are. No item, no temporary file and no
image with another name shares its place, so it lasts however often the vault is opened and used
(`load_after_sessions`). An image with its name does share it, and opening the partition damages
the configuration (`load_after_damage`).
-/

namespace UpdateVault

open Vault (Access Call)

namespace Config

variable {c : Config} {top place : Location} {d d' : Disk} {ps : List Location}

/-- The configuration is in its file in the storage root, which is at a place. -/
structure Saved (c : Config) (top : Location) (d : Disk) : Prop where
  found : d.find c.root = .ok (top, .directory)
  inReach : Disk.pathFault? (filePath c.root) = none
  file : d.node? (fileName :: top) = some (.file (Utf8.encode c.text))

theorem names_fileName : Path.names ⟨fileName⟩ = [fileName] := by decide

theorem saved_of_save (hvalid : c.violation? = none) (h : save c c.root d = .ok () d') :
    ∃ top, c.Saved top d' := by
  obtain ⟨d₁, place, hmake, hslot, hnode, hchanges⟩ := save_eq_ok h
  obtain ⟨top, hfound⟩ := Disk.leadsTo_of_makePath (nonempty_of_valid hvalid) hmake
  obtain ⟨hreach, rfl⟩ := Disk.fileSlot_join hfound (by decide) names_fileName hslot
  exact ⟨top, Disk.find_of_keeps hchanges.keeps hfound, hreach, hnode⟩

namespace Saved

/-- The path of the configuration leads to its file. -/
theorem find_eq (h : c.Saved top d) :
    d.find (filePath c.root) = .ok (fileName :: top, .file (Utf8.encode c.text)) := by
  have hname : Disk.nameFault? fileName = none := by decide
  have hwalk : d.walk top (Path.names ⟨fileName⟩) = .ok (fileName :: top) := by
    have htop := (Disk.find_eq_ok_iff.1 h.found).2.1
    have hstep : d.step top fileName = .ok (fileName :: top) := by
      simp [Disk.step, htop, Disk.entry?, hname, h.file, show fileName ≠ "." by decide,
        show fileName ≠ ".." by decide]
    rw [names_fileName, Disk.walk_cons, hstep]
    rfl
  have hslash : (filePath c.root).endsInSlash = false :=
    (Path.endsInSlash_join (by decide) (by decide)).trans (by decide)
  exact (Disk.find_joined_iff h.found (by decide)).2 ⟨h.inReach, hwalk, h.file, .inr hslash⟩

theorem load_eq (h : c.Saved top d) (hvalid : c.violation? = none)
    (hfits : c.partition.FitsWords) : load c.root d = .ok c := by
  rw [load_of_find hfits h.find_eq, verdict, hvalid]

/-- Changes of other files leave a configuration alone. -/
theorem of_changes (h : c.Saved top d) (hchanges : Disk.ChangesFiles ps d d')
    (hother : fileName :: top ∉ ps) : c.Saved top d' :=
  ⟨Disk.find_of_keeps hchanges.keeps h.found, h.inReach, (hchanges.same _ hother).trans h.file⟩

/-! ## In a directory -/

theorem sweep (h : c.Saved top d) : c.Saved top (ItemDirectory.sweep d c.root top) := by
  refine ⟨Disk.find_of_keeps (ItemDirectory.keeps_sweep top) h.found, h.inReach, ?_⟩
  rw [ItemDirectory.node?_sweep_of_name (by decide), h.file]

theorem access (h : c.Saved top d) (access : Access) (root : Path) :
    c.Saved top (access.run.after (⟨root, top, d⟩ : ItemDirectory)).disk := by
  obtain ⟨d', hafter, hchanges⟩ := ItemDirectory.after_run access ⟨root, top, d⟩
  rw [hafter]
  refine h.of_changes hchanges ?_
  have hfile : fileName ≠ access.item.name := by cases access.item <;> decide
  have htemporary : fileName ≠ access.item.name ++ ItemDirectory.temporarySuffix := by
    cases access.item <;> decide
  simp [ItemDirectory.fileOf, ItemDirectory.temporaryOf, hfile, htemporary]

end Saved

end Config

/-! ## In an image file -/

namespace FlashImageFile

variable {c : Config} {top place : Location} {f : FlashImageFile} {d d' : Disk} {path : Path}

/-- A device in a file beside a configuration. -/
structure Beside (c : Config) (top : Location) (f : FlashImageFile) : Prop where
  saved : c.Saved top f.disk
  linked : ∃ place content, f.handle = .linked place ∧ place ≠ Config.fileName :: top ∧
    f.disk.node? place = some (.file content)

theorem Beside.setContent (h : f.Beside c top) (image : Bytes) :
    (f.setContent image).Beside c top := by
  obtain ⟨place, content, hhandle, hother, hnode⟩ := h.linked
  have hset : f.setContent image = { f with disk := f.disk.set place (.file image) } := by
    simp only [FlashImageFile.setContent, hhandle]
  have hfile : f.disk.node? place ≠ some .directory := by
    simp [hnode]
  rw [hset]
  refine ⟨h.saved.of_changes (Disk.changesFiles_set hfile image) ?_, place, image, hhandle, hother,
    ?_⟩
  · simpa using hother.symm
  · rw [Disk.node?_set (Disk.file_ne_nil hnode), if_pos rfl]

theorem keeps_beside (c : Config) (top : Location) : FlashMemory.Keeps (Beside c top) :=
  keeps_of_setContent fun _ image h => h.setContent image

/-- What a partition's image is made by does not touch a configuration. -/
theorem saved_after_create {capacity : Nat} (h : c.Saved top d) (hfree : d.exists path = false) :
    c.Saved top ((create path capacity).after d) := by
  refine h.of_changes create_changesImage fun hmem => ?_
  rcases mem_imagePlaces.1 hmem with htarget | htemporary
  · -- the path would have led to the configuration
    have hfind := Disk.find_of_fileSlot htarget (.refl d) h.file
    rw [Disk.exists, hfind] at hfree
    cases hfree
  · obtain ⟨name, parent, hname⟩ := Disk.fileSlot_extend (by decide) (by decide) htemporary
    have hend := ItemDirectory.isTemporary_append name
    rw [ItemDirectory.temporarySuffix, ← (List.cons.inj hname).1] at hend
    exact absurd hend (by decide)

/-- A device that was opened is beside the configuration; where none was, the configuration is
still there. -/
def OpensBeside (c : Config) (top : Location) : EStateM.Result IoError Disk FlashImageFile → Prop
  | .ok f d => f.disk = d ∧ f.Beside c top
  | .error _ d => c.Saved top d

variable {sectorSize sectorCount capacity : Nat}

theorem adopt_beside (h : c.Saved top d) (hother : ∀ place content,
    d.find path = .ok (place, .file content) → place ≠ Config.fileName :: top) :
    OpensBeside c top (adopt path sectorSize sectorCount capacity d) := by
  rw [adopt]
  cases hfind : d.find path with
  | error e => exact h
  | ok found =>
    obtain ⟨place, node⟩ := found
    cases node with
    | directory => exact h
    | file content =>
      have hne := hother place content hfind
      have hnode := (Disk.find_eq_ok_iff.1 hfind).2.1
      dsimp only
      split
      · exact h
      · rename_i hlong
        have hchanges : Disk.ChangesFiles [place] d
            ((pad place content capacity).after d) := pad_changesFiles
        have hsaved := h.of_changes hchanges (by simpa using hne.symm)
        cases hrun : pad place content capacity d with
        | error e d' =>
          rw [Update.after_of_error hrun] at hsaved
          exact hsaved
        | ok _ d' =>
          rw [Update.after_of_ok hrun] at hsaved
          obtain ⟨image, -, hfound⟩ := find_of_pad hfind (Nat.not_lt.1 hlong) hrun
          exact ⟨rfl, hsaved, place, image, rfl, hne, (Disk.find_eq_ok_iff.1 hfound).2.1⟩

/-- Opening an image of a single part does not touch a configuration of another name. -/
theorem open_beside {image : Path} (h : c.Saved top d) (hsingle : image.isSingle = true)
    (hother : image ≠ ⟨Config.fileName⟩) :
    OpensBeside c top («open» (c.root.join image) sectorSize sectorCount d) := by
  have hname : image.text ≠ Config.fileName := fun hname => hother (by rw [← hname])
  have hplace {d' : Disk} (h' : c.Saved top d') (place : Location) (content : Bytes)
      (hfind : d'.find (c.root.join image) = .ok (place, .file content)) :
      place ≠ Config.fileName :: top :=
    Disk.ne_of_find_single h'.found hsingle hfind hname
  rw [open_eq]
  cases Flash.capacity sectorSize sectorCount with
  | error e => exact h
  | ok capacity =>
    dsimp only
    split
    · exact adopt_beside h (hplace h)
    · rename_i hfree
      have hsaved : c.Saved top ((create (c.root.join image) capacity).after d) :=
        saved_after_create h (by simpa using hfree)
      cases hcreate : create (c.root.join image) capacity d with
      | error e d' =>
        rw [Update.after_of_error hcreate] at hsaved
        exact hsaved
      | ok _ d' =>
        rw [Update.after_of_ok hcreate] at hsaved
        exact adopt_beside hsaved (hplace hsaved)

/-- The configuration is where opening looks for an image in its place. -/
theorem open_filePath (h : c.Saved top d) (sectorSize sectorCount : Nat) :
    «open» (Config.filePath c.root) sectorSize sectorCount d =
      match Flash.capacity sectorSize sectorCount with
      | .error e => .error e d
      | .ok capacity => adopt (Config.filePath c.root) sectorSize sectorCount capacity d := by
  have hexists : d.exists (Config.filePath c.root) = true := by
    rw [Disk.exists, h.find_eq]
    rfl
  rw [open_eq]
  cases Flash.capacity sectorSize sectorCount with
  | error e => rfl
  | ok capacity => exact if_pos hexists

/-- A configuration that is too long for an image is refused as one. -/
theorem open_too_long (h : c.Saved top d)
    (hlong : sectorSize * sectorCount < (Utf8.encode c.text).length) :
    OpensBeside c top («open» (Config.filePath c.root) sectorSize sectorCount d) := by
  rw [open_filePath h]
  cases hcapacity : Flash.capacity sectorSize sectorCount with
  | error e => exact h
  | ok capacity =>
    obtain rfl := (capacity_eq_ok hcapacity).2.2
    simp only [adopt, h.find_eq, hlong, if_true]
    exact h

/-- A configuration that is too short for an image is filled up with erased cells. -/
theorem open_too_short (h : c.Saved top d) (hcapacity : Flash.capacity sectorSize sectorCount
      = .ok capacity) (hbuffer : capacity ≤ Flash.maxBuffer)
    (hshort : (Utf8.encode c.text).length < capacity) :
    ∃ f : FlashImageFile, «open» (Config.filePath c.root) sectorSize sectorCount d = .ok f f.disk ∧
      f.disk = d.set (Config.fileName :: top) (.file (Utf8.encode c.text
        ++ Bytes.erased (capacity - (Utf8.encode c.text).length))) := by
  have hname : Disk.Nameable (Config.fileName :: top) :=
    ⟨List.cons_ne_nil _ _, (by decide : Disk.nameFault? Config.fileName = none)⟩
  refine ⟨⟨Config.filePath c.root, sectorSize, sectorCount, .linked (Config.fileName :: top), _⟩,
    ?_, rfl⟩
  rw [open_filePath h, hcapacity]
  simp only [adopt, h.find_eq, if_neg (Nat.lt_asymm hshort),
    pad_of_lt hshort ((Nat.sub_le _ _).trans hbuffer), Disk.run, Disk.append_eq hname h.file]
  rfl

end FlashImageFile

/-! ## Sessions -/

namespace SelectedStorage

variable {c : Config} {top : Location} {d : Disk} {s : SelectedStorage}

/-- A storage that was opened beside its configuration. -/
inductive Beside (c : Config) (top : Location) : SelectedStorage → Prop
  | directory {items : ItemDirectory} : items.place = top → c.Saved top items.disk →
      Beside c top (directory items)
  | partition {items : Partition FlashImageFile} : items.device.Beside c top →
      Beside c top (partition items)
  | absent {disk : Disk} : c.Saved top disk → Beside c top (absent disk)

theorem Beside.saved (h : s.Beside c top) : c.Saved top s.disk := by
  cases h with
  | directory _ h => exact h
  | partition h => exact h.saved
  | absent h => exact h

theorem Beside.access (h : s.Beside c top) (access : Access) :
    (access.run.after s).Beside c top := by
  cases h with
  | @directory items hplace h =>
    subst hplace
    obtain ⟨d, hafter, -⟩ := ItemDirectory.after_run access items
    have hsaved := h.access access items.root
    rw [after_directory, hafter]
    rw [hafter] at hsaved
    exact .directory rfl hsaved
  | partition h =>
    rw [after_partition]
    exact .partition (Partition.after_access (FlashImageFile.keeps_beside c top) access h)
  | absent h =>
    rw [after_absent]
    exact .absent h

/-- A vault after calls on it, of which some may fail. -/
def afterCalls (s : SelectedStorage) (calls : List Call) : SelectedStorage :=
  calls.foldl (fun s call => call.run.after s) s

theorem Beside.calls (h : s.Beside c top) (calls : List Call) :
    (s.afterCalls calls).Beside c top := by
  induction calls generalizing s with
  | nil => exact h
  | cons call rest ih =>
    exact ih (Call.preserves (fun access _ _ hs => hs.access access) h)

end SelectedStorage

namespace Config

variable {c : Config} {top : Location} {d d' : Disk}

/-- What is left of a disk when a vault is opened, used by calls and closed. -/
def session (c : Config) (d : Disk) (calls : List Call) : Disk :=
  match SelectedStorage.open c d with
  | .ok s _ => (s.afterCalls calls).disk
  | .error _ d' => d'

/-- The configuration is not taken for the image of its own partition: that is another file, or
the configuration is too long to be an image. -/
def SparesItself (c : Config) : Prop :=
  c.backend = .nvs → c.partition.image = ⟨fileName⟩ →
    c.partition.sectorSize * c.partition.sectorCount < (Utf8.encode c.text).length

theorem Saved.openPartition (h : c.Saved top d) (hvalid : c.violation? = none)
    (hbackend : c.backend = .nvs) (hspares : c.SparesItself) :
    match SelectedStorage.openPartition c d with
    | .ok p _ => p.device.Beside c top
    | .error _ d' => c.Saved top d' := by
  obtain ⟨-, -, -, hsingle⟩ := partition_of_valid hvalid hbackend
  have hopen : FlashImageFile.OpensBeside c top (FlashImageFile.open (c.root.join c.partition.image)
      c.partition.sectorSize c.partition.sectorCount d) := by
    by_cases himage : c.partition.image = ⟨fileName⟩
    · rw [himage]
      exact FlashImageFile.open_too_long h (hspares hbackend himage)
    · exact FlashImageFile.open_beside h hsingle himage
  simp only [SelectedStorage.openPartition, Disk.makePath_eq h.found]
  cases hdevice : FlashImageFile.open (c.root.join c.partition.image) c.partition.sectorSize
      c.partition.sectorCount d with
  | error e d' =>
    rw [hdevice] at hopen
    exact hopen
  | ok f d' =>
    rw [hdevice] at hopen
    obtain ⟨rfl, hbeside⟩ := hopen
    dsimp only
    cases hmount : Partition.mount f with
    | error e => exact hbeside.saved
    | ok p =>
      rw [← Partition.device_of_mount hmount] at hbeside
      exact hbeside

/-- Whatever becomes of opening a vault and of the calls on it, the configuration stays. -/
theorem Saved.session (h : c.Saved top d) (hvalid : c.violation? = none)
    (hspares : c.SparesItself) (calls : List Call) : c.Saved top (c.session d calls) := by
  rw [Config.session, SelectedStorage.open, hvalid]
  dsimp only
  cases hbackend : c.backend with
  | file =>
    have hopen := ItemDirectory.open_of_find h.found
    have hbeside : SelectedStorage.Beside c top (.directory ⟨c.root, top, _⟩) :=
      .directory rfl h.sweep
    simp only [Functor.map, EStateM.map, hopen]
    exact (hbeside.calls calls).saved
  | nvs =>
    have hopen := h.openPartition hvalid hbackend hspares
    simp only [Functor.map, EStateM.map]
    cases hpartition : SelectedStorage.openPartition c d with
    | error e d' =>
      rw [hpartition] at hopen
      exact hopen
    | ok p d' =>
      rw [hpartition] at hopen
      exact ((SelectedStorage.Beside.partition hopen).calls calls).saved
  | none => exact ((SelectedStorage.Beside.absent h).calls calls).saved

/-- The image of a partition whose file is that of the configuration takes its place. -/
structure TakesItself (c : Config) : Prop where
  backend : c.backend = .nvs
  image : c.partition.image = ⟨fileName⟩
  tooShort : (Utf8.encode c.text).length < c.partition.sectorSize * c.partition.sectorCount

theorem capacity_of_valid (hvalid : c.violation? = none) (hbackend : c.backend = .nvs) :
    Flash.capacity c.partition.sectorSize c.partition.sectorCount
      = .ok (c.partition.sectorSize * c.partition.sectorCount) := by
  obtain ⟨hsize, hcount, hlength, -⟩ := partition_of_valid hvalid hbackend
  have hlimit : maxImageLength < Flash.addressLimit := by decide
  rw [Flash.capacity, if_neg (by omega), if_neg (by omega)]

theorem buffer_of_valid (hvalid : c.violation? = none) (hbackend : c.backend = .nvs) :
    c.partition.sectorSize * c.partition.sectorCount ≤ Flash.maxBuffer := by
  obtain ⟨-, -, hlength, -⟩ := partition_of_valid hvalid hbackend
  exact hlength.trans (by decide)

/-- The configuration is damaged as soon as the vault is opened. -/
theorem Saved.load_after_damage (h : c.Saved top d) (hvalid : c.violation? = none)
    (htakes : c.TakesItself) : load c.root (c.session d []) = .error (.io .notUtf8) := by
  obtain ⟨f, hopen, hdisk⟩ :=
    FlashImageFile.open_too_short h (capacity_of_valid hvalid htakes.backend)
      (buffer_of_valid hvalid htakes.backend) htakes.tooShort
  have hsession : c.session d [] = f.disk := by
    rw [Config.session, SelectedStorage.open, hvalid]
    simp only [htakes.backend, Functor.map, EStateM.map, SelectedStorage.openPartition,
      Disk.makePath_eq h.found, htakes.image]
    rw [show c.root.join ⟨fileName⟩ = filePath c.root from rfl, hopen]
    dsimp only
    cases hmount : Partition.mount f with
    | error e => rfl
    | ok p => exact congrArg FlashImageFile.disk (Partition.device_of_mount hmount)
  have hfind := Disk.find_set_file h.find_eq (Utf8.encode c.text ++ Bytes.erased
    (c.partition.sectorSize * c.partition.sectorCount - (Utf8.encode c.text).length))
  have hpos := Nat.sub_pos_of_lt htakes.tooShort
  rw [hsession, hdisk, load, Disk.exists, Disk.readText, Disk.readFile, hfind]
  simp only [bind, Except.bind, pure, Except.pure, Utf8.decode?_append_erased c.text hpos]
  rfl

/-- **Using a vault does not damage its own configuration**, unless the configuration is taken for
the image of its own partition. A configuration that was saved in the storage root is loaded
unchanged, however often the vault was opened and whatever calls were made on it; but opening the
partition in the file of a shorter configuration leaves no text there. -/
theorem load_after_sessions (hvalid : c.violation? = none) (hfits : c.partition.FitsWords)
    (hsave : save c c.root d = .ok () d') :
    (c.SparesItself → ∀ sessions : List (List Call),
      load c.root (sessions.foldl c.session d') = .ok c) ∧
    (c.TakesItself → load c.root (c.session d' []) = .error (.io .notUtf8)) := by
  obtain ⟨top, hsaved⟩ := saved_of_save hvalid hsave
  refine ⟨fun hspares sessions => ?_, hsaved.load_after_damage hvalid⟩
  have hlast : c.Saved top (sessions.foldl c.session d') := by
    clear hsave
    induction sessions generalizing d' with
    | nil => exact hsaved
    | cons calls rest ih => exact ih (hsaved.session hvalid hspares calls)
  exact hlast.load_eq hvalid hfits

/-- A configuration of a partition in an image file. -/
def withImage (image : String) : Config where
  root := ⟨"/"⟩
  backend := .nvs
  partition := { image := ⟨image⟩ }

theorem exists_save_withImage (image : String) :
    ∃ d', save (withImage image) ⟨"/"⟩ ⟨.empty, []⟩ = .ok () d' := by
  have hmake : Disk.makePath ⟨"/"⟩ ⟨.empty, []⟩ = .ok () ⟨.empty, []⟩ := Disk.makePath_eq rfl
  rw [save, hmake]
  exact ⟨_, rfl⟩

theorem load_after_two_sessions :
    ∃ d', save (withImage "nvs.img") ⟨"/"⟩ ⟨.empty, []⟩ = .ok () d' ∧
      load ⟨"/"⟩
          ([[Call.setArtifactName "a"], [.deleteKeys]].foldl (withImage "nvs.img").session d')
        = .ok (withImage "nvs.img") := by
  obtain ⟨d', hsave⟩ := exists_save_withImage "nvs.img"
  have hspares : (withImage "nvs.img").SparesItself := fun _ himage => absurd himage (by decide)
  have hfits : (withImage "nvs.img").partition.FitsWords := ⟨by decide, by decide⟩
  exact ⟨d', hsave, (load_after_sessions (by decide) hfits hsave).1 hspares _⟩

/-- The name of the configuration file is accepted as that of an image. -/
theorem load_after_own_image :
    (withImage fileName).violation? = none ∧
      ∃ d', save (withImage fileName) ⟨"/"⟩ ⟨.empty, []⟩ = .ok () d' ∧
        load ⟨"/"⟩ ((withImage fileName).session d' []) ≠ .ok (withImage fileName) := by
  have hvalid : (withImage fileName).violation? = none := by decide
  obtain ⟨d', hsave⟩ := exists_save_withImage fileName
  obtain ⟨top, hsaved⟩ := saved_of_save hvalid hsave
  have hdamaged := hsaved.load_after_damage hvalid ⟨rfl, rfl, by decide +kernel⟩
  refine ⟨hvalid, d', hsave, fun hload => ?_⟩
  rw [show (withImage fileName).root = ⟨"/"⟩ from rfl, hload] at hdamaged
  cases hdamaged

end Config

end UpdateVault
