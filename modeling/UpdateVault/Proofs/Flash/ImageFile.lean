import UpdateVault.Flash.ImageFile
import UpdateVault.Proofs.Disk.Frame
import UpdateVault.Proofs.Flash.Chip

/-!
# Flash in a file

A flash device in a file does what a chip with the same image does, with the same results and the
same errors, as long as the file is changed through the device only (`Mirrors`). It can be opened
anew at any time (`Mirrors.open_eq`), and a device that was opened is such a one
(`mirrors_of_open`).
-/

namespace UpdateVault.FlashImageFile

open Update (Same)

variable {f f' : FlashImageFile} {chip chip' : FlashChip} {path : Path} {d d' : Disk}
  {sectorSize sectorCount : Nat}

/-- The path leads to the file of the device, which has the image of the chip, and the chip has
power. -/
structure Mirrors (f : FlashImageFile) (chip : FlashChip) : Prop where
  linked : ∃ place, f.handle = .linked place ∧ f.disk.find f.path = .ok (place, .file chip.image)
  capacity_eq : Flash.capacity f.sectorSize f.sectorCount = .ok chip.image.length
  sectorSize_eq : chip.sectorSize = f.sectorSize
  powered : chip.tear = none

theorem capacity_eq_ok {n : Nat} (h : Flash.capacity sectorSize sectorCount = .ok n) :
    0 < sectorSize ∧ 0 < sectorCount ∧ n = sectorSize * sectorCount := by
  rw [Flash.capacity] at h
  split at h
  · cases h
  · rename_i hzero
    split at h
    · cases h
    · cases h
      exact ⟨by omega, by omega, rfl⟩

/-- What is written inside a file takes the place of what was there. -/
theorem writeAt_eq {content data : Bytes} {offset : Nat}
    (h : offset + data.length ≤ content.length) :
    writeAt content offset data
      = content.take offset ++ data ++ content.drop (offset + data.length) := by
  cases data with
  | nil => simp [writeAt]
  | cons b rest =>
    rw [writeAt, if_neg (by simp), Nat.sub_eq_zero_of_le (by omega), List.replicate_zero,
      List.append_nil]

namespace Mirrors

variable (h : f.Mirrors chip)

include h

theorem capacity : f.capacity = chip.image.length :=
  (capacity_eq_ok h.capacity_eq).2.2.symm

theorem content : f.content = chip.image := by
  obtain ⟨place, hhandle, hfind⟩ := h.linked
  obtain ⟨-, hnode, -⟩ := Disk.find_eq_ok_iff.1 hfind
  simp only [FlashImageFile.content, hhandle, hnode]

/-- A file and a chip that get the same image still go together. -/
theorem setContent {image : Bytes} (hlen : image.length = chip.image.length) :
    (f.setContent image).Mirrors (chip.withImage image) := by
  obtain ⟨place, hhandle, hfind⟩ := h.linked
  have hset : f.setContent image = { f with disk := f.disk.set place (.file image) } := by
    simp only [FlashImageFile.setContent, hhandle]
  rw [hset]
  refine ⟨⟨place, hhandle, Disk.find_set_file hfind image⟩, ?_, h.sectorSize_eq, h.powered⟩
  rw [h.capacity_eq, ← hlen]
  rfl

theorem sectors : FlashMemory.sectorCount f = FlashMemory.sectorCount chip := by
  obtain ⟨hsize, -, hlen⟩ := capacity_eq_ok h.capacity_eq
  show Except.ok f.sectorCount = FlashChip.sectorCount chip
  rw [FlashChip.sectorCount, h.sectorSize_eq, if_neg (Nat.pos_iff_ne_zero.1 hsize), hlen,
    Nat.mul_div_cancel_left _ hsize]

theorem read (offset len : Nat) :
    FlashMemory.read f offset len = FlashMemory.read chip offset len := by
  show FlashImageFile.read f offset len = FlashChip.read chip offset len
  rw [FlashImageFile.read, FlashChip.read, h.capacity, h.content, Flash.ensureInside]
  by_cases hin : offset + len ≤ chip.image.length
  · simp [hin, Flash.length_readAt hin, bind, Except.bind, pure, Except.pure, Except.map]
  · simp [hin, bind, Except.bind, Except.map]

theorem program (offset : Nat) (data : Bytes) :
    Same Mirrors (FlashMemory.program offset data f) (FlashMemory.program offset data chip) := by
  have hread := h.read offset data.length
  show Same Mirrors (FlashImageFile.program offset data f) (FlashChip.program offset data chip)
  replace hread : f.read offset data.length = chip.read offset data.length := hread
  rw [FlashImageFile.program, FlashChip.program, hread, FlashChip.read]
  cases hin : Flash.ensureInside chip.image.length offset data.length with
  | error e => exact .error h
  | ok _ =>
    have hle : offset + data.length ≤ chip.image.length := by
      unfold Flash.ensureInside at hin
      split at hin
      · assumption
      · cases hin
    have hlen : (List.zipWith (· &&& ·) (Flash.readAt chip.image offset data.length)
        data).length = data.length := by
      rw [List.length_zipWith, Flash.length_readAt hle, Nat.min_self]
    have hwrite : writeAt chip.image offset (List.zipWith (· &&& ·)
        (Flash.readAt chip.image offset data.length) data)
        = Flash.programAt chip.image offset data := by
      rw [writeAt_eq (by omega), hlen]
      rfl
    have hkeep : ¬ (chip.tear.getD data.length < data.length) := by
      rw [h.powered, Option.getD_none]
      exact Nat.lt_irrefl _
    simp only [Except.map, if_neg hkeep, h.content, hwrite]
    rw [h.powered, Option.getD_none, List.take_length]
    have hchip : { chip with image := Flash.programAt chip.image offset data, tear := none }
        = chip.withImage (Flash.programAt chip.image offset data) := by
      rw [FlashChip.withImage, ← h.powered]
    rw [hchip]
    exact .ok (h.setContent Flash.length_programAt)

theorem eraseSector (sector : Nat) :
    Same Mirrors (FlashMemory.eraseSector sector f) (FlashMemory.eraseSector sector chip) := by
  show Same Mirrors (FlashImageFile.eraseSector sector f) (FlashChip.eraseSector sector chip)
  rw [FlashImageFile.eraseSector, FlashChip.eraseSector, h.capacity, h.sectorSize_eq]
  cases haddress : Flash.sectorAddress chip.image.length f.sectorSize sector with
  | error e => exact .error h
  | ok start =>
    have hle : start + f.sectorSize ≤ chip.image.length := by
      unfold Flash.sectorAddress Flash.ensureInside at haddress
      split at haddress
      · cases haddress
      · split at haddress
        · cases haddress
          assumption
        · cases haddress
    have hwrite : writeAt chip.image start (Bytes.erased f.sectorSize)
        = Flash.eraseAt chip.image start f.sectorSize := by
      rw [writeAt_eq (by rw [Flash.length_erased]; exact hle), Flash.length_erased]
      rfl
    simp only [h.content, hwrite]
    rw [← h.sectorSize_eq] at hle ⊢
    exact .ok (h.setContent (Flash.length_eraseAt hle))

end Mirrors

/-! ## Stretches -/

theorem Mirrors.eraseSectors (h : f.Mirrors chip) (first count : Nat) :
    Same Mirrors (FlashMemory.eraseSectors first count f)
      (FlashMemory.eraseSectors first count chip) := by
  induction count generalizing f chip first with
  | zero => exact .ok h
  | succ count ih => exact (h.eraseSector first).bind fun _ {_ _} hnext => ih hnext (first + 1)

theorem Mirrors.eraseStretch (h : f.Mirrors chip) (start len : Nat) :
    Same Mirrors (FlashMemory.eraseStretch start len f)
      (FlashMemory.eraseStretch start len chip) := by
  have hsize : FlashMemory.sectorSize f = FlashMemory.sectorSize chip := h.sectorSize_eq.symm
  rw [FlashMemory.eraseStretch_apply, FlashMemory.eraseStretch_apply, hsize]
  by_cases hlen : len = 0
  · rw [if_pos hlen, if_pos hlen]
    exact .ok h
  · rw [if_neg hlen, if_neg hlen]
    by_cases hzero : FlashMemory.sectorSize chip = 0
    · rw [if_pos hzero, if_pos hzero]
      exact .error h
    · rw [if_neg hzero, if_neg hzero]
      exact h.eraseSectors _ _

/-! ## Opening -/

variable {capacity : Nat} {found : Location × Node}

/-- Puts the bytes that a file lacks at its end. -/
def pad (place : Location) (content : Bytes) (capacity : Nat) : Update IoError Disk Unit :=
  fun d =>
    if content.length < capacity then
      match Flash.erasedBuffer (capacity - content.length) with
      | .error e => .error e d
      | .ok missing => Disk.run [.append place missing] d
    else .ok () d

theorem pad_of_le {place : Location} {content : Bytes} (h : capacity ≤ content.length) (d : Disk) :
    pad place content capacity d = .ok () d := if_neg (Nat.not_lt.2 h)

theorem pad_of_lt {place : Location} {content : Bytes} (h : content.length < capacity)
    (hbuffer : capacity - content.length ≤ Flash.maxBuffer) (d : Disk) :
    pad place content capacity d
      = Disk.run [.append place (Bytes.erased (capacity - content.length))] d := by
  simp only [pad, if_pos h, Flash.erasedBuffer_of_le hbuffer]

/-- When there are too many bytes for a buffer, nothing is done. -/
theorem pad_of_long {place : Location} {content : Bytes}
    (h : Flash.maxBuffer < capacity - content.length) (d : Disk) :
    pad place content capacity d = .error .bufferTooLong d := by
  have hshort : content.length < capacity := by omega
  simp only [pad, if_pos hshort, Flash.erasedBuffer_of_lt h]

/-- Opens the file that is at a path. -/
def adopt (path : Path) (sectorSize sectorCount capacity : Nat) :
    Update IoError Disk FlashImageFile := fun d =>
  match d.find path with
  | .error e => .error e d
  | .ok (_, .directory) => .error .isDirectory d
  | .ok (place, .file content) =>
    if capacity < content.length then .error (.imageTooLong path content.length capacity) d
    else match pad place content capacity d with
      | .error e d => .error e d
      | .ok () d => .ok { path, sectorSize, sectorCount, handle := .linked place, disk := d } d

/-- Adopting a file is what opening does once there is one. -/
theorem adopt_eq (path : Path) (sectorSize sectorCount capacity : Nat) :
    (do
      let (place, node) ← open.liftExcept ((← get).find path)
      match node with
      | .directory => throw .isDirectory
      | .file content =>
        if capacity < content.length then throw (.imageTooLong path content.length capacity)
        if content.length < capacity then
          Disk.run [.append place
            (← open.liftExcept (Flash.erasedBuffer (capacity - content.length)))]
        return { path, sectorSize, sectorCount, handle := .linked place, disk := ← get }) =
      adopt path sectorSize sectorCount capacity := by
  funext d
  rw [Update.get_bind, adopt]
  simp only [bind, EStateM.bind]
  cases d.find path with
  | error e => rfl
  | ok found =>
    obtain ⟨place, node⟩ := found
    cases node with
    | directory => rfl
    | file content =>
      simp only [open.liftExcept, pure, EStateM.pure, pad]
      by_cases hlong : capacity < content.length
      · rw [if_pos hlong, if_pos hlong]
        rfl
      · rw [if_neg hlong, if_neg hlong]
        by_cases hshort : content.length < capacity
        · rw [if_pos hshort, if_pos hshort]
          unfold EStateM.bind
          cases Flash.erasedBuffer (capacity - content.length) with
          | error e => rfl
          | ok missing =>
            simp only [EStateM.pure]
            cases Disk.run [.append place missing] d <;> rfl
        · rw [if_neg hshort, if_neg hshort]
          rfl

theorem open_eq (path : Path) (sectorSize sectorCount : Nat) (d : Disk) :
    «open» path sectorSize sectorCount d =
      match Flash.capacity sectorSize sectorCount with
      | .error e => .error e d
      | .ok capacity =>
        if d.exists path then adopt path sectorSize sectorCount capacity d
        else match create path capacity d with
          | .error e d => .error e d
          | .ok () d => adopt path sectorSize sectorCount capacity d := by
  have hopen : «open» path sectorSize sectorCount
      = open.liftExcept (Flash.capacity sectorSize sectorCount) >>= fun capacity =>
        get >>= fun d =>
          if !d.exists path then
            create path capacity >>= fun _ => adopt path sectorSize sectorCount capacity
          else adopt path sectorSize sectorCount capacity := by
    rw [«open»]
    refine congrArg _ (funext fun capacity => ?_)
    -- both branches of the code end in the same steps
    exact congrArg (fun next => get >>= fun d =>
      if !d.exists path then create path capacity >>= fun _ => next else next)
      (adopt_eq path sectorSize sectorCount capacity)
  rw [hopen]
  cases Flash.capacity sectorSize sectorCount with
  | error e => rfl
  | ok capacity =>
    have hlift : open.liftExcept (.ok capacity) d = .ok capacity d := rfl
    rw [Update.bind_ok hlift, Update.get_bind]
    by_cases hexists : d.exists path = true
    · simp only [hexists]
      rfl
    · simp only [hexists, Bool.not_false, if_true, Bool.false_eq_true, if_false]
      cases hcreate : create path capacity d with
      | error e d' => rw [Update.bind_error hcreate]
      | ok _ d' => rw [Update.bind_ok hcreate]

theorem exists_of_find (h : d.find path = .ok found) : d.exists path = true := by
  rw [Disk.exists, h]
  rfl

theorem open_of_find (hcapacity : Flash.capacity sectorSize sectorCount = .ok capacity)
    (hfind : d.find path = .ok found) :
    «open» path sectorSize sectorCount d = adopt path sectorSize sectorCount capacity d := by
  rw [open_eq]
  simp only [hcapacity, exists_of_find hfind, if_true]

theorem open_of_missing (hcapacity : Flash.capacity sectorSize sectorCount = .ok capacity)
    (hmissing : d.exists path = false) :
    «open» path sectorSize sectorCount d = match create path capacity d with
      | .error e d => .error e d
      | .ok () d => adopt path sectorSize sectorCount capacity d := by
  rw [open_eq]
  simp only [hcapacity, hmissing, Bool.false_eq_true, if_false]

/-- A device that is opened anew goes on as it was. -/
theorem Mirrors.open_eq (h : f.Mirrors chip) :
    «open» f.path f.sectorSize f.sectorCount f.disk = .ok f f.disk := by
  obtain ⟨place, hhandle, hfind⟩ := h.linked
  have hopened : f = { f with handle := .linked place } := by rw [← hhandle]
  rw [open_of_find h.capacity_eq hfind]
  simp only [adopt, hfind, Nat.lt_irrefl, if_false, pad_of_le (Nat.le_refl _)]
  rw [← hopened]

/-- A file that lacks bytes gets erased ones. -/
theorem find_of_pad {place : Location} {content : Bytes} {capacity : Nat}
    (hfind : d.find path = .ok (place, .file content)) (hle : content.length ≤ capacity)
    (hrun : pad place content capacity d = .ok () d') :
    ∃ image, image.length = capacity ∧ d'.find path = .ok (place, .file image) := by
  rw [pad] at hrun
  split at hrun
  · rename_i hshort
    split at hrun
    · cases hrun
    · rename_i missing hmissing
      obtain ⟨rfl, -⟩ := Flash.eq_of_erasedBuffer hmissing
      obtain ⟨d₁, happend, hrest⟩ := Disk.run_cons_ok hrun
      cases hrest
      obtain ⟨held, hnode, rfl⟩ := Disk.append_eq_ok happend
      -- the file that grows is the one that was found
      cases hnode.symm.trans (Disk.find_eq_ok_iff.1 hfind).2.1
      refine ⟨_, ?_, Disk.find_set_file hfind _⟩
      rw [List.length_append, Flash.length_erased]
      omega
  · cases hrun
    exact ⟨content, by omega, hfind⟩

theorem mirrors_of_adopt {capacity : Nat}
    (hcapacity : Flash.capacity sectorSize sectorCount = .ok capacity)
    (h : adopt path sectorSize sectorCount capacity d = .ok f d') :
    ∃ chip, f.Mirrors chip := by
  unfold adopt at h
  split at h
  · cases h
  · cases h
  · rename_i place content hfind
    split at h
    · cases h
    · rename_i hlong
      split at h
      · cases h
      · rename_i hrun
        cases h
        obtain ⟨image, rfl, hfound⟩ := find_of_pad hfind (Nat.not_lt.1 hlong) hrun
        exact ⟨.ofImage image sectorSize, ⟨place, rfl, hfound⟩, hcapacity, rfl, rfl⟩

/-- **An opened device does what a chip does.** -/
theorem mirrors_of_open (h : «open» path sectorSize sectorCount d = .ok f d') :
    ∃ chip, f.Mirrors chip := by
  rw [open_eq] at h
  split at h
  · cases h
  · rename_i capacity hcapacity
    split at h
    · exact mirrors_of_adopt hcapacity h
    · split at h
      · cases h
      · exact mirrors_of_adopt hcapacity h

/-- A device has the path and the geometry that it is opened with, and the disk that is left. -/
theorem eq_of_adopt {capacity : Nat}
    (h : adopt path sectorSize sectorCount capacity d = .ok f d') :
    ∃ place, f = ⟨path, sectorSize, sectorCount, .linked place, d'⟩ := by
  rw [adopt] at h
  split at h
  · cases h
  · cases h
  · split at h
    · cases h
    · split at h
      · cases h
      · cases h
        exact ⟨_, rfl⟩

theorem eq_of_open (h : «open» path sectorSize sectorCount d = .ok f d') :
    ∃ place, f = ⟨path, sectorSize, sectorCount, .linked place, d'⟩ := by
  rw [open_eq] at h
  split at h
  · cases h
  · split at h
    · exact eq_of_adopt h
    · split at h
      · cases h
      · exact eq_of_adopt h

/-- The content of a device that was opened is that of the file at its path. -/
theorem content_of_open {place : Location} {content : Bytes}
    (h : «open» path sectorSize sectorCount d = .ok f d')
    (hfind : d'.find path = .ok (place, .file content)) : f.content = content := by
  obtain ⟨chip, hmirrors⟩ := mirrors_of_open h
  obtain ⟨linked, rfl⟩ := eq_of_open h
  obtain ⟨place', -, hlinked⟩ := hmirrors.linked
  cases hfind.symm.trans hlinked
  exact hmirrors.content

/-- Opening what was opened changes nothing. -/
theorem open_again (h : «open» path sectorSize sectorCount d = .ok f d') :
    «open» path sectorSize sectorCount d' = .ok f d' := by
  obtain ⟨chip, hmirrors⟩ := mirrors_of_open h
  obtain ⟨place, rfl⟩ := eq_of_open h
  exact hmirrors.open_eq

/-- A device with an erased image mirrors an erased chip. -/
theorem Mirrors.eq_ofImage (h : f.Mirrors chip) (herased : f.content = Bytes.erased f.capacity) :
    chip = .ofImage (Bytes.erased f.capacity) f.sectorSize := by
  rw [← herased, h.content, ← h.sectorSize_eq, FlashChip.ofImage, ← h.powered]

end UpdateVault.FlashImageFile
