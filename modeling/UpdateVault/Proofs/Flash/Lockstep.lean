import UpdateVault.Proofs.Flash.ImageFile

/-!
# A file and a chip in lockstep

Whatever is asked of a flash device in a file, a chip with the same image answers the same, and
both have the same image afterwards, also after a request that failed half way. This is so for one
request (`Mirrors.respond`), hence for any number of them with the file closed and opened anew in
between (`Mirrors.transcript_eq`). `transcript_eq_chip` starts from a file that is there and from
one that opening makes.
-/

namespace UpdateVault

/-- What is asked of a flash device. -/
inductive FlashRequest
  | read (offset len : Nat)
  | program (offset : Nat) (data : Bytes)
  | eraseSector (sector : Nat)
  | eraseStretch (start len : Nat)
  /-- The device is closed and opened anew. -/
  | reopen
  deriving DecidableEq, Repr

/-- What someone sees of a device who does not hold it: how it is opened anew, and its image. -/
structure FlashView (φ : Type) where
  reopen : Update IoError φ Unit
  image? : φ → Option Bytes

namespace FlashRequest

variable {φ : Type} [FlashMemory φ]

/-- A request as a step of a device: the bytes that were read, or none for a change. -/
def respond (view : FlashView φ) : FlashRequest → Update IoError φ Bytes
  | read offset len => fun device =>
    match FlashMemory.read device offset len with
    | .ok bytes => .ok bytes device
    | .error e => .error e device
  | program offset data => FlashMemory.program offset data >>= fun _ => pure []
  | eraseSector sector => FlashMemory.eraseSector sector >>= fun _ => pure []
  | eraseStretch start len => FlashMemory.eraseStretch start len >>= fun _ => pure []
  | reopen => view.reopen >>= fun _ => pure []

/-- The answers to requests, one after the other, each with the image that is left. -/
def transcript (view : FlashView φ) (device : φ) :
    List FlashRequest → List (Except IoError Bytes × Option Bytes)
  | [] => []
  | request :: rest =>
    match request.respond view device with
    | .ok bytes next => (.ok bytes, view.image? next) :: transcript view next rest
    | .error e next => (.error e, view.image? next) :: transcript view next rest

end FlashRequest

/-- A chip stays as it is when it is opened anew. -/
def FlashChip.view : FlashView FlashChip where
  reopen := pure ()
  image? chip := some chip.image

/-- A device in a file is opened anew at its path, and its image is what is in the file there. -/
def FlashImageFile.view : FlashView FlashImageFile where
  reopen f := match FlashImageFile.open f.path f.sectorSize f.sectorCount f.disk with
    | .ok f' _ => .ok () f'
    | .error e d => .error e { f with disk := d }
  image? f := (f.disk.readFile f.path).toOption

namespace FlashImageFile

open Update (Same)
open FlashRequest (transcript)

variable {f f' : FlashImageFile} {chip : FlashChip} {path : Path} {d d' : Disk}
  {sectorSize sectorCount n : Nat} {content : Bytes} {place target temporary : Location}

/-! ## Requests -/

namespace Mirrors

variable (h : f.Mirrors chip)

include h

/-- The file has the image of the chip. -/
theorem image?_eq : view.image? f = FlashChip.view.image? chip := by
  obtain ⟨place, -, hfind⟩ := h.linked
  show (f.disk.readFile f.path).toOption = some chip.image
  rw [Disk.readFile, hfind]
  rfl

theorem reopen : Same Mirrors (view.reopen f) (FlashChip.view.reopen chip) := by
  have hopen := h.open_eq
  simp only [view, hopen]
  exact .ok h

/-- **A file and a chip give the same answer to a request**, and go on together. -/
theorem respond (request : FlashRequest) :
    Same Mirrors (request.respond view f) (request.respond FlashChip.view chip) := by
  -- a change answers with no bytes once it is made
  have hdone : ∀ {f : FlashImageFile} {chip : FlashChip}, f.Mirrors chip →
      Same Mirrors ((pure [] : Update IoError FlashImageFile Bytes) f)
        ((pure [] : Update IoError FlashChip Bytes) chip) := fun h => .ok h
  cases request with
  | read offset len =>
    have hread := h.read offset len
    simp only [FlashRequest.respond, hread]
    cases FlashMemory.read chip offset len with
    | ok bytes => exact .ok h
    | error e => exact .error h
  | program offset data => exact (h.program offset data).bind fun _ {_ _} hnext => hdone hnext
  | eraseSector sector => exact (h.eraseSector sector).bind fun _ {_ _} hnext => hdone hnext
  | eraseStretch start len => exact (h.eraseStretch start len).bind fun _ {_ _} hnext => hdone hnext
  | reopen => exact h.reopen.bind fun _ {_ _} hnext => hdone hnext

end Mirrors

/-- **A file and a chip give the same answers to all requests**, and have the same image after each
of them. -/
theorem Mirrors.transcript_eq (h : f.Mirrors chip) (requests : List FlashRequest) :
    transcript view f requests = transcript FlashChip.view chip requests := by
  induction requests generalizing f chip with
  | nil => rfl
  | cons request rest ih =>
    have hsame := h.respond request
    simp only [transcript]
    generalize request.respond view f = left at hsame ⊢
    generalize request.respond FlashChip.view chip = right at hsame ⊢
    cases hsame with
    | ok hnext => simp only [hnext.image?_eq, ih hnext]
    | error hnext => simp only [hnext.image?_eq, ih hnext]

/-! ## Opening -/

/-- A file of the right length is taken as it is. -/
theorem adopt_of_length (hcapacity : Flash.capacity sectorSize sectorCount = .ok content.length)
    (hfind : d.find path = .ok (place, .file content)) :
    ∃ f, adopt path sectorSize sectorCount content.length d = .ok f d ∧
      f.Mirrors (.ofImage content sectorSize) := by
  refine ⟨⟨path, sectorSize, sectorCount, .linked place, d⟩, ?_, ⟨place, rfl, hfind⟩, hcapacity,
    rfl, rfl⟩
  simp only [adopt, hfind, Nat.lt_irrefl, if_false, pad_of_le (Nat.le_refl _)]

theorem open_of_length (hcapacity : Flash.capacity sectorSize sectorCount = .ok content.length)
    (hfind : d.find path = .ok (place, .file content)) :
    ∃ f, «open» path sectorSize sectorCount d = .ok f d ∧
      f.Mirrors (.ofImage content sectorSize) := by
  rw [open_of_find hcapacity hfind]
  exact adopt_of_length hcapacity hfind

/-- Where a file may be made, there is none if the path leads to none. -/
theorem node?_of_missing (hmissing : d.exists path = false)
    (htarget : d.fileSlot path = .ok target) : d.node? target = none := by
  cases hnode : d.node? target with
  | none => rfl
  | some node =>
    have hfind := Disk.find_of_fileSlot htarget (.refl d) hnode
    rw [Disk.exists, hfind] at hmissing
    cases hmissing

/-- The places of an image and of the temporary file beside it. -/
def imagePlaces (path : Path) (d : Disk) : List Location :=
  (d.fileSlot path).toOption.toList ++ (d.fileSlot (path.extend ".tmp")).toOption.toList

theorem mem_imagePlaces : place ∈ imagePlaces path d ↔
    d.fileSlot path = .ok place ∨ d.fileSlot (path.extend ".tmp") = .ok place := by
  rw [imagePlaces, List.mem_append]
  refine or_congr ?_ ?_
  · cases d.fileSlot path <;> simp [Except.toOption, eq_comm]
  · cases d.fileSlot (path.extend ".tmp") <;> simp [Except.toOption, eq_comm]

section

variable (htarget : d.fileSlot path = .ok target)
  (htemporary : d.fileSlot (path.extend ".tmp") = .ok temporary)

include htemporary

/-- An image that is too long for a buffer is not made, but its temporary file is. -/
theorem create_of_lt (hbuffer : Flash.maxBuffer < n) :
    create path n d = (Disk.run [.create temporary] >>= fun _ => throw .bufferTooLong) d := by
  simp only [create, htemporary, Flash.erasedBuffer_of_lt hbuffer]

include htarget

theorem create_of_le (hbuffer : n ≤ Flash.maxBuffer) :
    create path n d = Disk.replace temporary target (Bytes.erased n) d := by
  simp only [create, htemporary, htarget, Flash.erasedBuffer_of_le hbuffer]

/-- A missing file is made if there may be one at the path and no directory has the name of the
temporary file beside it. -/
theorem exists_create (hmissing : d.exists path = false)
    (hfree : d.node? temporary ≠ some .directory) (hbuffer : n ≤ Flash.maxBuffer) :
    ∃ d', create path n d = .ok () d' := by
  have hfile : d.node? target ≠ some .directory := by
    rw [node?_of_missing hmissing htarget]
    nofun
  obtain ⟨d', hreplace⟩ := Disk.exists_replace (Bytes.erased n)
    (Disk.nameable_of_fileSlot htemporary) (Disk.nameable_of_fileSlot htarget) hfree hfile
  exact ⟨d', (create_of_le htarget htemporary hbuffer).trans hreplace⟩

end

/-- A file is made by way of the temporary file beside it. -/
theorem create_eq_ok (h : create path n d = .ok () d') : n ≤ Flash.maxBuffer ∧
    ∃ temporary target, d.fileSlot (path.extend ".tmp") = .ok temporary ∧
      Disk.ChangesFiles [temporary, target] d d' ∧
      d'.find path = .ok (target, .file (Bytes.erased n)) := by
  cases htemporary : d.fileSlot (path.extend ".tmp") with
  | error e =>
    simp only [create, htemporary] at h
    cases h
  | ok temporary =>
    rcases Nat.lt_or_ge Flash.maxBuffer n with hbuffer | hbuffer
    · rw [create_of_lt htemporary hbuffer] at h
      obtain ⟨-, d₁, -, hthrow⟩ := Update.bind_eq_ok_iff.1 h
      cases hthrow
    · cases htarget : d.fileSlot path with
      | error e =>
        simp only [create, htemporary, htarget, Flash.erasedBuffer_of_le hbuffer] at h
        cases h
      | ok target =>
        rw [create_of_le htarget htemporary hbuffer] at h
        have hchanges : Disk.ChangesFiles [temporary, target] d d' :=
          Update.after_of_ok h ▸ Disk.replace_changesFiles
        have hfind := Disk.find_of_fileSlot htarget hchanges.keeps (Disk.node?_of_replace h)
        exact ⟨hbuffer, temporary, target, rfl, hchanges, hfind⟩

/-- A device that is opened where there was no file is erased. -/
theorem open_of_create (hcapacity : Flash.capacity sectorSize sectorCount = .ok n)
    (hmissing : d.exists path = false) (hcreate : create path n d = .ok () d') :
    ∃ f, «open» path sectorSize sectorCount d = .ok f d' ∧
      f.Mirrors (.ofImage (Bytes.erased n) sectorSize) := by
  obtain ⟨-, _, target, -, -, hfind⟩ := create_eq_ok hcreate
  rw [open_of_missing hcapacity hmissing, hcreate]
  have hlength : (Bytes.erased n).length = n := Flash.length_erased n
  rw [← hlength] at hcapacity
  have hadopt := adopt_of_length hcapacity hfind
  rwa [hlength] at hadopt

theorem create_of_open (hmissing : d.exists path = false)
    (h : «open» path sectorSize sectorCount d = .ok f d') :
    ∃ n d₁, Flash.capacity sectorSize sectorCount = .ok n ∧ create path n d = .ok () d₁ := by
  rw [open_eq] at h
  split at h
  · cases h
  · rename_i n hcapacity
    simp only [hmissing, Bool.false_eq_true, if_false] at h
    split at h
    · cases h
    · rename_i d₁ hcreate
      exact ⟨n, d₁, hcapacity, hcreate⟩

/-- The bytes that a file lacks go to the file itself. -/
theorem pad_changesFiles :
    Disk.ChangesFiles [place] d ((pad place content n).after d) := by
  rcases Nat.lt_or_ge content.length n with hshort | hlong
  · rcases Nat.lt_or_ge Flash.maxBuffer (n - content.length) with hbuffer | hbuffer
    · rw [Update.after_of_error (pad_of_long hbuffer d)]
      exact .refl _ d
    · have happend : Disk.ChangesFiles [place] d
          ((Disk.run [.append place (Bytes.erased (n - content.length))]).after d) :=
        Disk.run_changesFiles fun c hc => by
          rw [List.mem_singleton.1 hc]
          exact List.Subset.refl _
      rwa [Update.after, pad_of_lt hshort hbuffer]
  · rw [Update.after_of_ok (pad_of_le hlong d)]
    exact .refl _ d

theorem keeps_adopt : Disk.Keeps d ((adopt path sectorSize sectorCount n).after d) := by
  rw [Update.after, adopt]
  cases d.find path with
  | error e => exact .refl d
  | ok found =>
    obtain ⟨place, _ | content⟩ := found
    · exact .refl d
    · have hkeeps : Disk.Keeps d ((pad place content n).after d) :=
        pad_changesFiles.keeps
      by_cases hlong : n < content.length
      · simp only [if_pos hlong]
        exact .refl d
      · simp only [if_neg hlong]
        cases hrun : pad place content n d with
        | error e d' => exact Update.after_of_error hrun ▸ hkeeps
        | ok _ d' => exact Update.after_of_ok hrun ▸ hkeeps

/-- Making a file touches it and the temporary file beside it only. -/
theorem create_changesImage :
    Disk.ChangesFiles (imagePlaces path d) d ((create path n).after d) := by
  have hnothing : Disk.ChangesFiles (imagePlaces path d) d d := .refl _ d
  rw [Update.after, create]
  cases htemporary : d.fileSlot (path.extend ".tmp") with
  | error e => exact hnothing
  | ok temporary =>
    have hsecond : temporary ∈ imagePlaces path d := mem_imagePlaces.2 (.inr htemporary)
    cases Flash.erasedBuffer n with
    | error e =>
      have hmade : Disk.ChangesFiles (imagePlaces path d) d
          ((Disk.run [.create temporary]).after d) := Disk.run_changesFiles fun c hc => by
        rw [List.mem_singleton.1 hc]
        exact List.cons_subset.2 ⟨hsecond, List.nil_subset _⟩
      exact Update.after_bind hmade fun _ _ h => h
    | ok image =>
      cases htarget : d.fileSlot path with
      | error e => exact hnothing
      | ok target =>
        have hfirst : target ∈ imagePlaces path d := mem_imagePlaces.2 (.inl htarget)
        exact Disk.replace_changesFiles.mono (List.cons_subset.2 ⟨hsecond, by simpa using hfirst⟩)

/-- Whatever becomes of opening an image, all directories stay. -/
theorem keeps_open : Disk.Keeps d ((«open» path sectorSize sectorCount).after d) := by
  rw [Update.after, open_eq]
  cases Flash.capacity sectorSize sectorCount with
  | error e => exact .refl d
  | ok n =>
    by_cases hexists : d.exists path = true
    · simp only [hexists]
      exact keeps_adopt
    · simp only [hexists]
      have hkeeps : Disk.Keeps d ((create path n).after d) := create_changesImage.keeps
      cases hcreate : create path n d with
      | error e d' => exact Update.after_of_error hcreate ▸ hkeeps
      | ok _ d' => exact (Update.after_of_ok hcreate ▸ hkeeps).trans keeps_adopt

theorem keeps_of_open (h : «open» path sectorSize sectorCount d = .ok f d') : Disk.Keeps d d' :=
  Update.after_of_ok h ▸ keeps_open

/-! ## Any number of requests -/

/-- The image of a file and that of a chip are the same, and stay so with the same answers, whatever
is asked of them. -/
def InLockstep (f : FlashImageFile) (chip : FlashChip) : Prop :=
  view.image? f = some chip.image ∧
    ∀ requests, transcript view f requests = transcript FlashChip.view chip requests

theorem Mirrors.inLockstep (h : f.Mirrors chip) : f.InLockstep chip :=
  ⟨h.image?_eq, h.transcript_eq⟩

/-- **A flash device in a file does what a chip does**, request by request and for as long as
nothing else changes the file: one whose file was there with the length of the device, and one that
was made by opening it, which goes through wherever a file can be made. -/
theorem transcript_eq_chip (path : Path) (sectorSize sectorCount : Nat) (d : Disk) :
    (∀ place content, d.find path = .ok (place, .file content) →
      Flash.capacity sectorSize sectorCount = .ok content.length →
      ∃ f, «open» path sectorSize sectorCount d = .ok f d ∧
        f.InLockstep (.ofImage content sectorSize)) ∧
    (d.exists path = false →
      (∀ f d', «open» path sectorSize sectorCount d = .ok f d' →
        ∃ chip, FlashChip.new sectorSize sectorCount = .ok chip ∧ f.InLockstep chip) ∧
      ∀ target temporary, d.fileSlot path = .ok target →
        d.fileSlot (path.extend ".tmp") = .ok temporary → d.node? temporary ≠ some .directory →
        (∀ chip, FlashChip.new sectorSize sectorCount = .ok chip →
          ∃ f d', «open» path sectorSize sectorCount d = .ok f d') ∧
        ∀ e, FlashChip.new sectorSize sectorCount = .error e →
          ∃ d', «open» path sectorSize sectorCount d = .error e d') := by
  refine ⟨?found, fun hmissing => ⟨?made, fun target temporary htarget htemporary hfree =>
    ⟨fun chip hnew => ?makes, fun e hnew => ?refuses⟩⟩⟩
  case found =>
    intro place content hfind hcapacity
    obtain ⟨f, hopen, hmirrors⟩ := open_of_length hcapacity hfind
    exact ⟨f, hopen, hmirrors.inLockstep⟩
  case made =>
    intro f d' hopen
    obtain ⟨n, d₁, hcapacity, hcreate⟩ := create_of_open hmissing hopen
    obtain ⟨f', hopen', hmirrors⟩ := open_of_create hcapacity hmissing hcreate
    rw [hopen] at hopen'
    cases hopen'
    have hnew := FlashChip.new_of_le hcapacity (create_eq_ok hcreate).1
    exact ⟨_, hnew, hmirrors.inLockstep⟩
  case makes =>
    obtain ⟨n, hcapacity, hbuffer⟩ := FlashChip.capacity_of_new hnew
    obtain ⟨d₁, hcreate⟩ := exists_create htarget htemporary hmissing hfree hbuffer
    obtain ⟨f, hopen, -⟩ := open_of_create hcapacity hmissing hcreate
    exact ⟨f, d₁, hopen⟩
  case refuses =>
    rcases FlashChip.new_eq_error hnew with hcapacity | ⟨n, hcapacity, hbuffer, rfl⟩
    · exact ⟨d, by rw [open_eq, hcapacity]⟩
    · have hname := Disk.nameable_of_fileSlot htemporary
      have hcreate := create_of_lt (n := n) htemporary hbuffer
      rw [Update.bind_ok (Disk.run_cons (Disk.create_eq hname hfree))] at hcreate
      replace hcreate : create path n d = .error .bufferTooLong _ := hcreate
      exact ⟨_, by rw [open_of_missing hcapacity hmissing, hcreate]⟩

theorem transcript_eq_chip_two_sectors :
    (∃ f, «open» ⟨"/f"⟩ 2 2 ⟨.ofList [(["f"], .file [1, 2, 3, 4])], []⟩
        = .ok f ⟨.ofList [(["f"], .file [1, 2, 3, 4])], []⟩ ∧
      f.InLockstep (.ofImage [1, 2, 3, 4] 2)) ∧
    ∃ f d' chip, «open» ⟨"/f"⟩ 2 2 ⟨.empty, []⟩ = .ok f d' ∧ FlashChip.new 2 2 = .ok chip ∧
      f.InLockstep chip := by
  refine ⟨?_, ?_⟩
  · obtain ⟨hfound, -⟩ := transcript_eq_chip ⟨"/f"⟩ 2 2 ⟨.ofList [(["f"], .file [1, 2, 3, 4])], []⟩
    exact hfound ["f"] [1, 2, 3, 4] rfl rfl
  · obtain ⟨-, hmissing⟩ := transcript_eq_chip ⟨"/f"⟩ 2 2 ⟨.empty, []⟩
    obtain ⟨hmade, hmakes⟩ := hmissing rfl
    obtain ⟨f, d', hopen⟩ := (hmakes ["f"] ["f.tmp"] rfl rfl nofun).1 _ rfl
    obtain ⟨chip, hnew, hlockstep⟩ := hmade f d' hopen
    exact ⟨f, d', chip, hopen, hnew, hlockstep⟩

end FlashImageFile

end UpdateVault
