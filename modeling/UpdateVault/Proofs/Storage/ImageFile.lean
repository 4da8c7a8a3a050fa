import UpdateVault.Proofs.Flash.ImageFile
import UpdateVault.Proofs.Storage.Partition

/-!
# A partition in a file keeps its items

`keptItemsInFile`: a partition on a device in a file does what the one on a chip does, so it keeps
its items, also when the file is opened anew (`valid_of_open`). `intact_of_open` and
`items_of_erasedFile`: an erased file mounts to a partition without items.
-/

namespace UpdateVault.Partition

open Update (Same)

variable {f : FlashImageFile} {chip : FlashChip} {p : Partition FlashImageFile}
  {q q' : Partition FlashChip}

/-- A partition with its device in a file. -/
def onto (q : Partition FlashChip) (f : FlashImageFile) : Partition FlashImageFile :=
  { device := f, bankLength := q.bankLength, items := q.items, active := q.active
    sequence := q.sequence }

/-- A partition on a device that does what the chip of the other one does. -/
inductive Mirrors : Partition FlashImageFile → Partition FlashChip → Prop
  | onto {f : FlashImageFile} {q : Partition FlashChip} : f.Mirrors q.device → Mirrors (q.onto f) q

theorem Mirrors.stored?_eq (h : p.Mirrors q) : p.stored? = q.stored? := by
  cases h
  rfl

/-- A partition in a file mounted anew, once the file is opened anew. -/
def reopenFile (p : Partition FlashImageFile) : Except StorageError (Partition FlashImageFile) :=
  match FlashImageFile.open p.device.path p.device.sectorSize p.device.sectorCount
      p.device.disk with
  | .ok f _ => mount f
  | .error e _ => .error (.io e)

/-! ## Mounting -/

/-- A device in a file mounts as the chip does. -/
theorem mount_onto (h : f.Mirrors chip) : mount f = (mount chip).map (·.onto f) :=
  mount_of_readsAs
    ⟨h.sectorSize_eq.symm, h.sectors, fun hin => (h.read _ _).trans (chip.read_eq hin)⟩

theorem mirrors_of_mount (h : f.Mirrors chip) (hmount : mount f = .ok p) :
    ∃ q, mount chip = .ok q ∧ p.Mirrors q := by
  rw [mount_onto h] at hmount
  cases hchip : mount chip with
  | error e =>
    rw [hchip] at hmount
    cases hmount
  | ok q =>
    rw [hchip] at hmount
    cases hmount
    exact ⟨q, rfl, .onto (device_of_mount hchip ▸ h)⟩

theorem Mirrors.device (h : p.Mirrors q) : p.device.Mirrors q.device := by
  cases h with
  | onto hdevice => exact hdevice

/-- What is mounted on the chip is mounted on the device. -/
theorem Mirrors.mount_eq (h : p.Mirrors q) (hmount : mount q.device = .ok q) :
    mount p.device = .ok p := by
  rw [mount_onto h.device, hmount]
  cases h
  rfl

/-! ## Changes -/

theorem writeBank_same (h : f.Mirrors chip) (len : Nat) (bank : Bank) (image : Bytes) :
    Same FlashImageFile.Mirrors (writeBank len bank image f) (writeBank len bank image chip) :=
  (h.eraseStretch _ _).bind fun _ {_ _} hnext => hnext.program _ _

theorem commit_same (h : f.Mirrors q.device) (table : ItemTable) :
    Same Mirrors (commit table (q.onto f)) (commit table q) := by
  have hbank : Same FlashImageFile.Mirrors
      (writeBank (q.onto f).bankLength (q.onto f).target
        (Bank.image ((q.onto f).sequence + 1) table.encode) (q.onto f).device)
      (writeBank q.bankLength q.target (Bank.image (q.sequence + 1) table.encode) q.device) :=
    writeBank_same h ..
  unfold commit
  by_cases hfull : q.maxPayload < table.encode.length
  · rw [if_pos hfull, if_pos (show (q.onto f).maxPayload < _ from hfull)]
    exact .error (.onto h)
  · rw [if_neg hfull, if_neg (show ¬ (q.onto f).maxPayload < _ from hfull)]
    dsimp only
    generalize writeBank (q.onto f).bankLength (q.onto f).target
      (Bank.image ((q.onto f).sequence + 1) table.encode) (q.onto f).device = left at hbank ⊢
    generalize writeBank q.bankLength q.target (Bank.image (q.sequence + 1) table.encode) q.device
      = right at hbank ⊢
    cases hbank with
    | @ok _ f' chip' h' =>
      let after : Partition FlashChip :=
        { q with device := chip', items := table, active := some q.target
                 sequence := q.sequence + 1 }
      exact .ok (Mirrors.onto (q := after) h')
    | @error e f' chip' h' => exact .error (Mirrors.onto (q := { q with device := chip' }) h')

theorem write_same (h : p.Mirrors q) (name : String) (data : Bytes) :
    Same Mirrors (write name data p) (write name data q) := by
  cases h with
  | @onto f q hdevice =>
    unfold write
    cases idOf name with
    | error e => exact .error (.onto hdevice)
    | ok id =>
      show Same Mirrors
        (if q.items.get? id = some data then .ok () (q.onto f)
        else commit (q.items.insert id data) (q.onto f)) _
      by_cases hsame : q.items.get? id = some data
      · simp only [hsame, if_true]
        exact .ok (.onto hdevice)
      · simp only [hsame, if_false]
        exact commit_same hdevice _

theorem delete_same (h : p.Mirrors q) (name : String) :
    Same Mirrors (delete name p) (delete name q) := by
  cases h with
  | @onto f q hdevice =>
    unfold delete
    cases idOf name with
    | error e => exact .error (.onto hdevice)
    | ok id =>
      show Same Mirrors
        (if q.items.contains id then commit (q.items.erase id) (q.onto f)
        else .error (.notFound name) (q.onto f)) _
      by_cases hpresent : q.items.contains id = true
      · simp only [hpresent, if_true]
        exact commit_same hdevice _
      · simp only [hpresent]
        exact .error (.onto hdevice)

theorem reopenFile_eq (h : p.Mirrors q) (hmount : remount q = .ok q') :
    ∃ p', reopenFile p = .ok p' ∧ p'.Mirrors q' := by
  cases h with
  | @onto f q hdevice =>
    have hdevice' : f.Mirrors q'.device := device_of_mount hmount ▸ hdevice
    refine ⟨q'.onto f, ?_, .onto hdevice'⟩
    have hopen : FlashImageFile.open f.path f.sectorSize f.sectorCount f.disk = .ok f f.disk :=
      hdevice.open_eq
    show (match FlashImageFile.open f.path f.sectorSize f.sectorCount f.disk with
      | .ok f _ => mount f
      | .error e _ => .error (.io e)) = _
    rw [hopen]
    have hmount' : mount q.device = .ok q' := hmount
    show mount f = _
    rw [mount_onto hdevice, hmount']
    rfl

/-- **A partition in a file keeps its items** as long as nothing else changes the file. -/
def keptItemsInFile : KeptItems (Partition FlashImageFile) reopenFile :=
  keptItems.along (fun p => p.stored?) (R := Mirrors)
    (fun h => h.stored?_eq) (fun _ h => by cases h; rfl)
    (fun name data h => write_same h name data) (fun name h => delete_same h name)
    reopenFile_eq

variable {path : Path} {sectorSize sectorCount : Nat} {d d' : Disk}

/-- What is mounted on a device in a file is what is mounted on a chip of its geometry, which is
intact as long as banks are not too long. -/
theorem mirrors_of_openFile (hopen : FlashImageFile.open path sectorSize sectorCount d = .ok f d')
    (hmount : mount f = .ok p) (hsmall : sectorSize * sectorCount < 2 ^ 32) :
    ∃ p', p.Mirrors p' ∧ p'.Intact ∧
      p'.bankLength = sectorSize * sectorCount / sectorSize / 2 * sectorSize := by
  obtain ⟨chip, hchip⟩ := FlashImageFile.mirrors_of_open hopen
  obtain ⟨place, rfl⟩ := FlashImageFile.eq_of_open hopen
  obtain ⟨p', hp', hmirrors⟩ := mirrors_of_mount hchip hmount
  have hbanks := hasBanks_of_mount hp'
  have himage : chip.image.length = sectorSize * sectorCount :=
    (FlashImageFile.capacity_eq_ok hchip.capacity_eq).2.2
  refine ⟨p', hmirrors, intact_of_mount hp' ?_ hchip.powered, ?_⟩
  · have := hbanks.le_length
    rw [maxPayload]
    omega
  · rw [hbanks.length_eq, himage, hchip.sectorSize_eq]

theorem bankLength_of_openFile
    (hopen : FlashImageFile.open path sectorSize sectorCount d = .ok f d')
    (hmount : mount f = .ok p) (hpos : 0 < sectorSize)
    (hsmall : sectorSize * sectorCount < 2 ^ 32) : p.bankLength = sectorCount / 2 * sectorSize := by
  obtain ⟨q, hmirrors, -, hlength⟩ := mirrors_of_openFile hopen hmount hsmall
  rw [Nat.mul_div_cancel_left _ hpos] at hlength
  cases hmirrors
  exact hlength

/-- A partition in an erased file has no items. -/
theorem items_of_erasedFile (hopen : FlashImageFile.open path sectorSize sectorCount d = .ok f d')
    (herased : f.content = Bytes.erased f.capacity) (hmount : mount f = .ok p) :
    p.items = .empty := by
  obtain ⟨chip, hchip⟩ := FlashImageFile.mirrors_of_open hopen
  obtain ⟨q, hq, hmirrors⟩ := mirrors_of_mount hchip hmount
  obtain rfl := hchip.eq_ofImage herased
  have hitems := items_of_erased hq
  cases hmirrors
  exact hitems

/-- Whatever is in a file that mounts, the partition in it keeps its items. -/
theorem valid_of_open (hopen : FlashImageFile.open path sectorSize sectorCount d = .ok f d')
    (hmount : mount f = .ok p) (hsmall : p.maxPayload < 2 ^ 32) : keptItemsInFile.Valid p := by
  obtain ⟨chip, hchip⟩ := FlashImageFile.mirrors_of_open hopen
  obtain ⟨q, hq, hmirrors⟩ := mirrors_of_mount hchip hmount
  refine ⟨q, intact_of_mount hq ?_ hchip.powered, hmirrors⟩
  cases hmirrors
  exact hsmall

/-- An erased file mounts to a partition without items. -/
theorem intact_of_open (hopen : FlashImageFile.open path sectorSize sectorCount d = .ok f d')
    (herased : f.content = Bytes.erased f.capacity) (hmount : mount f = .ok p)
    (hsmall : p.maxPayload < 2 ^ 32) :
    keptItemsInFile.Valid p ∧ keptItemsInFile.stored? p = fun _ => none := by
  refine ⟨valid_of_open hopen hmount hsmall, funext fun item => ?_⟩
  show p.stored? item = none
  rw [stored?, items_of_erasedFile hopen herased hmount]
  exact SortedMap.get?_empty item.id

end UpdateVault.Partition
