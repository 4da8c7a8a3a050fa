import UpdateVault.Proofs.Flash.Chip
import UpdateVault.Proofs.Vault.Lasting
import UpdateVault.Storage.Selected

/-!
# Changes of items, by the kind of storage

A change of an item of a partition leaves its device as changes of the device do
(`Partition.after_access`). A change of an item of a selected storage is one of the storage that was
selected (`SelectedStorage.run_of_within`). A device in a file stays on the file that it was opened
on, and changes nothing else on the disk (`FlashImageFile.keeps_onFile`).
-/

namespace UpdateVault

open Vault (Access)

/-! ## Partitions -/

section

variable {φ : Type} [FlashMemory φ] {P : φ → Prop} {f : φ}

/-- What programming and erasing a sector keep of a device. -/
structure FlashMemory.Keeps (P : φ → Prop) : Prop where
  program : ∀ {f : φ} (offset : Nat) (data : Bytes), P f →
    P ((FlashMemory.program offset data).after f)
  eraseSector : ∀ {f : φ} (sector : Nat), P f → P ((FlashMemory.eraseSector sector).after f)

namespace FlashMemory.Keeps

variable (hkeeps : FlashMemory.Keeps P)

include hkeeps

theorem eraseSectors (first count : Nat) (h : P f) :
    P ((FlashMemory.eraseSectors first count).after f) := by
  induction count generalizing f first with
  | zero => exact h
  | succ count ih =>
    exact Update.after_bind (hkeeps.eraseSector first h) fun _ _ hnext => ih (first + 1) hnext

theorem eraseStretch (start len : Nat) (h : P f) :
    P ((FlashMemory.eraseStretch start len).after f) := by
  rw [Update.after, FlashMemory.eraseStretch_apply]
  by_cases hlen : len = 0
  · rw [if_pos hlen]
    exact h
  · rw [if_neg hlen]
    by_cases hsize : FlashMemory.sectorSize f = 0
    · rw [if_pos hsize]
      exact h
    · rw [if_neg hsize]
      exact hkeeps.eraseSectors _ _ h

end FlashMemory.Keeps

namespace Partition

variable {p : Partition φ} (hkeeps : FlashMemory.Keeps P)

include hkeeps

theorem after_commit (items : ItemTable) (h : P p.device) : P ((commit items).after p).device := by
  have hbank : P ((writeBank p.bankLength p.target
      (Bank.image (p.sequence + 1) items.encode)).after p.device) :=
    Update.after_bind (hkeeps.eraseStretch _ _ h) fun _ _ hnext => hkeeps.program _ _ hnext
  rw [Update.after] at hbank ⊢
  rw [commit]
  by_cases hfull : p.maxPayload < items.encode.length
  · simp only [hfull, if_true]
    exact h
  · simp only [hfull, if_false]
    cases hwrite : writeBank p.bankLength p.target (Bank.image (p.sequence + 1) items.encode)
        p.device with
    | ok _ f =>
      rw [hwrite] at hbank
      exact hbank
    | error e f =>
      rw [hwrite] at hbank
      exact hbank

/-- **What changes of a device keep, changes of an item keep**, whatever becomes of them. -/
theorem after_access (access : Access) (h : P p.device) : P (access.run.after p).device := by
  cases access with
  | write item data =>
    show P ((write item.name data).after p).device
    rw [Update.after, write, Call.idOf_eq (Item.ofName?_name item)]
    by_cases hsame : p.items.get? item.id = some data
    · simp only [hsame, if_true]
      exact h
    · simp only [hsame, if_false]
      exact after_commit hkeeps _ h
  | delete item =>
    have hafter : (Vault.delete item).after p = (delete item.name).after p :=
      Vault.after_delete item p
    show P ((Vault.delete item).after p).device
    rw [hafter, Update.after, delete, Call.idOf_eq (Item.ofName?_name item)]
    by_cases hpresent : p.items.contains item.id = true
    · simp only [hpresent, if_true]
      exact after_commit hkeeps _ h
    · simp only [hpresent]
      exact h

end Partition

end

/-! ## Devices in a file -/

namespace FlashImageFile

variable {place : Location} {f₀ f : FlashImageFile}

/-- A device in a file is changed in no other way than by giving the file another content. -/
theorem keeps_of_setContent {P : FlashImageFile → Prop}
    (h : ∀ (f : FlashImageFile) (image : Bytes), P f → P (f.setContent image)) :
    FlashMemory.Keeps P where
  program {f} offset data hf := by
    show P ((FlashImageFile.program offset data).after f)
    rw [Update.after, program]
    cases f.read offset data.length with
    | error e => exact hf
    | ok current => exact h f _ hf
  eraseSector {f} sector hf := by
    show P ((FlashImageFile.eraseSector sector).after f)
    rw [Update.after, eraseSector]
    cases Flash.sectorAddress f.capacity f.sectorSize sector with
    | error e => exact hf
    | ok start => exact h f _ hf

/-- A device of which no more than the content of its file, at a place, has changed. -/
structure OnFile (place : Location) (f₀ f : FlashImageFile) : Prop where
  path_eq : f.path = f₀.path
  sectorSize_eq : f.sectorSize = f₀.sectorSize
  sectorCount_eq : f.sectorCount = f₀.sectorCount
  handle_eq : f.handle = f₀.handle
  changes : Disk.ChangesFiles [place] f₀.disk f.disk

theorem OnFile.refl (place : Location) (f : FlashImageFile) : OnFile place f f :=
  ⟨rfl, rfl, rfl, rfl, .refl _ _⟩

theorem keeps_onFile (hhandle : f₀.handle = .linked place)
    (hfile : f₀.disk.node? place ≠ some .directory) : FlashMemory.Keeps (OnFile place f₀) := by
  refine keeps_of_setContent fun f image h => ?_
  have hset : f.setContent image = { f with disk := f.disk.set place (.file image) } := by
    simp only [FlashImageFile.setContent, h.handle_eq, hhandle]
  have hfile' : f.disk.node? place ≠ some .directory := by
    rwa [Ne, h.changes.directory_iff]
  rw [hset]
  exact ⟨h.path_eq, h.sectorSize_eq, h.sectorCount_eq, h.handle_eq,
    h.changes.trans (Disk.changesFiles_set hfile' image)⟩

end FlashImageFile

/-! ## Selected storages -/

namespace SelectedStorage

/-- A partition is mounted on a device in a file, once the directory of the file is there. -/
theorem openPartition_eq_ok {c : Config} {p : Partition FlashImageFile} {d d' : Disk}
    (h : openPartition c d = .ok p d') :
    ∃ d₀ f, Disk.makePath c.root d = .ok () d₀ ∧
      FlashImageFile.open (c.root.join c.partition.image) c.partition.sectorSize
        c.partition.sectorCount d₀ = .ok f d' ∧ Partition.mount f = .ok p := by
  rw [openPartition] at h
  split at h
  · cases h
  · rename_i d₀ hmake
    dsimp only at h
    split at h
    · cases h
    · rename_i f d₁ hopen
      split at h
      · cases h
      · rename_i hmount
        cases h
        exact ⟨d₀, f, hmake, hopen, hmount⟩

theorem after_within {ε σ τ α : Type} {wrap : σ → τ} {change : Update ε τ α}
    {part : Update ε σ α} {items : σ}
    (h : change (wrap items) = within wrap part items) :
    change.after (wrap items) = wrap (part.after items) := by
  rw [Update.after, h, within, Update.after]
  cases part items <;> rfl

section

variable {ε σ τ α : Type} {wrap : σ → τ} {change : Update ε σ α} {items : σ} {t : τ}

theorem within_eq_ok {a : α} (h : within wrap change items = .ok a t) :
    ∃ s, change items = .ok a s ∧ t = wrap s := by
  rw [within] at h
  split at h
  · rename_i s hchange
    cases h
    exact ⟨s, hchange, rfl⟩
  · cases h

theorem within_eq_error {e : ε} (h : within wrap change items = .error e t) :
    ∃ s, change items = .error e s ∧ t = wrap s := by
  rw [within] at h
  split at h
  · cases h
  · rename_i s hchange
    cases h
    exact ⟨s, hchange, rfl⟩

end

section

variable {σ : Type} [ItemStorage σ] {wrap : σ → SelectedStorage} {items : σ}

/-- A storage that passes changes on to a part of it does what the part does. -/
theorem run_of_within
    (hwrite : ∀ name data, write name data (wrap items)
      = within wrap (ItemStorage.write name data) items)
    (hdelete : ∀ name, delete name (wrap items) = within wrap (ItemStorage.delete name) items)
    (access : Access) : access.run (wrap items) = within wrap access.run items := by
  cases access with
  | write item data => exact hwrite item.name data
  | delete item =>
    show Vault.delete item (wrap items) = within wrap (Vault.delete item) items
    have hpart : ItemStorage.delete item.name (wrap items)
        = within wrap (ItemStorage.delete item.name) items := hdelete item.name
    rw [Vault.delete, hpart, within, within, Vault.delete]
    cases ItemStorage.delete item.name items with
    | ok _ s' => rfl
    | error e s' =>
      dsimp only
      cases e.isAbsence <;> rfl

theorem run_directory (access : Access) (items : ItemDirectory) :
    access.run (directory items) = within directory access.run items :=
  run_of_within (fun _ _ => rfl) (fun _ => rfl) access

theorem run_partition (access : Access) (items : Partition FlashImageFile) :
    access.run (partition items) = within partition access.run items :=
  run_of_within (fun _ _ => rfl) (fun _ => rfl) access

/-- Without any storage every call is refused. -/
theorem run_absent (access : Access) (disk : Disk) :
    access.run (absent disk) = within (fun _ => absent disk) access.run NoStorage.mk :=
  @run_of_within NoStorage _ (fun _ => absent disk) .mk (fun _ _ => rfl) (fun _ => rfl) access

end

theorem after_directory (access : Access) (items : ItemDirectory) :
    access.run.after (directory items) = directory (access.run.after items) :=
  after_within (run_directory access items)

theorem after_partition (access : Access) (items : Partition FlashImageFile) :
    access.run.after (partition items) = partition (access.run.after items) :=
  after_within (run_partition access items)

/-- Without any storage nothing changes. -/
theorem after_absent (access : Access) (disk : Disk) :
    access.run.after (absent disk) = absent disk :=
  @after_within _ NoStorage _ _ (fun _ => absent disk) _ _ _ (run_absent access disk)

end SelectedStorage

end UpdateVault
