import UpdateVault.Proofs.Vault.Faults
import UpdateVault.Proofs.Vault.Lasting

/-!
# Changes that are made or not

`AtomicItems` is what every storage of a vault has in common, also one that is not to be relied on:
a change of an item is made as a whole, or it has no effect. Items in memory are such a storage
whichever calls are made to fail, and however that varies from call to call
(`MemoryStorage.atomic`); a mounted partition is one whatever its device does (`Partition.atomic`),
and a directory whatever else is in it and however long its path is (`ItemDirectory.atomic`).
-/

namespace UpdateVault

open Vault (Access)

/-- A storage where each change of an item is made, or fails without effect. `between` says what may
happen to it from one call to the next. -/
structure AtomicItems (σ : Type) [ItemStorage σ] (between : σ → σ → Prop) where
  Valid : σ → Prop
  stored? : σ → Item → Option Bytes
  valid_run : ∀ {s : σ} (access : Access), Valid s → Valid (access.run.after s)
  write_ok : ∀ {s s' : σ} {item : Item} {data : Bytes}, Valid s →
    Vault.write item data s = .ok () s' →
    stored? s' = Function.update (stored? s) item (some data)
  write_error : ∀ {s s' : σ} {item : Item} {data : Bytes} {e : StorageError}, Valid s →
    Vault.write item data s = .error e s' → stored? s' = stored? s
  /-- Whether a deletion was made cannot be told from its result, as absence may be reported. -/
  delete : ∀ {s : σ} (item : Item), Valid s →
    stored? ((Vault.delete item).after s) = stored? s ∨
      stored? ((Vault.delete item).after s) = Function.update (stored? s) item none
  between_eq : ∀ {s s' : σ}, Valid s → between s s' → Valid s' ∧ stored? s' = stored? s
  read_ok : ∀ {s : σ} {item : Item} {data : Bytes}, Valid s → Vault.read s item = .ok data →
    stored? s item = some data

namespace Item

theorem stored_of_answer {item : Item} {stored? : Option Bytes} {data : Bytes}
    (h : item.answer stored? = .ok data) : stored? = some data := by
  rcases stored? with _ | _ | ⟨b, rest⟩
  · cases h
  · cases h
  · cases h
    rfl

end Item

/-- Nothing happens to a storage from call to call but that it is opened anew. -/
def Reopened {σ : Type} (reopen : σ → Except StorageError σ) (s s' : σ) : Prop := reopen s = .ok s'

/-- A storage that keeps its items makes each change or fails without effect. -/
def KeptItems.atomic {σ : Type} [ItemStorage σ] {reopen : σ → Except StorageError σ}
    (K : KeptItems σ reopen) : AtomicItems σ (Reopened reopen) where
  Valid := K.Valid
  stored? := K.stored?
  valid_run := K.lasting.valid_run
  write_ok := K.stored?_of_write
  write_error := K.stored?_of_write_error
  delete {s} item hs := by
    obtain ⟨t, hdelete, -, hstored⟩ := K.delete_eq item hs
    rw [Update.after_of_ok hdelete]
    exact .inr hstored
  between_eq {s s'} hs hreopen := by
    obtain ⟨t, ht, hvalid, hstored⟩ := K.reopen_eq hs
    cases ht.symm.trans hreopen
    exact ⟨hvalid, hstored⟩
  read_ok {s item data} hs hread := Item.stored_of_answer ((K.read_eq item hs).symm.trans hread)

/-! ## Items in memory -/

namespace MemoryStorage

/-- From call to call other calls may be made to fail. -/
def Disturbed (s s' : MemoryStorage) : Prop := s'.items = s.items

/-- A change of one item changes the table of them under its name only. -/
theorem get?_update {s s' : MemoryStorage} {item : Item} {data? : Option Bytes}
    (h : ∀ name, s'.items.get? name = if name = item.name then data? else s.items.get? name) :
    (fun other : Item => s'.items.get? other.name)
      = Function.update (fun other : Item => s.items.get? other.name) item data? := by
  funext other
  rw [h, Function.update_apply]
  by_cases ho : other = item
  · rw [if_pos (congrArg Item.name ho), if_pos ho]
  · rw [if_neg fun hname => ho (Item.name_injective hname), if_neg ho]

/-- **Items in memory change or do not**, whichever calls are made to fail. -/
def atomic : AtomicItems MemoryStorage Disturbed where
  Valid _ := True
  stored? s item := s.items.get? item.name
  valid_run _ _ := trivial
  write_ok {s s' item data} _ hwrite := by
    replace hwrite : write item.name data s = .ok () s' := hwrite
    rw [write] at hwrite
    split at hwrite
    · cases hwrite
    · cases hwrite
      exact get?_update fun name => SortedMap.get?_insert ..
  write_error {s s' item data e} _ hwrite := by
    replace hwrite : write item.name data s = .error e s' := hwrite
    rw [write] at hwrite
    split at hwrite
    · cases hwrite
      rfl
    · cases hwrite
  delete {s} item _ := by
    have hdelete : ItemStorage.delete item.name s = MemoryStorage.delete item.name s := rfl
    rw [Vault.after_delete, Update.after, hdelete, MemoryStorage.delete]
    cases s.fault? .delete item.name with
    | some e => exact .inl rfl
    | none =>
      cases s.items.contains item.name with
      | false => exact .inl rfl
      | true => exact .inr (get?_update fun name => SortedMap.get?_erase ..)
  between_eq _ hsame := ⟨trivial, by rw [hsame]⟩
  read_ok {s item data} _ hread := by
    replace hread : read s item.name = .ok data := hread
    rw [read] at hread
    split at hread
    · cases hread
    · split at hread
      · rename_i b rest hget
        cases hread
        exact hget
      · cases hread

end MemoryStorage

/-! ## Partitions -/

namespace Partition

variable {φ : Type} [FlashMemory φ] {p q : Partition φ} {items : ItemTable}

/-- From call to call anything may happen to the device, unless the partition is mounted anew. -/
def SameTable (p q : Partition φ) : Prop := q.items = p.items

theorem items_of_commit (h : commit items p = .ok () q) : q.items = items := by
  rcases commit_cases items p with ⟨-, hcommit⟩ | ⟨-, ⟨e, device, hcommit⟩ | ⟨device, hcommit⟩⟩ <;>
    rw [hcommit] at h <;> cases h
  rfl

theorem items_of_commit_error {e : StorageError} (h : commit items p = .error e q) :
    q.items = p.items := by
  rcases commit_cases items p with ⟨-, hcommit⟩ | ⟨-, ⟨e, device, hcommit⟩ | ⟨device, hcommit⟩⟩ <;>
    rw [hcommit] at h <;> cases h <;> rfl

/-- **The table in memory changes or does not**, whatever the device does. -/
def atomic : AtomicItems (Partition φ) SameTable where
  Valid _ := True
  stored? := stored?
  valid_run _ _ := trivial
  write_ok {p q item data} _ hwrite := by
    replace hwrite : write item.name data p = .ok () q := hwrite
    simp only [write, Call.idOf_eq (Item.ofName?_name item)] at hwrite
    split at hwrite
    · rename_i hsame
      cases hwrite
      exact (Function.update_eq_self_iff.2 hsame.symm).symm
    · refine stored?_eq_update fun id => ?_
      rw [items_of_commit hwrite]
      exact SortedMap.get?_insert ..
  write_error {p q item data e} _ hwrite := by
    replace hwrite : write item.name data p = .error e q := hwrite
    simp only [write, Call.idOf_eq (Item.ofName?_name item)] at hwrite
    split at hwrite
    · cases hwrite
    · funext other
      rw [stored?, stored?, items_of_commit_error hwrite]
  delete {p} item _ := by
    have hafter : (Vault.delete item).after p = (delete item.name).after p :=
      Vault.after_delete item p
    rw [hafter, Update.after, delete]
    simp only [Call.idOf_eq (Item.ofName?_name item)]
    split
    · rename_i hdelete
      split at hdelete
      · refine .inr (stored?_eq_update fun id => ?_)
        rw [items_of_commit hdelete]
        exact SortedMap.get?_erase ..
      · cases hdelete
    · rename_i hdelete
      split at hdelete
      · refine .inl (funext fun other => ?_)
        rw [stored?, stored?, items_of_commit_error hdelete]
      · cases hdelete
        exact .inl rfl
  between_eq {p q} _ hsame := ⟨trivial, funext fun item => by rw [stored?, stored?, hsame]⟩
  read_ok {p item data} _ hread :=
    Item.stored_of_answer ((Intact.read_eq item).symm.trans hread)

end Partition

/-! ## Directories -/

namespace ItemDirectory

/-- A directory with another disk, where the file of one item is all that differs of them. -/
theorem stored?_update {s : ItemDirectory} {d : Disk} {item : Item} {data? : Option Bytes}
    (hfile : stored? { s with disk := d } item = data?)
    (hchanges : Disk.ChangesFiles [temporaryOf s.place item.name, fileOf s.place item.name]
      s.disk d) :
    stored? { s with disk := d } = Function.update s.stored? item data? := by
  funext other
  by_cases ho : other = item
  · subst ho
    rw [Function.update_self, hfile]
  · have hnot : fileOf s.place other.name
        ∉ [temporaryOf s.place item.name, fileOf s.place item.name] := by
      simp only [List.mem_cons, List.not_mem_nil, or_false, not_or]
      exact ⟨(temporaryOf_ne_fileOf s.place item other).symm, fileOf_ne_fileOf s.place ho⟩
    rw [Function.update_of_ne ho, stored?, stored?]
    simp only [hchanges.same _ hnot]

/-- **The items of a directory change or do not**, whatever else is in the directory. -/
def atomic : AtomicItems ItemDirectory (Reopened reopen) where
  Valid := lasting.Valid
  stored? := stored?
  valid_run := lasting.valid_run
  write_ok {s s' item data} _ hwrite := by
    have hconfined := confined_of_write hwrite
    rw [hconfined.eq_withDisk]
    refine stored?_update ?_ hconfined.disk
    rw [stored?]
    simp only [(node?_of_write hwrite).1]
  write_error {s s' item data e} _ hwrite := by
    have hconfined := write_error_confined hwrite
    funext other
    have hnot : fileOf s.place other.name ∉ [temporaryOf s.place item.name] := by
      simpa using (temporaryOf_ne_fileOf s.place item other).symm
    rw [stored?, stored?, hconfined.place_eq]
    simp only [hconfined.disk.same _ hnot]
  delete {s} item _ := by
    have hdelete : (Vault.delete item).after s = (delete item.name).after s :=
      Vault.after_delete item s
    rw [hdelete]
    rcases after_delete item.name s with hsame | ⟨d, hremove, hafter⟩
    · rw [hsame]
      exact .inl rfl
    · rw [hafter]
      have hchanges := Disk.Change.changesFiles hremove
      refine .inr (stored?_update ?_ (hchanges.mono (by simp [Disk.Change.places])))
      rw [stored?]
      simp only [Disk.node?_of_remove hremove]
  between_eq {s s'} hs hreopen := by
    have hopen := open_of_find hs
    rw [Reopened, reopen, hopen] at hreopen
    cases hreopen
    refine ⟨Disk.find_of_keeps (keeps_sweep s.place) hs, ?_⟩
    funext item
    simp only [stored?, node?_sweep_fileOf]
  read_ok {s item data} _ hread := by
    replace hread : read s item.name = .ok data := hread
    rw [read, if_pos (isItemName_name item)] at hread
    split at hread
    · cases hread
    · cases hread
    · rename_i hfile
      cases hread
      rw [stored?, (Disk.fileAt_eq_ok hfile).2]
    · cases hread
    · cases hread

end ItemDirectory

end UpdateVault
