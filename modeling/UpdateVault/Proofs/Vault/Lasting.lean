import UpdateVault.Proofs.Storage.Containment
import UpdateVault.Proofs.Vault.Access
import UpdateVault.Proofs.Vault.Runs

/-!
# What was written lasts

`LastingItems` asks less of a storage than that it keeps its items: deletions may fail, and there
may be things in it that are no items. What was written is there until the same item is changed, so
it is there after any calls about other records (`LastingItems.holds_life`). A directory is such a
storage whatever else is in it (`ItemDirectory.lasting`).
-/

namespace UpdateVault

open Vault (Access Call Step)

/-! ## Storages -/

/-- A storage where what was written lasts. `Holds` says what it has of an item. -/
structure LastingItems (σ : Type) [ItemStorage σ] (reopen : σ → Except StorageError σ) where
  Valid : σ → Prop
  Holds : σ → Item → Bytes → Prop
  valid_run : ∀ {s : σ} (access : Access), Valid s → Valid (access.run.after s)
  holds_write : ∀ {s s' : σ} {item : Item} {data : Bytes}, Valid s →
    Vault.write item data s = .ok () s' → Holds s' item data
  holds_run : ∀ {s : σ} {item : Item} {data : Bytes} (access : Access), Valid s →
    Holds s item data → access.item ≠ item → Holds (access.run.after s) item data
  reopen_eq : ∀ {s : σ}, Valid s → ∃ s', reopen s = .ok s' ∧ Valid s' ∧
    ∀ item data, Holds s item data → Holds s' item data
  read_eq : ∀ {s : σ} {item : Item} {data : Bytes}, Valid s → Holds s item data →
    Vault.read s item = item.answer (some data)

namespace Vault

variable {σ : Type} [ItemStorage σ]

/-- The storage after a step; one that cannot be opened anew stays as it is. -/
def Step.next (reopen' : σ → Except StorageError σ) (s : σ) : Step → σ
  | call c => c.run.after s
  | reopen =>
    match reopen' s with
    | .ok s' => s'
    | .error _ => s

/-- The storage after steps. -/
def life (reopen : σ → Except StorageError σ) (s : σ) (steps : List Step) : σ :=
  steps.foldl (Step.next reopen) s

/-- A step leaves an item alone. -/
def Step.Spares (item : Item) : Step → Prop
  | call c => item ∉ c.items
  | reopen => True

instance (item : Item) : (step : Step) → Decidable (step.Spares item)
  | .call c => inferInstanceAs (Decidable (item ∉ c.items))
  | .reopen => .isTrue trivial

/-- What a deletion leaves does not depend on how its result is taken. -/
theorem after_delete (item : Item) (s : σ) :
    (Vault.delete item).after s = (ItemStorage.delete item.name).after s := by
  rw [Update.after, Vault.delete, Update.after]
  cases ItemStorage.delete item.name s with
  | ok _ s' => rfl
  | error e s' => cases h : e.isAbsence <;> simp only [h] <;> rfl

end Vault

namespace LastingItems

variable {σ : Type} [ItemStorage σ] {reopen : σ → Except StorageError σ}
  (L : LastingItems σ reopen) {s s' : σ} {item : Item} {data : Bytes} {steps : List Step}

theorem valid_next (hs : L.Valid s) (step : Step) : L.Valid (step.next reopen s) := by
  cases step with
  | call call => exact Call.preserves (fun access _ _ ht => L.valid_run access ht) hs
  | reopen =>
    obtain ⟨s', hreopen, hs', -⟩ := L.reopen_eq hs
    rw [Step.next, hreopen]
    exact hs'

theorem valid_life (hs : L.Valid s) (steps : List Step) : L.Valid (Vault.life reopen s steps) := by
  induction steps generalizing s with
  | nil => exact hs
  | cons step rest ih => exact ih (L.valid_next hs step)

theorem holds_next (hs : L.Valid s) (h : L.Holds s item data) {step : Step}
    (hstep : step.Spares item) : L.Holds (step.next reopen s) item data := by
  cases step with
  | call call =>
    -- each change of another item leaves the storage valid and the item as it is
    have hboth := Call.preserves (P := fun s => L.Valid s ∧ L.Holds s item data)
      (fun access hitem t ht => ⟨L.valid_run access ht.1, L.holds_run access ht.1 ht.2 fun he =>
        hstep (he ▸ hitem)⟩) ⟨hs, h⟩
    exact hboth.2
  | reopen =>
    obtain ⟨s', hreopen, -, hkept⟩ := L.reopen_eq hs
    rw [Step.next, hreopen]
    exact hkept item data h

/-- **What is there outlasts everything that is done to other items.** -/
theorem holds_life (hs : L.Valid s) (h : L.Holds s item data)
    (hsteps : ∀ step ∈ steps, step.Spares item) :
    L.Holds (Vault.life reopen s steps) item data := by
  induction steps generalizing s with
  | nil => exact h
  | cons step rest ih =>
    have hfirst := L.holds_next hs h (hsteps step List.mem_cons_self)
    exact ih (L.valid_next hs step) hfirst fun step' hstep' =>
      hsteps step' (List.mem_cons_of_mem _ hstep')

end LastingItems

/-! ## Storages that keep their items -/

/-- What is written to a storage that keeps its items lasts. -/
def KeptItems.lasting {σ : Type} [ItemStorage σ] {reopen : σ → Except StorageError σ}
    (K : KeptItems σ reopen) : LastingItems σ reopen where
  Valid := K.Valid
  Holds s item data := K.stored? s item = some data
  valid_run access hs := by
    cases access with
    | write item data =>
      rcases K.write_cases item data hs with ⟨s', hwrite, hs', -⟩ | ⟨e, s', hwrite, hs', -⟩
      · exact Update.after_of_ok hwrite ▸ hs'
      · exact Update.after_of_error hwrite ▸ hs'
    | delete item =>
      obtain ⟨s', hdelete, hs', -⟩ := K.delete_eq item hs
      exact Update.after_of_ok hdelete ▸ hs'
  holds_write {s s' item data} hs hwrite := by
    rcases K.write_cases item data hs with ⟨t, hok, -, hstored⟩ | ⟨e, t, herror, -⟩
    · rw [hok] at hwrite
      cases hwrite
      rw [hstored, Function.update_self]
    · rw [herror] at hwrite
      cases hwrite
  holds_run {s item data} access hs h hne := by
    cases access with
    | write other data' =>
      have hother : item ≠ other := fun he => hne he.symm
      rcases K.write_cases other data' hs with
        ⟨s', hwrite, -, hstored⟩ | ⟨e, s', hwrite, -, hstored⟩
      · refine Update.after_of_ok hwrite ▸ ?_
        rw [hstored, Function.update_of_ne hother, h]
      · refine Update.after_of_error hwrite ▸ ?_
        rw [hstored, h]
    | delete other =>
      have hother : item ≠ other := fun he => hne he.symm
      obtain ⟨s', hdelete, -, hstored⟩ := K.delete_eq other hs
      refine Update.after_of_ok hdelete ▸ ?_
      rw [hstored, Function.update_of_ne hother, h]
  reopen_eq hs := by
    obtain ⟨s', hreopen, hs', hstored⟩ := K.reopen_eq hs
    exact ⟨s', hreopen, hs', fun item data h => hstored ▸ h⟩
  read_eq {s item data} hs h := h ▸ K.read_eq item hs

/-! ## Directories -/

namespace ItemDirectory

variable {s s' : ItemDirectory} {item : Item} {data : Bytes}

/-- A change of an item changes no more than its file and its temporary file. -/
theorem after_run (access : Access) (s : ItemDirectory) :
    ∃ d, access.run.after s = { s with disk := d } ∧
      Disk.ChangesFiles [temporaryOf s.place access.item.name, fileOf s.place access.item.name]
        s.disk d := by
  have hconfined : Confined [temporaryOf s.place access.item.name,
      fileOf s.place access.item.name] s (access.run.after s) := by
    cases access with
    | write item data => exact write_confined item.name data
    | delete item =>
      have hdelete : (Access.run (.delete item)).after s = (delete item.name).after s :=
        Vault.after_delete item s
      rw [hdelete]
      exact (delete_confined item.name).mono (by simp [Access.item])
  exact ⟨_, hconfined.eq_withDisk, hconfined.disk⟩

/-- **What is written to a directory lasts**, whatever else is in the directory: its path leads to
it, and the paths of items that were written are ones that calls take. -/
def lasting : LastingItems ItemDirectory reopen where
  Valid s := s.disk.find s.root = .ok (s.place, .directory)
  Holds s item data := s.disk.node? (fileOf s.place item.name) = some (.file data) ∧
    reachFault? s.root item.name = none
  valid_run {s} access hs := by
    obtain ⟨d, hafter, hchanges⟩ := after_run access s
    rw [hafter]
    exact Disk.find_of_keeps hchanges.keeps hs
  holds_write {s s' item data} _ hwrite := by
    obtain ⟨-, hreach, hs', -⟩ := write_eq_ok hwrite
    have hfile := (node?_of_write hwrite).1
    rw [hs']
    exact ⟨hfile, reach_of_temporary hreach⟩
  holds_run {s item data} access _ h hne := by
    obtain ⟨d, hafter, hchanges⟩ := after_run access s
    rw [hafter]
    refine ⟨(hchanges.same _ ?_).trans h.1, h.2⟩
    simp only [List.mem_cons, List.not_mem_nil, or_false, not_or]
    exact ⟨(temporaryOf_ne_fileOf s.place access.item item).symm,
      fileOf_ne_fileOf s.place (Ne.symm hne)⟩
  reopen_eq {s} hs := by
    refine ⟨⟨s.root, s.place, sweep s.disk s.root s.place⟩, ?_, ?_, fun item data h => ⟨?_, h.2⟩⟩
    · rw [reopen, open_of_find hs]
    · exact Disk.find_of_keeps (keeps_sweep s.place) hs
    · exact (node?_sweep_fileOf s.place item).trans h.1
  read_eq {s item data} _ h := by
    have hfile := (Disk.fileAt_eq_ok_iff (nameable_fileOf s.place item)).2 h.1
    show read s item.name = _
    rw [read, if_pos (isItemName_name item), h.2, hfile]
    cases data <;> rfl

end ItemDirectory

end UpdateVault
