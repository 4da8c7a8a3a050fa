import UpdateVault.Proofs.SortedMap
import UpdateVault.Proofs.Vault.Access
import UpdateVault.Storage.Memory

/-!
# Faults are contained

Over items in memory with calls that are made to fail, a change of an item fails with its fault and
changes nothing, or it is made (`run_access`). So of the changes a call makes those before the first
fault are made (`perform_eq`), and of the two deletions of the keys those without a fault
(`deleteKeys_eq`). What that means for each call is `faults_contained`.
-/

namespace UpdateVault.MemoryStorage

open Vault (Access Call perform)

variable {s s' : MemoryStorage} {access : Access} {accesses : List Access} {call : Call}
  {e : StorageError}

/-- No fault passes for an absent item. -/
def Genuine (s : MemoryStorage) : Prop :=
  ∀ access name e, s.fault? access name = some e → e.kind ≠ .absent

/-- The same items, and no call that fails. -/
def withoutFaults (s : MemoryStorage) : MemoryStorage := { s with fault? := fun _ _ => none }

/-! ## Changes of items -/

/-- What a change of an item does to the items. -/
def change : Access → SortedMap String Bytes → SortedMap String Bytes
  | .write item data, items => items.insert item.name data
  | .delete item, items => items.erase item.name

/-- The items after changes, one after the other. -/
def changed (s : MemoryStorage) (accesses : List Access) : MemoryStorage :=
  { s with items := accesses.foldl (fun items access => change access items) s.items }

/-- The fault that a change runs into. -/
def faultOf (s : MemoryStorage) : Access → Option StorageError
  | .write item _ => s.fault? .write item.name
  | .delete item => s.fault? .delete item.name

/-- A change of an item leaves the others. -/
theorem get?_change {name : String} (h : access.item.name ≠ name) (items : SortedMap String Bytes) :
    (change access items).get? name = items.get? name := by
  cases access with
  | write item data => exact SortedMap.get?_insert_ne items data h.symm
  | delete item => exact SortedMap.get?_erase_ne items h.symm

/-- A change of an item fails with its fault, or is made. -/
theorem run_access (h : s.Genuine) (access : Access) :
    access.run s = match s.faultOf access with
      | some e => .error e s
      | none => .ok () (s.changed [access]) := by
  cases access with
  | write item data =>
    show MemoryStorage.write item.name data s = _
    rw [MemoryStorage.write, faultOf]
    cases s.fault? .write item.name <;> rfl
  | delete item =>
    show Vault.delete item s = _
    have hdelete : ItemStorage.delete item.name s = MemoryStorage.delete item.name s := rfl
    rw [Vault.delete, hdelete, MemoryStorage.delete, faultOf]
    cases hfault : s.fault? .delete item.name with
    | some e =>
      have habsence : e.isAbsence = false := by
        simpa [StorageError.isAbsence] using h .delete item.name e hfault
      simp only [habsence]
      rfl
    | none =>
      cases hget : s.items.get? item.name with
      | some data =>
        simp only [SortedMap.contains, hget]
        rfl
      | none =>
        have hsame : s.changed [.delete item] = s := by
          simp only [changed, List.foldl, change, SortedMap.erase_eq_self hget]
        simp only [SortedMap.contains, hget, hsame]
        rfl

/-- **The changes before the first fault are made**, and the fault is the error. -/
theorem perform_eq (h : s.Genuine) (accesses : List Access) :
    perform accesses s = match accesses.findSome? s.faultOf with
      | none => .ok () (s.changed accesses)
      | some e => .error e (s.changed (accesses.takeWhile fun a => (s.faultOf a).isNone)) := by
  induction accesses generalizing s with
  | nil => rfl
  | cons access rest ih =>
    have hrun := run_access h access
    rw [List.findSome?_cons, List.takeWhile_cons]
    cases hfault : s.faultOf access with
    | some e =>
      rw [hfault] at hrun
      exact Update.bind_error hrun
    | none =>
      rw [hfault] at hrun
      -- the faults of what is left are those there were
      have hrest : perform rest (s.changed [access]) = _ := ih (s := s.changed [access]) h
      exact (Update.bind_ok hrun).trans hrest

/-! ## Calls -/

/-- The changes that are made in spite of the faults: those before the first one, and of the two
deletions of the keys each that has none. -/
def made (s : MemoryStorage) (call : Call) (accesses : List Access) : List Access :=
  match call with
  | .deleteKeys => accesses.filter fun a => (s.faultOf a).isNone
  | _ => accesses.takeWhile fun a => (s.faultOf a).isNone

theorem made_of_ne (h : call ≠ .deleteKeys) :
    s.made call accesses = accesses.takeWhile fun a => (s.faultOf a).isNone := by
  cases call with
  | deleteKeys => exact absurd rfl h
  | _ => rfl

theorem deleteKeys_eq (h : s.Genuine) :
    Vault.deleteKeys s
      = match [Access.delete .privateKey, .delete .publicKey].findSome? s.faultOf with
        | none => .ok () (s.changed [.delete .privateKey, .delete .publicKey])
        | some e => .error e (s.changed (s.made .deleteKeys [.delete .privateKey,
            .delete .publicKey])) := by
  have hprivate : Vault.delete .privateKey s = _ := run_access h (.delete .privateKey)
  have hpublic : Vault.delete .publicKey s = _ := run_access h (.delete .publicKey)
  have hrest : Vault.delete .publicKey (s.changed [.delete .privateKey])
      = match s.faultOf (.delete .publicKey) with
        | some e => .error e (s.changed [.delete .privateKey])
        | none => .ok () (s.changed [.delete .privateKey, .delete .publicKey]) :=
    run_access (s := s.changed [.delete .privateKey]) h (.delete .publicKey)
  rw [Vault.deleteKeys, hprivate, List.findSome?_cons, List.findSome?_singleton, made]
  -- the second deletion is the same whether the first one was made or not
  cases hfirst : s.faultOf (.delete .privateKey) with
  | some e =>
    simp only [hpublic]
    cases hsecond : s.faultOf (.delete .publicKey) <;> simp [hfirst, hsecond, changed]
  | none =>
    simp only [hrest]
    cases hsecond : s.faultOf (.delete .publicKey) <;> simp [hfirst, hsecond]

/-- **What a call does**: it refuses its argument, or makes all of its changes, or fails with the
first fault in their way. -/
theorem run_eq (h : s.Genuine) (call : Call) :
    call.run s = match call.plan with
      | .error e => .error e s
      | .ok accesses => match accesses.findSome? s.faultOf with
        | none => .ok () (s.changed accesses)
        | some e => .error e (s.changed (s.made call accesses)) := by
  by_cases hcall : call = .deleteKeys
  · subst hcall
    exact deleteKeys_eq h
  · rw [Call.run_eq hcall]
    cases call.plan with
    | error e => rfl
    | ok accesses => simp only [perform_eq h, made_of_ne hcall]

theorem run_ok (h : s.Genuine) (hrun : call.run s = .ok () s') :
    ∃ accesses, call.plan = .ok accesses ∧ accesses.findSome? s.faultOf = none ∧
      s' = s.changed accesses := by
  rw [run_eq h] at hrun
  split at hrun
  · cases hrun
  · rename_i accesses hplan
    split at hrun
    · rename_i hnone
      cases hrun
      exact ⟨accesses, hplan, hnone, rfl⟩
    · cases hrun

theorem run_error (h : s.Genuine) (hrun : call.run s = .error e s') :
    call.plan = .error e ∧ s' = s ∨
      ∃ accesses, call.plan = .ok accesses ∧ accesses.findSome? s.faultOf = some e ∧
        s' = s.changed (s.made call accesses) := by
  rw [run_eq h] at hrun
  split at hrun
  · rename_i hplan
    cases hrun
    exact .inl ⟨hplan, rfl⟩
  · rename_i accesses hplan
    split at hrun
    · cases hrun
    · rename_i hsome
      cases hrun
      exact .inr ⟨accesses, hplan, hsome, rfl⟩

/-- A call changes nothing but items it is about. -/
theorem after_run (h : s.Genuine) (call : Call) {name : String}
    (hname : ∀ item ∈ call.items, item.name ≠ name) :
    (call.run.after s).fault? = s.fault? ∧
      (call.run.after s).items.get? name = s.items.get? name := by
  let Kept (t : MemoryStorage) : Prop :=
    t.fault? = s.fault? ∧ t.items.get? name = s.items.get? name
  refine Call.preserves (P := Kept) (fun access ha t ht => ?_) ⟨rfl, rfl⟩
  have hgenuine : t.Genuine := by rw [Genuine, ht.1]; exact h
  have hrun := run_access hgenuine access
  split at hrun
  · rwa [Update.after_of_error hrun]
  · rw [Update.after_of_ok hrun]
    exact ⟨ht.1, (get?_change (hname _ ha) _).trans ht.2⟩

/-! ## What faults cannot do -/

/-- What calls do to the items and what they answer, whichever of the changes they make run into a
fault. -/
structure FaultsContained (s : MemoryStorage) : Prop where
  /-- A call changes nothing but items of its own records. -/
  frame : ∀ (call : Call) name, (∀ item ∈ call.items, item.name ≠ name) →
    (call.run.after s).items.get? name = s.items.get? name
  /-- A call that succeeds leaves what it leaves when there are no faults. -/
  success : ∀ (call : Call) s', call.run s = .ok () s' →
    ∃ t, call.run s.withoutFaults = .ok () t ∧ t.items = s'.items
  /-- A call about one item that fails changes nothing. -/
  single : ∀ (call : Call) e s', call.items.length = 1 → call.run s = .error e s' → s' = s
  /-- If the keys cannot be set, at most the private one was. -/
  setKeys : ∀ k e s', Vault.setKeys k s = .error e s' →
    s' = s ∨ s' = { s with items := s.items.insert Item.privateKey.name k.privateKey }
  /-- Each half of the keys is deleted, but for one whose own deletion is to fail. -/
  deleteKeys : ∀ item ∈ Call.deleteKeys.items,
    (Vault.deleteKeys.after s).items.get? item.name
      = if (s.fault? .delete item.name).isSome then s.items.get? item.name else none
  /-- If the deletion of the keys succeeds, neither half is left. -/
  deleteKeys_ok : ∀ s', Vault.deleteKeys s = .ok () s' →
    ∀ item ∈ Call.deleteKeys.items, s'.items.get? item.name = none
  /-- It fails with the fault of the private half, before that of the public half. -/
  deleteKeys_error : ∀ e, (∃ s', Vault.deleteKeys s = .error e s') ↔
    (s.fault? .delete Item.privateKey.name).or (s.fault? .delete Item.publicKey.name) = some e
  /-- If an update cannot be finished, at most the checkpoint is gone. -/
  finishUpdate : ∀ e s', Vault.finishUpdate s = .error e s' →
    s' = s ∨ s' = { s with items := s.items.erase Item.checkpoint.name }
  /-- A call that refuses its argument changes nothing. -/
  refusal : ∀ (call : Call) e, call.plan = .error e → call.run s = .error e s
  /-- Any other call fails with the first fault in the way of its changes, and only then. -/
  failure : ∀ (call : Call) accesses e, call.plan = .ok accesses →
    ((∃ s', call.run s = .error e s') ↔ accesses.findSome? s.faultOf = some e)

theorem refusal_eq (h : s.Genuine) (hplan : call.plan = .error e) : call.run s = .error e s := by
  rw [run_eq h, hplan]

theorem failure_iff (h : s.Genuine) (hplan : call.plan = .ok accesses) :
    (∃ s', call.run s = .error e s') ↔ accesses.findSome? s.faultOf = some e := by
  rw [run_eq h, hplan]
  dsimp only
  cases accesses.findSome? s.faultOf with
  | none => exact ⟨nofun, nofun⟩
  | some e' =>
    constructor
    · rintro ⟨s', hrun⟩
      cases hrun
      rfl
    · intro he
      cases he
      exact ⟨_, rfl⟩

theorem run_withoutFaults (hplan : call.plan = .ok accesses) :
    call.run s.withoutFaults = .ok () (s.withoutFaults.changed accesses) := by
  have hgenuine : s.withoutFaults.Genuine := nofun
  have hnone : accesses.findSome? s.withoutFaults.faultOf = none := by
    rw [List.findSome?_eq_none_iff]
    intro access _
    cases access <;> rfl
  rw [run_eq hgenuine, hplan]
  simp only [hnone]

theorem single_error (h : s.Genuine) (hitems : call.items.length = 1)
    (hrun : call.run s = .error e s') : s' = s := by
  rcases run_error h hrun with ⟨-, hsame⟩ | ⟨accesses, hplan, hfault, hsame⟩
  · exact hsame
  · have hlength : accesses.length = 1 := by
      rw [← List.length_map (f := Access.item), Call.map_item_plan hplan, hitems]
    obtain ⟨access, rfl⟩ := List.length_eq_one_iff.1 hlength
    have hmade : s.made call [access] = [] := by
      rw [List.findSome?_singleton] at hfault
      cases call <;> simp [made, hfault]
    rw [hsame, hmade]
    rfl

/-- Of two changes that are not both made, at most the first one is. -/
theorem pair_error (call : Call) {first second : Access} (h : s.Genuine)
    (hcall : call ≠ .deleteKeys) (hplan : call.plan = .ok [first, second])
    (hrun : call.run s = .error e s') :
    s' = s ∨ s' = s.changed [first] := by
  rcases run_error h hrun with ⟨-, hsame⟩ | ⟨accesses, hplan', hfault, hsame⟩
  · exact .inl hsame
  · rw [hplan] at hplan'
    cases hplan'
    rw [hsame, made_of_ne hcall]
    cases hfirst : s.faultOf first with
    | some e =>
      refine .inl ?_
      rw [List.takeWhile_cons, hfirst]
      rfl
    | none =>
      refine .inr ?_
      have hsecond : s.faultOf second = some e := by
        rwa [List.findSome?_cons, hfirst, List.findSome?_singleton] at hfault
      rw [List.takeWhile_cons, hfirst, List.takeWhile_cons, hsecond]
      rfl

theorem setKeys_error {k : KeyPair} (h : s.Genuine) (hrun : Vault.setKeys k s = .error e s') :
    s' = s ∨ s' = { s with items := s.items.insert Item.privateKey.name k.privateKey } := by
  by_cases hempty : (k.privateKey.isEmpty || k.publicKey.isEmpty) = true
  · have hplan : (Call.setKeys k).plan = .error (.invalidInput .emptyKeys) := if_pos hempty
    have hrefusal : Vault.setKeys k s = _ := refusal_eq h hplan
    rw [hrefusal] at hrun
    cases hrun
    exact .inl rfl
  · exact pair_error (.setKeys k) h nofun (if_neg hempty) hrun

/-- The halves that are deleted are those whose deletion has no fault. -/
theorem after_deleteKeys (h : s.Genuine) : Vault.deleteKeys.after s
    = s.changed (s.made .deleteKeys [.delete .privateKey, .delete .publicKey]) := by
  have hrun := deleteKeys_eq h
  split at hrun
  · rename_i hnone
    have hall : s.made .deleteKeys [.delete .privateKey, .delete .publicKey]
        = [.delete .privateKey, .delete .publicKey] := by
      refine List.filter_eq_self.2 fun access ha => ?_
      rw [List.findSome?_eq_none_iff.1 hnone access ha]
      rfl
    rw [Update.after_of_ok hrun, hall]
  · exact Update.after_of_error hrun

theorem get?_after_deleteKeys (h : s.Genuine) {item : Item} (hitem : item ∈ Call.deleteKeys.items) :
    (Vault.deleteKeys.after s).items.get? item.name
      = if (s.fault? .delete item.name).isSome then s.items.get? item.name else none := by
  have hne : Item.privateKey.name ≠ Item.publicKey.name := by decide
  have hprivate : s.faultOf (.delete .privateKey) = s.fault? .delete Item.privateKey.name := rfl
  have hpublic : s.faultOf (.delete .publicKey) = s.fault? .delete Item.publicKey.name := rfl
  rw [after_deleteKeys h, made, List.filter_cons, List.filter_cons, List.filter_nil, hprivate,
    hpublic]
  simp only [Call.items, List.mem_cons, List.not_mem_nil, or_false] at hitem
  rcases hitem with rfl | rfl <;>
    cases s.fault? .delete Item.privateKey.name <;>
    cases s.fault? .delete Item.publicKey.name <;>
    simp [changed, change, SortedMap.get?_erase, hne, hne.symm]

/-- **Faults are contained**, as long as none of them passes for an absent item. -/
theorem faults_contained
    (hfaults : ∀ access name e, s.fault? access name = some e → e.kind ≠ .absent) :
    s.FaultsContained where
  frame _ _ hname := (after_run hfaults _ hname).2
  success call s' hrun := by
    obtain ⟨accesses, hplan, -, rfl⟩ := run_ok hfaults hrun
    exact ⟨_, run_withoutFaults hplan, rfl⟩
  single _ _ _ hitems hrun := single_error hfaults hitems hrun
  setKeys _ _ _ hrun := setKeys_error hfaults hrun
  deleteKeys _ hitem := get?_after_deleteKeys hfaults hitem
  deleteKeys_ok s' hrun item hitem := by
    have hcall : Call.deleteKeys.run s = .ok () s' := hrun
    obtain ⟨accesses, hplan, hnone, -⟩ := run_ok hfaults hcall
    cases hplan
    have hfault : s.fault? .delete item.name = none := by
      simp only [Call.items, List.mem_cons, List.not_mem_nil, or_false] at hitem
      rcases hitem with rfl | rfl
      · exact List.findSome?_eq_none_iff.1 hnone (.delete .privateKey) List.mem_cons_self
      · exact List.findSome?_eq_none_iff.1 hnone (.delete .publicKey) (by simp)
    rw [← Update.after_of_ok hrun, get?_after_deleteKeys hfaults hitem, hfault]
    rfl
  deleteKeys_error e := by
    have hfirst : [Access.delete .privateKey, .delete .publicKey].findSome? s.faultOf
        = (s.faultOf (.delete .privateKey)).or (s.faultOf (.delete .publicKey)) := by
      rw [List.findSome?_cons, List.findSome?_singleton]
      cases s.faultOf (.delete .privateKey) <;> rfl
    have hplan : Call.deleteKeys.plan = .ok [.delete .privateKey, .delete .publicKey] := rfl
    exact (failure_iff hfaults hplan).trans (by rw [hfirst]; rfl)
  finishUpdate _ _ hrun := pair_error .finishUpdate hfaults nofun rfl hrun
  refusal _ _ hplan := refusal_eq hfaults hplan
  failure _ _ _ hplan := failure_iff hfaults hplan

/-- Both keys, of which the private one cannot be deleted. -/
def stuckKey : MemoryStorage where
  items := .ofList [(Item.privateKey.name, [1]), (Item.publicKey.name, [2])]
  fault? access name :=
    if access = .delete ∧ name = Item.privateKey.name then some .timeout else none

theorem faults_contained_stuckKey :
    stuckKey.FaultsContained ∧
      Vault.deleteKeys stuckKey = .error .timeout (Vault.deleteKeys.after stuckKey) ∧
      (Vault.deleteKeys.after stuckKey).items.toList = [(Item.privateKey.name, [1])] := by
  refine ⟨faults_contained fun access name e he => ?_, rfl, by decide⟩
  dsimp only [stuckKey] at he
  split at he
  · cases he
    decide
  · cases he

end UpdateVault.MemoryStorage
