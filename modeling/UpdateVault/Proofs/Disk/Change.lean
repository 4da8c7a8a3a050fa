import UpdateVault.Proofs.Disk.Walk

/-!
# Files that are replaced and removed

What the two changes of a file leave at every place: `replace_eq` and `remove_eq`. Both keep all
directories.
-/

namespace UpdateVault.Disk

variable {d d' : Disk} {place temporary target : Location} {data : Bytes}

/-- An entry may have the name of a place. -/
def Nameable (place : Location) : Prop := place ≠ [] ∧ place.head?.bind nameFault? = none

theorem entry?_eq (h : Nameable place) : d.entry? place = .ok (d.node? place) := by
  unfold entry?
  rw [h.2]

theorem node?_clear (hplace : place ≠ []) (other : Location) :
    (d.clear place).node? other = if other = place then none else d.node? other := by
  by_cases h : other = place
  · subst h
    rw [if_pos rfl, node?, if_neg hplace]
    exact SortedMap.get?_erase_self ..
  · rw [if_neg h, node?, node?]
    congr 1
    exact SortedMap.get?_erase_ne d.nodes h

theorem fileAt_eq_ok_iff (h : Nameable place) :
    d.fileAt place = .ok data ↔ d.node? place = some (.file data) := by
  rw [fileAt, entry?_eq h]
  cases hnode : d.node? place with
  | none => simp [bind, Except.bind, throw, throwThe, MonadExceptOf.throw]
  | some node =>
    cases node <;> simp [bind, Except.bind, throw, throwThe, MonadExceptOf.throw, pure, Except.pure]

theorem fileAt_of_none (h : Nameable place) (hnode : d.node? place = none) :
    d.fileAt place = .error .noSuchFile := by
  rw [fileAt, entry?_eq h, hnode]
  rfl

theorem fileAt_of_directory (h : Nameable place) (hnode : d.node? place = some .directory) :
    d.fileAt place = .error .isDirectory := by
  rw [fileAt, entry?_eq h, hnode]
  rfl

/-! ## The primitive changes -/

theorem create_eq (h : Nameable place) (hnode : d.node? place ≠ some .directory) :
    (Change.create place).apply d = .ok (d.set place (.file [])) := by
  simp only [Change.apply, entry?_eq h, bind, Except.bind]
  rfl

theorem append_eq (h : Nameable place) {content : Bytes}
    (hnode : d.node? place = some (.file content)) :
    (Change.append place data).apply d = .ok (d.set place (.file (content ++ data))) := by
  simp only [Change.apply, (fileAt_eq_ok_iff h).2 hnode, bind, Except.bind]
  rfl

theorem rename_eq (hsource : Nameable temporary) (htarget : Nameable target)
    (hnode : d.node? temporary = some (.file data)) (hfree : d.node? target ≠ some .directory) :
    (Change.rename temporary target).apply d
      = .ok ((d.clear temporary).set target (.file data)) := by
  simp only [Change.apply, (fileAt_eq_ok_iff hsource).2 hnode, entry?_eq htarget, bind,
    Except.bind]
  rfl

theorem create_of_directory (h : Nameable place) (hnode : d.node? place = some .directory) :
    (Change.create place).apply d = .error .isDirectory := by
  simp only [Change.apply, entry?_eq h, hnode, bind, Except.bind]
  rfl

theorem rename_of_directory (hsource : Nameable temporary) (htarget : Nameable target)
    (hnode : d.node? temporary = some (.file data)) (hway : d.node? target = some .directory) :
    (Change.rename temporary target).apply d = .error .isDirectory := by
  simp only [Change.apply, (fileAt_eq_ok_iff hsource).2 hnode, entry?_eq htarget, hway, bind,
    Except.bind]
  rfl

/-! ## Replacing and removing -/

/-- Nothing but files at two places changes. -/
theorem keeps_of_files (hhere : d'.here = d.here) (htemporary : d.node? temporary ≠ some .directory)
    (htarget : d.node? target ≠ some .directory)
    (hsame : ∀ other, other ≠ temporary → other ≠ target → d'.node? other = d.node? other) :
    Keeps d d' := by
  refine ⟨hhere, fun other hother => ?_⟩
  rw [hsame other, hother]
  · rintro rfl
    exact htemporary hother
  · rintro rfl
    exact htarget hother

/-- **A replaced file has the data, and the temporary sibling is gone.** -/
theorem replace_eq (data : Bytes) (htemporary : Nameable temporary) (htarget : Nameable target)
    (hne : temporary ≠ target) (hfree : d.node? temporary ≠ some .directory)
    (hfile : d.node? target ≠ some .directory) :
    ∃ d', replace temporary target data d = .ok () d' ∧ Keeps d d' ∧
      ∀ other, d'.node? other = if other = target then some (.file data)
        else if other = temporary then none else d.node? other := by
  have hset := fun (d : Disk) node => node?_set (d := d) htemporary.1 node
  have hcreated : (d.set temporary (.file [])).node? temporary = some (.file []) := by
    rw [hset, if_pos rfl]
  have happended : ((d.set temporary (.file [])).set temporary (.file data)).node? temporary
      = some (.file data) := by rw [hset, if_pos rfl]
  have hother : ((d.set temporary (.file [])).set temporary (.file data)).node? target
      ≠ some .directory := by
    rw [hset, if_neg hne.symm, hset, if_neg hne.symm]
    exact hfile
  refine ⟨(((d.set temporary (.file [])).set temporary (.file data)).clear temporary).set target
    (.file data), ?_, ?_⟩
  · rw [replace, replaceChanges, run, create_eq htemporary hfree]
    simp only [run, append_eq htemporary hcreated, List.nil_append]
    rw [rename_eq htemporary htarget happended hother]
  · have hnode : ∀ other, ((((d.set temporary (.file [])).set temporary (.file data)).clear
        temporary).set target (.file data)).node? other = if other = target then
          some (.file data) else if other = temporary then none else d.node? other := by
      intro other
      rw [node?_set htarget.1]
      by_cases h : other = temporary
      · rw [node?_clear htemporary.1, if_pos h, if_pos h]
      · rw [node?_clear htemporary.1, if_neg h, if_neg h, hset, if_neg h, hset, if_neg h]
    refine ⟨keeps_of_files rfl hfree hfile fun other h h' => ?_, hnode⟩
    rw [hnode, if_neg h', if_neg h]

/-- **A removed file is gone.** -/
theorem remove_eq (h : Nameable place) (hnode : d.node? place = some (.file data)) :
    ∃ d', (Change.remove place).apply d = .ok d' ∧ Keeps d d' ∧
      ∀ other, d'.node? other = if other = place then none else d.node? other := by
  have hfile : d.node? place ≠ some .directory := by rw [hnode]; nofun
  refine ⟨d.clear place, ?_, keeps_of_files rfl hfile hfile fun other hne _ => ?_,
    node?_clear h.1⟩
  · simp only [Change.apply, (fileAt_eq_ok_iff h).2 hnode]
    rfl
  · rw [node?_clear h.1, if_neg hne]

theorem remove_of_none (h : Nameable place) (hnode : d.node? place = none) :
    (Change.remove place).apply d = .error .noSuchFile := by
  simp only [Change.apply, fileAt_of_none h hnode]
  rfl

theorem remove_of_directory (h : Nameable place) (hnode : d.node? place = some .directory) :
    (Change.remove place).apply d = .error .isDirectory := by
  simp only [Change.apply, fileAt_of_directory h hnode]
  rfl

end UpdateVault.Disk
