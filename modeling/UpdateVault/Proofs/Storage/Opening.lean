import UpdateVault.Proofs.Disk.Frame
import UpdateVault.Storage.Directory

/-!
# Opening a directory

Opening takes the temporary files in reach away (`node?_sweep_of_leftover`) and leaves everything
else as it is (`node?_sweep_of_not_leftover`). The path of an opened directory leads to it
(`open_eq_ok`), and a directory that is there is only swept (`open_of_find`).
-/

namespace UpdateVault.ItemDirectory

open Disk (Keeps)

variable {root : Path} {s : ItemDirectory} {d d' : Disk} {place other : Location} {name : String}

/-! ## What opening takes away -/

/-- A temporary file directly in a directory, with a path that calls take. -/
def Leftover (root : Path) (directory : Location) (d : Disk) (other : Location) : Prop :=
  ∃ name content, other = name :: directory ∧ d.node? other = some (.file content) ∧
    isTemporary name = true ∧ reachFault? root name = none

theorem isLeftover_iff {node : Node} (h : d.node? other = some node) :
    isLeftover root place other node = true ↔ Leftover root place d other := by
  constructor
  · intro hleft
    rcases node with _ | content
    · cases hleft
    · cases other with
      | nil => cases hleft
      | cons name rest =>
        simp only [isLeftover, Bool.and_eq_true, decide_eq_true_eq, Option.isNone_iff_eq_none]
          at hleft
        obtain ⟨⟨rfl, htemporary⟩, hreach⟩ := hleft
        exact ⟨name, content, rfl, h, htemporary, hreach⟩
  · rintro ⟨name, content, rfl, hnode, htemporary, hreach⟩
    rw [hnode] at h
    cases h
    simp [isLeftover, htemporary, hreach]

theorem node?_sweep (place other : Location) :
    (sweep d root place).node? other = if other = [] then some .directory
      else (d.nodes.get? other).filter fun node => !isLeftover root place other node := by
  rw [Disk.node?]
  split
  · rfl
  · exact SortedMap.get?_filter ..

/-- What is kept is what was there. -/
theorem node?_sweep_of_none {place other : Location} (h : d.node? other = none) :
    (sweep d root place).node? other = none := by
  rw [node?_sweep]
  rw [Disk.node?] at h
  split
  · rename_i hnil
    rw [if_pos hnil] at h
    cases h
  · rename_i hne
    rw [if_neg hne] at h
    rw [h]
    rfl

theorem node?_sweep_of_leftover (h : Leftover root place d other) :
    (sweep d root place).node? other = none := by
  have ⟨_, content, _, hnode, _⟩ := h
  have hne : other ≠ [] := Disk.file_ne_nil hnode
  have hget : d.nodes.get? other = some (.file content) := by rwa [Disk.node?, if_neg hne] at hnode
  rw [node?_sweep, if_neg hne, hget, Option.filter, (isLeftover_iff hnode).2 h]
  rfl

theorem node?_sweep_of_not_leftover (h : ¬ Leftover root place d other) :
    (sweep d root place).node? other = d.node? other := by
  cases hnode : d.node? other with
  | none => exact node?_sweep_of_none hnode
  | some node =>
    by_cases hnil : other = []
    · subst hnil
      exact hnode
    · have hget : d.nodes.get? other = some node := by rwa [Disk.node?, if_neg hnil] at hnode
      have hkept : isLeftover root place other node = false :=
        Bool.eq_false_iff.2 (mt (isLeftover_iff hnode).1 h)
      rw [node?_sweep, if_neg hnil, hget, Option.filter, hkept]
      rfl

/-- Directories are left alone. -/
theorem keeps_sweep (place : Location) : Keeps d (sweep d root place) := by
  refine ⟨rfl, fun other hother => (node?_sweep_of_not_leftover ?_).trans hother⟩
  rintro ⟨name, content, -, hnode, -⟩
  rw [hother] at hnode
  cases hnode

/-- What opening sweeps away is no directory. -/
theorem directory_sweep_iff :
    (sweep d root place).node? other = some .directory ↔ d.node? other = some .directory := by
  refine ⟨fun hnode => ?_, (keeps_sweep place).directory other⟩
  by_cases hleft : Leftover root place d other
  · rw [node?_sweep_of_leftover hleft] at hnode
    cases hnode
  · rwa [node?_sweep_of_not_leftover hleft] at hnode

/-- A file that is not a temporary one stays. -/
theorem node?_sweep_of_name (hname : isTemporary name = false) {parent : Location} :
    (sweep d root place).node? (name :: parent) = d.node? (name :: parent) := by
  refine node?_sweep_of_not_leftover ?_
  rintro ⟨name', content, hname', -, htemporary, -⟩
  cases hname'
  rw [hname] at htemporary
  cases htemporary

/-- Nothing that opening takes away is left. -/
theorem not_leftover_sweep : ¬ Leftover root place (sweep d root place) other := by
  rintro ⟨name, content, hother, hnode, hname⟩
  by_cases hleft : Leftover root place d other
  · rw [node?_sweep_of_leftover hleft] at hnode
    cases hnode
  · rw [node?_sweep_of_not_leftover hleft] at hnode
    exact hleft ⟨name, content, hother, hnode, hname⟩

theorem sweep_eq_self (h : ∀ other, ¬ Leftover root place d other) : sweep d root place = d := by
  have hnodes : d.nodes.filter (fun other node => !isLeftover root place other node) = d.nodes := by
    ext1 other
    rw [SortedMap.get?_filter]
    cases hget : d.nodes.get? other with
    | none => rfl
    | some node =>
      have hkept : isLeftover root place other node = false := by
        by_cases hnil : other = []
        · subst hnil
          cases node <;> rfl
        · have hnode : d.node? other = some node := by rwa [Disk.node?, if_neg hnil]
          exact Bool.eq_false_iff.2 (mt (isLeftover_iff hnode).1 (h other))
      rw [Option.filter, hkept]
      rfl
  rw [sweep, hnodes]

theorem not_isTemporary_of_isItemName {name : String} (h : isItemName name = true) :
    isTemporary name = false := by
  simp only [isItemName, Bool.and_eq_true, Bool.not_eq_true'] at h
  exact h.2

/-- No item has the name of a temporary file. -/
theorem node?_sweep_of_isItemName (h : isItemName name = true) :
    (sweep d root place).node? (fileOf place name) = d.node? (fileOf place name) :=
  node?_sweep_of_name (not_isTemporary_of_isItemName h)

/-! ## Opening -/

theorem open_eq_ok (h : «open» root d = .ok s d') :
    s.root = root ∧ s.disk.find root = .ok (s.place, .directory) := by
  rw [«open»] at h
  split at h
  · cases h
  · rename_i d₁ hmake
    split at h
    · cases h
    · rename_i place node hfind
      cases h
      obtain ⟨place', hfound⟩ := Disk.leadsTo_of_makePath (Disk.nonempty_of_find hfind) hmake
      rw [hfound] at hfind
      cases hfind
      exact ⟨rfl, Disk.find_of_keeps (keeps_sweep place) hfound⟩

/-- An opened directory is on the disk that is left: directories were made, and temporary files
swept away. -/
theorem eq_of_open (h : «open» root d = .ok s d') :
    s = ⟨root, s.place, d'⟩ ∧ ∃ d₁, d.OnlyAddsDirectories d₁ ∧ d' = sweep d₁ root s.place := by
  rw [«open»] at h
  split at h
  · cases h
  · rename_i d₁ hmake
    split at h
    · cases h
    · cases h
      exact ⟨rfl, d₁, Disk.onlyAdds_of_makePath hmake, rfl⟩

/-- What was swept away is not there to be swept away again. -/
theorem not_leftover_of_open (h : «open» root d = .ok s d') :
    ¬ Leftover root s.place d' other := by
  obtain ⟨-, d₁, -, hswept⟩ := eq_of_open h
  rw [hswept]
  exact not_leftover_sweep

/-- A directory that is there is opened as it is, but for what is swept away. -/
theorem open_of_find {place : Location} (h : d.find root = .ok (place, .directory)) :
    «open» root d = .ok ⟨root, place, sweep d root place⟩ (sweep d root place) := by
  rw [«open», Disk.makePath_eq h]
  simp only [h]

end UpdateVault.ItemDirectory
