import UpdateVault.Proofs.Disk.Change
import UpdateVault.Proofs.Storage.Kept
import UpdateVault.Proofs.Storage.Opening

/-!
# A directory keeps its items

`keptItems`: a directory whose paths are not too long is a storage that keeps its items, also when
it is opened anew. `tidy_of_open`: so is one that was opened and is empty.
-/

namespace UpdateVault.ItemDirectory

open Disk (Keeps Nameable nameFault?)

variable {root : Path} {s : ItemDirectory} {d d' : Disk} {data : Bytes}

/-- A directory opened anew at its path. -/
def reopen (s : ItemDirectory) : Except StorageError ItemDirectory :=
  match «open» s.root s.disk with
  | .ok s' _ => .ok s'
  | .error e _ => .error e

/-- The paths of all items are ones that calls take. -/
def InReach (root : Path) : Prop := ∀ item : Item, reachFault? root item.name = none

/-- The path leads to the directory, where items are files, and no temporary file is left. -/
structure Tidy (root : Path) (s : ItemDirectory) : Prop where
  root_eq : s.root = root
  found : s.disk.find root = .ok (s.place, .directory)
  files : ∀ item : Item, s.disk.node? (fileOf s.place item.name) ≠ some .directory
  temporaries : ∀ item : Item, s.disk.node? (temporaryOf s.place item.name) = none

/-- What a directory holds of an item. -/
def stored? (s : ItemDirectory) (item : Item) : Option Bytes :=
  match s.disk.node? (fileOf s.place item.name) with
  | some (.file content) => some content
  | _ => none

/-! ## Names -/

theorem isItemName_name (item : Item) : isItemName item.name = true := by
  cases item <;> decide

theorem nameable_fileOf (place : Location) (item : Item) :
    Nameable (fileOf place item.name) := by
  have hname : nameFault? item.name = none := by cases item <;> decide
  exact ⟨List.cons_ne_nil _ _, hname⟩

theorem nameable_temporaryOf (place : Location) (item : Item) :
    Nameable (temporaryOf place item.name) := by
  have hname : nameFault? (item.name ++ temporarySuffix) = none := by cases item <;> decide
  exact ⟨List.cons_ne_nil _ _, hname⟩

theorem temporaryOf_ne_fileOf (place : Location) (item other : Item) :
    temporaryOf place item.name ≠ fileOf place other.name := by
  have hne : item.name ++ temporarySuffix ≠ other.name := by cases item <;> cases other <;> decide
  exact fun h => hne (List.cons.inj h).1

theorem fileOf_ne_fileOf (place : Location) {item other : Item} (h : other ≠ item) :
    fileOf place other.name ≠ fileOf place item.name :=
  fun heq => h (Item.name_injective (List.cons.inj heq).1)

theorem temporaryOf_ne_temporaryOf (place : Location) {item other : Item} (h : other ≠ item) :
    temporaryOf place other.name ≠ temporaryOf place item.name := by
  have hne : other.name ++ temporarySuffix ≠ item.name ++ temporarySuffix := by
    revert h
    cases item <;> cases other <;> decide
  exact fun heq => hne (List.cons.inj heq).1

theorem isTemporary_append (name : String) : isTemporary (name ++ temporarySuffix) = true := by
  rw [isTemporary, Text.endsWith, String.toList_append, List.isSuffixOf_iff_suffix]
  exact List.suffix_append _ _

theorem temporaryOf_ne (place : Location) (name : String) :
    temporaryOf place name ≠ fileOf place name := by
  intro h
  have hname : name ++ temporarySuffix = name := (List.cons.inj h).1
  have hsize := congrArg String.utf8ByteSize hname
  rw [String.utf8ByteSize_append] at hsize
  exact absurd hsize (by simp [temporarySuffix])

/-! ## Reach -/

theorem pathFault?_of_extend {p : Path} {suffix : String}
    (h : Disk.pathFault? (p.extend suffix) = none) : Disk.pathFault? p = none := by
  rw [Disk.pathFault?_eq_none_iff, Path.extend, String.toList_append, List.mem_append, not_or,
    String.utf8ByteSize_append] at h
  exact Disk.pathFault?_eq_none_iff.2 ⟨h.1.1, by omega⟩

/-- Where a name is in reach, every shorter one is that can be one at all. -/
theorem reach_of_longer {name longer : String} (hrelative : Path.isAbsolute ⟨name⟩ = false)
    (hrelative' : Path.isAbsolute ⟨longer⟩ = false) (hnul : '\x00' ∉ name.toList)
    (hsize : name.utf8ByteSize ≤ longer.utf8ByteSize) (h : reachFault? root longer = none) :
    reachFault? root name = none := by
  rw [reachFault?, Disk.pathFault?_eq_none_iff, Path.join, hrelative]
  rw [reachFault?, Disk.pathFault?_eq_none_iff, Path.join, hrelative'] at h
  cases hslash : root.text.isEmpty || root.endsInSlash <;>
    simp only [hslash, Bool.false_eq_true, if_false, if_true, String.toList_append,
      String.utf8ByteSize_append, List.mem_append, not_or] at h ⊢
  · exact ⟨⟨h.1.1, hnul⟩, by omega⟩
  · exact ⟨⟨h.1.1, hnul⟩, by omega⟩

theorem not_isAbsolute_name (item : Item) : Path.isAbsolute ⟨item.name⟩ = false := by
  cases item <;> decide

/-- The file of an item has the shorter path than its temporary file. -/
theorem reach_of_temporary {item : Item}
    (h : reachFault? root (item.name ++ temporarySuffix) = none) :
    reachFault? root item.name = none := by
  refine reach_of_longer (not_isAbsolute_name item) ?_ ?_ ?_ h
  · cases item <;> decide
  · cases item <;> decide
  · rw [String.utf8ByteSize_append]
    exact Nat.le_add_right _ _

/-! ## Opening -/

/-- No item has the name of a temporary file. -/
theorem node?_sweep_fileOf (place : Location) (item : Item) :
    (sweep d root place).node? (fileOf place item.name) = d.node? (fileOf place item.name) :=
  node?_sweep_of_isItemName (isItemName_name item)

/-- An opened directory without entries is tidy. -/
theorem tidy_of_open (h : «open» root d = .ok s d')
    (hempty : ∀ name, s.disk.node? (name :: s.place) = none) :
    s.Tidy root ∧ s.stored? = fun _ => none := by
  obtain ⟨hroot, hfound⟩ := open_eq_ok h
  refine ⟨⟨hroot, hfound, fun item => ?_, fun item => hempty _⟩, ?_⟩
  · rw [fileOf, hempty]
    nofun
  · funext item
    rw [stored?, fileOf, hempty]

/-! ## Items -/

/-- What is read of an item in reach is what is in the place of its file. -/
theorem read_of_reach {item : Item} (hreach : reachFault? s.root item.name = none) :
    s.read item.name = match s.disk.node? (fileOf s.place item.name) with
      | none | some (.file []) => .error (.notFound item.name)
      | some .directory => .error (.io .isDirectory)
      | some (.file (b :: rest)) => .ok (b :: rest) := by
  have hname := nameable_fileOf s.place item
  rw [read, if_pos (isItemName_name item), hreach]
  cases hnode : s.disk.node? (fileOf s.place item.name) with
  | none => rw [Disk.fileAt_of_none hname hnode]
  | some node =>
    cases node with
    | directory => rw [Disk.fileAt_of_directory hname hnode]
    | file content =>
      rw [(Disk.fileAt_eq_ok_iff hname).2 hnode]
      cases content <;> rfl

/-- What is read depends on what is in the place of the file only. -/
theorem read_congr {t : ItemDirectory} {item : Item} (hroot : t.root = s.root)
    (hnode : t.disk.node? (fileOf t.place item.name) = s.disk.node? (fileOf s.place item.name)) :
    t.read item.name = s.read item.name := by
  cases hreach : reachFault? s.root item.name with
  | none => rw [read_of_reach hreach, read_of_reach (hroot ▸ hreach), hnode]
  | some e =>
    rw [read, read, if_pos (isItemName_name item), if_pos (isItemName_name item), hroot, hreach]

/-- An item in reach can be written unless directories are in the way. -/
theorem write_of_reach {item : Item} (data : Bytes)
    (hreach : reachFault? s.root (item.name ++ temporarySuffix) = none)
    (htemporary : s.disk.node? (temporaryOf s.place item.name) ≠ some .directory)
    (hfile : s.disk.node? (fileOf s.place item.name) ≠ some .directory) :
    ∃ d, write item.name data s = .ok () { s with disk := d } ∧ Keeps s.disk d ∧
      ∀ other, d.node? other = if other = fileOf s.place item.name then some (.file data)
        else if other = temporaryOf s.place item.name then none else s.disk.node? other := by
  obtain ⟨d, hreplace, hk, hnode⟩ := Disk.replace_eq data
    (nameable_temporaryOf s.place item) (nameable_fileOf s.place item)
    (temporaryOf_ne_fileOf s.place item item) htemporary hfile
  refine ⟨d, ?_, hk, hnode⟩
  simp only [write, if_pos (isItemName_name item), hreach, onDisk, hreplace]

/-- All that there is to a write that succeeds. -/
theorem write_eq_ok {name : String} {s' : ItemDirectory} (h : write name data s = .ok () s') :
    isItemName name = true ∧ reachFault? s.root (name ++ temporarySuffix) = none ∧
      s' = { s with disk := s'.disk } ∧
      Disk.replace (temporaryOf s.place name) (fileOf s.place name) data s.disk
        = .ok () s'.disk := by
  rw [write] at h
  split at h
  · rename_i hname
    split at h
    · cases h
    · rename_i hreach
      rw [onDisk] at h
      split at h
      · rename_i hreplace
        cases h
        exact ⟨hname, hreach, rfl, hreplace⟩
      · cases h
  · cases h

theorem write_of_fault {item : Item} {e : IoError}
    (hfault : reachFault? s.root (item.name ++ temporarySuffix) = some e) :
    write item.name data s = .error (.io e) s := by
  simp only [write, if_pos (isItemName_name item), hfault]

namespace Tidy

theorem reopen_eq (h : s.Tidy root) :
    ∃ s', s.reopen = .ok s' ∧ s'.Tidy root ∧ s'.stored? = s.stored? := by
  have hfound := h.found
  rw [← h.root_eq] at hfound
  refine ⟨{ root := s.root, place := s.place, disk := sweep s.disk s.root s.place }, ?_, ?_, ?_⟩
  · rw [reopen, open_of_find hfound]
  · refine ⟨h.root_eq, Disk.find_of_keeps (keeps_sweep s.place) h.found, fun item => ?_,
      fun item => node?_sweep_of_none (h.temporaries item)⟩
    show (sweep s.disk s.root s.place).node? (fileOf s.place item.name) ≠ _
    rw [node?_sweep_fileOf]
    exact h.files item
  · funext item
    rw [stored?, stored?]
    show (match (sweep s.disk s.root s.place).node? (fileOf s.place item.name) with
      | some (.file content) => some content
      | _ => none) = _
    rw [node?_sweep_fileOf]

/-- When the file of one item changes, the directory stays tidy and the others keep their data. -/
theorem withDisk (h : s.Tidy root) (item : Item) (content? : Option Bytes)
    (hk : Keeps s.disk d)
    (hfile : d.node? (fileOf s.place item.name) = content?.map .file)
    (hsame : ∀ other : Location, other ≠ fileOf s.place item.name →
      other ≠ temporaryOf s.place item.name → d.node? other = s.disk.node? other)
    (htemporary : d.node? (temporaryOf s.place item.name) = none) :
    Tidy root { s with disk := d } ∧
      stored? { s with disk := d } = Function.update s.stored? item content? := by
  have hother : ∀ {other : Item}, other ≠ item →
      d.node? (fileOf s.place other.name) = s.disk.node? (fileOf s.place other.name) :=
    fun ho => hsame _ (fileOf_ne_fileOf s.place ho) (temporaryOf_ne_fileOf s.place item _).symm
  -- for the item itself by what its file became, for any other one as nothing else changed
  refine ⟨⟨h.root_eq, Disk.find_of_keeps hk h.found, fun other => ?_, fun other => ?_⟩, ?_⟩
  · by_cases ho : other = item
    · subst ho
      show d.node? (fileOf s.place other.name) ≠ _
      rw [hfile]
      cases content? <;> nofun
    · show d.node? (fileOf s.place other.name) ≠ _
      rw [hother ho]
      exact h.files other
  · by_cases ho : other = item
    · subst ho
      exact htemporary
    · show d.node? (temporaryOf s.place other.name) = none
      rw [hsame _ (temporaryOf_ne_fileOf s.place other item)
        (temporaryOf_ne_temporaryOf s.place ho)]
      exact h.temporaries other
  · funext other
    by_cases ho : other = item
    · subst ho
      rw [Function.update_self, stored?]
      simp only [hfile]
      cases content? <;> rfl
    · rw [Function.update_of_ne ho, stored?, stored?]
      simp only [hother ho]

theorem read_eq (hreach : InReach root) (h : s.Tidy root) (item : Item) :
    s.read item.name = item.answer (s.stored? item) := by
  have hfault : reachFault? s.root item.name = none := by rw [h.root_eq]; exact hreach item
  rw [read_of_reach hfault, stored?]
  cases hnode : s.disk.node? (fileOf s.place item.name) with
  | none => rfl
  | some node =>
    cases node with
    | directory => exact absurd hnode (h.files item)
    | file content => cases content <;> rfl

/-- A write fails only if no call takes the path of the temporary file. -/
theorem write_cases (h : s.Tidy root) (item : Item) (data : Bytes) :
    (∃ s', write item.name data s = .ok () s' ∧ s'.Tidy root ∧
      s'.stored? = Function.update s.stored? item (some data)) ∨
    ∃ e, write item.name data s = .error e s := by
  cases hfault : reachFault? s.root (item.name ++ temporarySuffix) with
  | some e => exact .inr ⟨.io e, write_of_fault hfault⟩
  | none =>
    refine .inl ?_
    have hne := temporaryOf_ne_fileOf s.place item item
    have hfree : s.disk.node? (temporaryOf s.place item.name) ≠ some .directory := by
      rw [h.temporaries item]
      nofun
    obtain ⟨d, hwrite, hk, hnode⟩ := write_of_reach data hfault hfree (h.files item)
    have hfile : d.node? (fileOf s.place item.name) = some (.file data) := by
      rw [hnode, if_pos rfl]
    refine ⟨{ s with disk := d }, hwrite, h.withDisk item (some data) hk hfile ?_ ?_⟩
    · intro other h1 h2
      rw [hnode, if_neg h1, if_neg h2]
    · rw [hnode, if_neg hne, if_pos rfl]

theorem delete_eq (hreach : InReach root) (h : s.Tidy root) (item : Item) :
    ∃ s', s'.Tidy root ∧ s'.stored? = Function.update s.stored? item none ∧
      delete item.name s = item.deletion (s.stored? item) s' := by
  have hfault : reachFault? s.root item.name = none := by rw [h.root_eq]; exact hreach item
  have hname := nameable_fileOf s.place item
  cases hnode : s.disk.node? (fileOf s.place item.name) with
  | none =>
    have hstored : s.stored? item = none := by rw [stored?, hnode]
    refine ⟨s, h, (Function.update_eq_self_iff.2 hstored.symm).symm, ?_⟩
    rw [hstored]
    simp only [delete, if_pos (isItemName_name item), hfault, Disk.remove_of_none hname hnode]
    rfl
  | some node =>
    cases node with
    | directory => exact absurd hnode (h.files item)
    | file content =>
      have hstored : s.stored? item = some content := by rw [stored?, hnode]
      obtain ⟨d, hremove, hk, hafter⟩ := Disk.remove_eq hname hnode
      have hfile : d.node? (fileOf s.place item.name) = none := by rw [hafter, if_pos rfl]
      have hafter' := h.withDisk item none hk hfile
        (fun other h1 _ => by rw [hafter, if_neg h1])
        (by rw [hafter, if_neg (temporaryOf_ne_fileOf s.place item item), h.temporaries item])
      refine ⟨{ s with disk := d }, hafter'.1, hafter'.2, ?_⟩
      rw [hstored]
      simp only [delete, if_pos (isItemName_name item), hfault, hremove]
      rfl

end Tidy

/-- **A directory keeps its items** as long as their paths are not too long. -/
def keptItems (hreach : InReach root) : KeptItems ItemDirectory reopen where
  Valid := Tidy root
  stored? := stored?
  read_eq := fun item h => h.read_eq hreach item
  write_cases := fun {s} item data h => by
    rcases h.write_cases item data with hok | ⟨e, herror⟩
    · exact .inl hok
    · exact .inr ⟨e, s, herror, h, rfl⟩
  delete_eq := fun item h => by
    obtain ⟨s', htidy, hstored, hdelete⟩ := h.delete_eq hreach item
    exact ⟨s', Vault.delete_of_deletion hdelete, htidy, hstored⟩
  reopen_eq := fun h => h.reopen_eq

/-! ## Paths that are too long -/

/-- A path to the top with so many slashes. -/
def slashes (n : Nat) : Path := ⟨String.ofList (List.replicate n '/')⟩

variable {n : Nat}

theorem names_slashes : (slashes n).names = [] := by
  have hpieces : Text.pieces '/' (List.replicate n '/') = List.replicate (n + 1) [] := by
    induction n with
    | zero => rfl
    | succ n ih => rw [List.replicate_succ, Text.pieces, if_pos rfl, ih, ← List.replicate_succ]
  rw [Path.names, slashes, String.toList_ofList, hpieces]
  simp

theorem size_slashes : (slashes n).text.utf8ByteSize = n := by
  rw [slashes]
  induction n with
  | zero => rfl
  | succ n ih =>
    rw [List.replicate_succ, String.ofList_cons, String.utf8ByteSize_append,
      String.utf8ByteSize_singleton, ih, Nat.add_comm]
    rfl

theorem toList_slashes : (slashes n).text.toList = List.replicate n '/' := String.toList_ofList

theorem find_slashes (d : Disk) (hpos : 0 < n) (h : n ≤ Disk.maxPathLength) :
    d.find (slashes n) = .ok ([], .directory) := by
  refine Disk.find_eq_directory_iff.2 ⟨[], ?_, ?_⟩
  · have hfault : Disk.pathFault? (slashes n) = none := by
      rw [Disk.pathFault?, toList_slashes, size_slashes, if_neg, if_neg (Nat.not_lt.2 h)]
      simp
    have hne : (slashes n).text.isEmpty = false := by
      rw [String.isEmpty_eq_utf8ByteSize_beq_zero, size_slashes]
      simpa using Nat.pos_iff_ne_zero.1 hpos
    have habsolute : (slashes n).isAbsolute = true := by
      rw [Path.isAbsolute, toList_slashes]
      simp [List.head?_replicate, Nat.pos_iff_ne_zero.1 hpos]
    rw [Disk.start, hfault, hne, habsolute]
    rfl
  · rw [names_slashes]
    exact ⟨rfl, rfl⟩

/-- What is in reach under a path is what leaves it short enough. -/
theorem reachFault?_slashes_eq {name : String} (hpos : 0 < n)
    (hrelative : Path.isAbsolute ⟨name⟩ = false) (hnul : name.toList.contains '\x00' = false) :
    reachFault? (slashes n) name
      = if Disk.maxPathLength < n + name.utf8ByteSize then some .nameTooLong else none := by
  have hjoin : (slashes n).join ⟨name⟩ = ⟨(slashes n).text ++ name⟩ := by
    have hslash : (slashes n).endsInSlash = true := by
      rw [Path.endsInSlash, toList_slashes]
      simp [List.getLast?_replicate, Nat.pos_iff_ne_zero.1 hpos]
    simp only [Path.join, hrelative, hslash, Bool.or_true, if_true, Bool.false_eq_true, if_false]
  have hnul' : ((slashes n).text ++ name).toList.contains '\x00' = false := by
    rw [String.toList_append, toList_slashes]
    simpa using hnul
  rw [reachFault?, hjoin, Disk.pathFault?, if_neg (by rw [hnul']; exact Bool.false_ne_true),
    String.utf8ByteSize_append, size_slashes]

/-- An item under a path that is just short enough is out of reach. -/
theorem reachFault?_slashes (hpos : 0 < n) (item : Item)
    (h : Disk.maxPathLength < n + item.name.utf8ByteSize) :
    reachFault? (slashes n) item.name = some .nameTooLong := by
  rw [reachFault?_slashes_eq hpos (by cases item <;> decide) (by cases item <;> decide), if_pos h]

/-- The top can be opened by a path that puts its items out of reach. -/
theorem open_slashes {item : Item} (hpos : 0 < n) (hopen : n ≤ Disk.maxPathLength)
    (hlong : Disk.maxPathLength < n + item.name.utf8ByteSize)
    (hempty : ∀ name, d.node? [name] = none) :
    ∃ s d', «open» (slashes n) d = .ok s d' ∧ (∀ name, s.disk.node? (name :: s.place) = none) ∧
      s.read item.name = .error (.io .nameTooLong) := by
  refine ⟨_, _, open_of_find (find_slashes d hpos hopen), fun name => ?_, ?_⟩
  · exact node?_sweep_of_none (hempty name)
  · rw [read, if_pos (isItemName_name item), reachFault?_slashes hpos item hlong]

end UpdateVault.ItemDirectory
