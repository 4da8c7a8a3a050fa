import UpdateVault.Proofs.Disk.Frame
import UpdateVault.Proofs.Disk.Path
import UpdateVault.Proofs.Storage.PowerLoss

/-!
# What a directory does with any name

`calls_contained`: a name that could lead out of the directory, or is that of a temporary file, is
refused. Any other one stands for one entry of the directory, and for one more while it is written.
A write that fails leaves the file as it was (`Contained`), and calls about other names do not
show.
-/

namespace UpdateVault

open Disk (ChangesFiles Nameable maxNameLength maxPathLength nameFault? pathFault?)

namespace ItemDirectory

variable {s s' s'' : ItemDirectory} {name other : String} {data : Bytes} {ps qs : List Location}
  {e : StorageError}

/-! ## Names -/

/-- The names that no item has. -/
def Refused (name : String) : Prop :=
  name = "" ∨ '/' ∈ name.toList ∨ '\\' ∈ name.toList ∨ name = "." ∨ name = ".." ∨
    ".tmp".toList <:+ name.toList

theorem isItemName_iff : isItemName name = true ↔ ¬ Refused name := by
  have hany : (name.toList.any fun c => c = '/' || c = '\\') = true ↔
      '/' ∈ name.toList ∨ '\\' ∈ name.toList := by
    rw [List.any_eq_true]
    constructor
    · rintro ⟨c, hc, hslash⟩
      rcases Bool.or_eq_true_iff.1 hslash with h | h
      · exact .inl (of_decide_eq_true h ▸ hc)
      · exact .inr (of_decide_eq_true h ▸ hc)
    · rintro (h | h)
      · exact ⟨_, h, by decide⟩
      · exact ⟨_, h, by decide⟩
  rw [Refused, isItemName, isTemporary, Text.endsWith, temporarySuffix]
  simp only [Bool.and_eq_true, Bool.not_eq_true', Bool.eq_false_iff, ne_eq, hany,
    List.isSuffixOf_iff_suffix, decide_eq_true_eq, String.isEmpty_iff, not_or, and_assoc]

theorem append_ne (h : isTemporary other = false) : name ++ temporarySuffix ≠ other := by
  rintro rfl
  rw [isTemporary_append] at h
  cases h

/-- Neither file of an item can lead out of the directory. -/
theorem slash_free (hname : isItemName name = true) :
    '/' ∉ name.toList ∧ '/' ∉ (name ++ temporarySuffix).toList := by
  have hplain := isItemName_iff.1 hname
  simp only [Refused, not_or] at hplain
  refine ⟨hplain.2.1, ?_⟩
  rw [String.toList_append, List.mem_append, not_or]
  exact ⟨hplain.2.1, by decide⟩

/-- A path below the directory with the name of an item leads to the file of the item, and with the
name of its temporary file to that one. -/
theorem place_of_find {place : Location} {node : Node}
    (hopen : s.disk.find s.root = .ok (s.place, .directory)) (hname : isItemName name = true) :
    (s.disk.find (s.root.join ⟨name⟩) = .ok (place, node) → place = fileOf s.place name) ∧
      (s.disk.find (s.root.join ⟨name ++ temporarySuffix⟩) = .ok (place, node) →
        place = temporaryOf s.place name) := by
  have hplain := isItemName_iff.1 hname
  simp only [Refused, not_or] at hplain
  obtain ⟨hne, -, -, hdot, hdots, -⟩ := hplain
  obtain ⟨hslash, hslash'⟩ := slash_free hname
  exact ⟨Disk.place_of_find_join hopen hne hslash hdot hdots,
    Disk.place_of_find_join hopen (append_ne (by decide)) hslash' (append_ne (by decide))
      (append_ne (by decide))⟩

/-! ## What a call may touch -/

/-- The same directory, in which nothing but files at the given places may have changed. -/
structure Confined (places : List Location) (s s' : ItemDirectory) : Prop where
  root_eq : s'.root = s.root
  place_eq : s'.place = s.place
  disk : ChangesFiles places s.disk s'.disk

namespace Confined

theorem refl (places : List Location) (s : ItemDirectory) : Confined places s s :=
  ⟨rfl, rfl, .refl places s.disk⟩

theorem withDisk {d : Disk} (h : ChangesFiles ps s.disk d) : Confined ps s { s with disk := d } :=
  ⟨rfl, rfl, h⟩

theorem eq_withDisk (h : Confined ps s s') : s' = { s with disk := s'.disk } := by
  rw [← h.root_eq, ← h.place_eq]

theorem mono (h : Confined ps s s') (hsub : ps ⊆ qs) : Confined qs s s' :=
  ⟨h.root_eq, h.place_eq, h.disk.mono hsub⟩

theorem trans (h : Confined ps s s') (h' : Confined ps s' s'') : Confined ps s s'' :=
  ⟨h'.root_eq.trans h.root_eq, h'.place_eq.trans h.place_eq, h.disk.trans h'.disk⟩

/-- The path leads to the directory still. -/
theorem find_root (h : Confined ps s s') (hopen : s.disk.find s.root = .ok (s.place, .directory)) :
    s'.disk.find s'.root = .ok (s'.place, .directory) := by
  rw [h.root_eq, h.place_eq]
  exact Disk.find_of_keeps h.disk.keeps hopen

/-- An item reads as before if its file is none that may have changed. -/
theorem read_eq (h : Confined ps s s') (hother : fileOf s.place other ∉ ps) :
    s'.read other = s.read other := by
  have hnode := h.disk.same _ hother
  have hfile : s'.disk.fileAt (fileOf s.place other) = s.disk.fileAt (fileOf s.place other) := by
    rw [Disk.fileAt, Disk.fileAt, Disk.entry?, Disk.entry?, hnode]
  rw [read, read, h.root_eq, h.place_eq, hfile]

end Confined

theorem after_onDisk (change : Update IoError Disk Unit) (s : ItemDirectory) :
    (onDisk change).after s = { s with disk := change.after s.disk } := by
  rw [Update.after, onDisk, Update.after]
  cases change s.disk <;> rfl

theorem write_of_isItemName (hname : isItemName name = true) (data : Bytes) :
    (∃ e, reachFault? s.root (name ++ temporarySuffix) = some e ∧
      write name data s = .error (.io e) s) ∨
    (reachFault? s.root (name ++ temporarySuffix) = none ∧ write name data s
      = onDisk (Disk.replace (temporaryOf s.place name) (fileOf s.place name) data) s) := by
  rw [write, if_pos hname]
  cases hreach : reachFault? s.root (name ++ temporarySuffix) with
  | some e => exact .inl ⟨e, rfl, rfl⟩
  | none => exact .inr ⟨rfl, rfl⟩

theorem write_of_not_isItemName (hname : isItemName name ≠ true) (data : Bytes) :
    write name data s = .error (.unknownItem name) s := by
  rw [write, if_neg hname]

theorem delete_of_not_isItemName (hname : isItemName name ≠ true) :
    delete name s = .error (.unknownItem name) s := by
  rw [delete, if_neg hname]

/-- A write touches the file of its item and the temporary one. -/
theorem write_confined (name : String) (data : Bytes) :
    Confined [temporaryOf s.place name, fileOf s.place name] s ((write name data).after s) := by
  by_cases hname : isItemName name = true
  · rcases write_of_isItemName (s := s) hname data with ⟨e, -, herror⟩ | ⟨-, hwrite⟩
    · rw [Update.after_of_error herror]
      exact .refl _ s
    · rw [Update.after, hwrite, ← Update.after, after_onDisk]
      exact .withDisk Disk.replace_changesFiles
  · rw [Update.after_of_error (write_of_not_isItemName hname data)]
    exact .refl _ s

theorem confined_of_write (h : write name data s = .ok () s') :
    Confined [temporaryOf s.place name, fileOf s.place name] s s' := by
  have hafter := write_confined (s := s) name data
  rwa [Update.after_of_ok h] at hafter

/-- A write that fails touches the temporary file at most. -/
theorem write_error_confined (h : write name data s = .error e s') :
    Confined [temporaryOf s.place name] s s' := by
  by_cases hname : isItemName name = true
  · rcases write_of_isItemName (s := s) hname data with ⟨e, -, herror⟩ | ⟨-, hwrite⟩
    · rw [herror] at h
      cases h
      exact .refl _ s
    · rw [hwrite, onDisk] at h
      split at h
      · cases h
      · rename_i hreplace
        cases h
        exact .withDisk (Disk.replace_error_changesFiles hreplace)
  · rw [write_of_not_isItemName hname] at h
    cases h
    exact .refl _ s

/-- A deletion removes the file, or it changes nothing. -/
theorem after_delete (name : String) (s : ItemDirectory) :
    (delete name).after s = s ∨
      ∃ d, (Disk.Change.remove (fileOf s.place name)).apply s.disk = .ok d ∧
        (delete name).after s = { s with disk := d } := by
  by_cases hname : isItemName name = true
  · simp only [Update.after, delete, if_pos hname]
    cases reachFault? s.root name with
    | some e => exact .inl rfl
    | none =>
      cases (Disk.Change.remove (fileOf s.place name)).apply s.disk with
      | ok d => exact .inr ⟨d, rfl, rfl⟩
      | error e => cases e <;> exact .inl rfl
  · exact .inl (Update.after_of_error (delete_of_not_isItemName hname))

/-- A deletion touches the file of its item. -/
theorem delete_confined (name : String) :
    Confined [fileOf s.place name] s ((delete name).after s) := by
  rcases after_delete name s with hsame | ⟨d, hremove, hafter⟩
  · rw [hsame]
    exact .refl _ s
  · rw [hafter]
    exact .withDisk (Disk.Change.changesFiles hremove)

/-- A write that succeeds leaves the data in the file, and no temporary one. -/
theorem node?_of_write (h : write name data s = .ok () s') :
    s'.disk.node? (fileOf s.place name) = some (.file data) ∧
      s'.disk.node? (temporaryOf s.place name) = none := by
  obtain ⟨-, -, -, hreplace⟩ := write_eq_ok h
  have hne := temporaryOf_ne s.place name
  obtain ⟨htemporary, htarget, hfree, hfile⟩ := Disk.replace_eq_ok hne hreplace
  obtain ⟨d, hreplace', -, hnode⟩ := Disk.replace_eq data htemporary htarget hne hfree hfile
  rw [hreplace] at hreplace'
  cases hreplace'
  exact ⟨by rw [hnode, if_pos rfl], by rw [hnode, if_neg hne, if_pos rfl]⟩

/-! ## Why a write fails -/

/-- What keeps an item from being written: its name, its path, or a directory in the way. -/
def Unwritable (s : ItemDirectory) (name : String) : Prop :=
  '\x00' ∈ name.toList ∨ maxNameLength < (name ++ temporarySuffix).utf8ByteSize ∨
    maxPathLength < (s.root.join ⟨name ++ temporarySuffix⟩).text.utf8ByteSize ∨
    s.disk.node? (temporaryOf s.place name) = some .directory ∨
    s.disk.node? (fileOf s.place name) = some .directory

/-- Below a path that calls take, a name is out of reach if it holds a NUL or the two are too long
together. -/
theorem reachFault?_eq_none_iff {root : Path} (hroot : pathFault? root = none)
    (hrelative : Path.isAbsolute ⟨name⟩ = false) :
    reachFault? root name = none ↔
      '\x00' ∉ name.toList ∧ (root.join ⟨name⟩).text.utf8ByteSize ≤ maxPathLength := by
  have hnul : '\x00' ∈ (root.join ⟨name⟩).text.toList ↔ '\x00' ∈ name.toList := by
    have hclean := (Disk.pathFault?_eq_none_iff.1 hroot).1
    rw [Path.join, if_neg (by simp [hrelative])]
    split <;> simp [String.toList_append, hclean]
  rw [reachFault?, Disk.pathFault?_eq_none_iff, hnul]

theorem exists_write_iff (hname : isItemName name = true) (data : Bytes) :
    (∃ s', write name data s = .ok () s') ↔
      reachFault? s.root (name ++ temporarySuffix) = none ∧
        nameFault? (name ++ temporarySuffix) = none ∧
        s.disk.node? (temporaryOf s.place name) ≠ some .directory ∧
        s.disk.node? (fileOf s.place name) ≠ some .directory := by
  constructor
  · rintro ⟨s', hwrite⟩
    obtain ⟨-, hreach, -, hreplace⟩ := write_eq_ok hwrite
    obtain ⟨⟨-, hfault⟩, -, hfree, hfile⟩ :=
      Disk.replace_eq_ok (temporaryOf_ne s.place name) hreplace
    exact ⟨hreach, hfault, hfree, hfile⟩
  · rintro ⟨hreach, hfault, hfree, hfile⟩
    have hshort : nameFault? name = none := by
      rw [Disk.nameFault?_eq_none_iff, String.toList_append, List.mem_append,
        String.utf8ByteSize_append] at hfault
      exact Disk.nameFault?_eq_none_iff.2 ⟨fun h => hfault.1 (.inl h), by omega⟩
    have htemporary : Nameable (temporaryOf s.place name) := ⟨List.cons_ne_nil _ _, hfault⟩
    have htarget : Nameable (fileOf s.place name) := ⟨List.cons_ne_nil _ _, hshort⟩
    obtain ⟨d, hreplace⟩ := Disk.exists_replace data htemporary htarget hfree hfile
    refine ⟨{ s with disk := d }, ?_⟩
    simp only [write, if_pos hname, hreach, onDisk, hreplace]

/-- **A write fails for one of few reasons**, all of them there before it. -/
theorem write_fails_iff (hopen : s.disk.find s.root = .ok (s.place, .directory))
    (hname : isItemName name = true) (data : Bytes) :
    (∃ e s', write name data s = .error e s') ↔ s.Unwritable name := by
  have hfails : (∃ e s', write name data s = .error e s') ↔
      ¬ ∃ s', write name data s = .ok () s' := by
    cases write name data s <;> simp
  obtain ⟨from', hstart, -⟩ := Disk.find_eq_directory_iff.1 hopen
  have hrelative : Path.isAbsolute ⟨name ++ temporarySuffix⟩ = false :=
    (Path.names_of_free (append_ne (by decide)) (slash_free hname).2).1
  have hnul : '\x00' ∈ (name ++ temporarySuffix).toList ↔ '\x00' ∈ name.toList := by
    rw [String.toList_append, List.mem_append]
    exact or_iff_left (by decide)
  rw [hfails, exists_write_iff hname, Disk.nameFault?_eq_none_iff,
    reachFault?_eq_none_iff (Disk.start_eq_ok hstart).1 hrelative, hnul, Unwritable]
  grind

/-! ## Calls -/

/-- What is asked of a directory. -/
inductive ItemCall
  | write (name : String) (data : Bytes)
  | read (name : String)
  | delete (name : String)
  deriving DecidableEq, Repr

namespace ItemCall

/-- The name that a call is about. -/
def about : ItemCall → String
  | write name _ | read name | delete name => name

/-- The files that a call may touch. -/
def places (directory : Location) (call : ItemCall) : List Location :=
  [temporaryOf directory call.about, fileOf directory call.about]

/-- The directory after a call, whether it succeeds or fails. -/
def after : ItemCall → ItemDirectory → ItemDirectory
  | write name data, s => (ItemDirectory.write name data).after s
  | read _, s => s
  | delete name, s => (ItemDirectory.delete name).after s

/-- The directory after calls, one after the other. -/
def afterAll (calls : List ItemCall) (s : ItemDirectory) : ItemDirectory :=
  calls.foldl (fun s call => call.after s) s

theorem confined (call : ItemCall) (s : ItemDirectory) :
    Confined (call.places s.place) s (call.after s) := by
  cases call with
  | write name data => exact write_confined name data
  | read name => exact .refl _ s
  | delete name => exact (delete_confined name).mono (by simp [places, about])

theorem confined_afterAll (calls : List ItemCall) (s : ItemDirectory) :
    Confined (calls.flatMap (·.places s.place)) s (afterAll calls s) := by
  induction calls generalizing s with
  | nil => exact .refl _ s
  | cons call rest ih =>
    have hfirst := call.confined s
    have hrest := ih (call.after s)
    rw [hfirst.place_eq] at hrest
    exact (hfirst.mono (by simp)).trans (hrest.mono (by simp))

/-- No call touches the file of an item with another name, not even as a temporary file. -/
theorem not_mem_places {calls : List ItemCall} {directory : Location}
    (hname : isItemName other = true) (h : ∀ call ∈ calls, call.about ≠ other) :
    fileOf directory other ∉ calls.flatMap (·.places directory) := by
  intro hmem
  obtain ⟨call, hcall, hplace⟩ := List.mem_flatMap.1 hmem
  simp only [places, List.mem_cons, List.not_mem_nil, or_false] at hplace
  rcases hplace with htemporary | hfile
  · exact append_ne (not_isTemporary_of_isItemName hname) (List.cons.inj htemporary).1.symm
  · exact h call hcall (List.cons.inj hfile).1.symm

end ItemCall

open ItemCall (afterAll)

/-- What holds of the calls about a name that an item can have: its two paths lead to its two files,
which are all that the calls may touch; a write that succeeds leaves the data and no temporary file,
and one that fails, for one of few reasons, leaves the file as it was. -/
structure Contained (s : ItemDirectory) (name : String) : Prop where
  file_found : ∀ place node, s.disk.find (s.root.join ⟨name⟩) = .ok (place, node) →
    place = fileOf s.place name
  temporary_found : ∀ place node,
    s.disk.find (s.root.join ⟨name ++ temporarySuffix⟩) = .ok (place, node) →
    place = temporaryOf s.place name
  delete_confined : Confined [fileOf s.place name] s ((delete name).after s)
  write_confined : ∀ data,
    Confined [temporaryOf s.place name, fileOf s.place name] s ((write name data).after s)
  write_ok : ∀ data s', write name data s = .ok () s' →
    s'.disk.node? (fileOf s.place name) = some (.file data) ∧
      s'.disk.node? (temporaryOf s.place name) = none
  write_error : ∀ data e s', write name data s = .error e s' →
    s'.disk.node? (fileOf s.place name) = s.disk.node? (fileOf s.place name)
  write_fails : ∀ data, (∃ e s', write name data s = .error e s') ↔ s.Unwritable name

theorem contained (hopen : s.disk.find s.root = .ok (s.place, .directory))
    (hname : isItemName name = true) : s.Contained name where
  file_found _ _ := (place_of_find hopen hname).1
  temporary_found _ _ := (place_of_find hopen hname).2
  delete_confined := ItemDirectory.delete_confined name
  write_confined := ItemDirectory.write_confined name
  write_ok _ _ := node?_of_write
  write_error _ _ _ herror := by
    refine (write_error_confined herror).disk.same _ ?_
    rw [List.mem_singleton]
    exact (temporaryOf_ne s.place name).symm
  write_fails := write_fails_iff hopen hname

/-- **A directory contains its items.** Whatever is in the tree and whatever calls have been made:
the path leads to the directory still; a name that is refused changes nothing; the calls about any
other one are contained in its two files, and are atomic (`Contained`); and the item of a name that
none of the calls was about is there as before and reads as before. -/
theorem calls_contained (hopen : s.disk.find s.root = .ok (s.place, .directory))
    (calls : List ItemCall) {t : ItemDirectory} (ht : t = afterAll calls s) :
    t.root = s.root ∧ t.place = s.place ∧ t.disk.find t.root = .ok (t.place, .directory) ∧
      (∀ name, Refused name → t.read name = .error (.unknownItem name) ∧
        delete name t = .error (.unknownItem name) t ∧
        ∀ data, write name data t = .error (.unknownItem name) t) ∧
      (∀ name, ¬ Refused name → t.Contained name) ∧
      ∀ other, (∀ call ∈ calls, call.about ≠ other) → t.read other = s.read other ∧
        (¬ Refused other →
          t.disk.node? (fileOf s.place other) = s.disk.node? (fileOf s.place other)) := by
  subst ht
  have hconfined := ItemCall.confined_afterAll calls s
  have hopen' := hconfined.find_root hopen
  refine ⟨hconfined.root_eq, hconfined.place_eq, hopen', fun name hname => ?refused,
    fun name hname => contained hopen' (isItemName_iff.2 hname), fun other hother => ?others⟩
  case refused =>
    have hitem : isItemName name ≠ true := fun h => isItemName_iff.1 h hname
    exact ⟨if_neg hitem, delete_of_not_isItemName hitem, write_of_not_isItemName hitem⟩
  case others =>
    by_cases hitem : isItemName other = true
    · have hfree : fileOf s.place other ∉ calls.flatMap (·.places s.place) :=
        ItemCall.not_mem_places hitem hother
      exact ⟨hconfined.read_eq hfree, fun _ => hconfined.disk.same _ hfree⟩
    · refine ⟨?_, fun hname => absurd (isItemName_iff.2 hname) hitem⟩
      rw [read, read, if_neg hitem, if_neg hitem]

/-- A name of 252 bytes, which a file can have and its temporary file cannot. -/
def longName : String := String.ofList (List.replicate 252 'n')

theorem not_refused_longName : ¬ Refused longName := by
  have htext : longName.toList = List.replicate 252 'n' := String.toList_ofList
  have hfree : ∀ c ∈ longName.toList, c = 'n' := by
    rw [htext]
    exact fun c => List.eq_of_mem_replicate
  rintro (hempty | hslash | hslash | hdot | hdots | htemporary)
  · rw [hempty] at htext
    cases htext
  · exact absurd (hfree _ hslash) (by decide)
  · exact absurd (hfree _ hslash) (by decide)
  · exact absurd (hfree '.' (hdot ▸ by decide)) (by decide)
  · exact absurd (hfree '.' (hdots ▸ by decide)) (by decide)
  · exact absurd (hfree '.' (htemporary.subset (by decide))) (by decide)

theorem calls_contained_longName :
    let s : ItemDirectory := ⟨slashes 1, [], interruptedDisk⟩
    let t := afterAll [.write longName [1], .delete "..", .write "data" [2]] s
    s.disk.find s.root = .ok (s.place, .directory) ∧ t.read "key.der" = .ok [1] ∧
      write "data.tmp" [3] t = .error (.unknownItem "data.tmp") t ∧ t.Contained longName ∧
      ∃ e t', write longName [1] t = .error e t' := by
  intro s t
  have hopen : s.disk.find s.root = .ok (s.place, .directory) :=
    find_slashes _ (by decide) (by decide)
  obtain ⟨-, -, -, hrefused, hcontained, hothers⟩ :=
    calls_contained hopen [.write longName [1], .delete "..", .write "data" [2]] rfl
  have hlong : t.Contained longName := hcontained longName not_refused_longName
  have hread : s.read "key.der" = .ok [1] := by decide +kernel
  refine ⟨hopen, (hothers "key.der" ?_).1.trans hread, (hrefused "data.tmp" ?_).2.2 [3], hlong,
    (hlong.write_fails [1]).2 (.inr (.inl ?_))⟩
  · decide +kernel
  · exact .inr (.inr (.inr (.inr (.inr (by decide)))))
  · decide +kernel

end ItemDirectory

end UpdateVault
