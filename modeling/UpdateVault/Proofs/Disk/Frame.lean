import UpdateVault.Proofs.Disk.Change

/-!
# What changes of files leave alone

`Change.apply_eq_ok` says all that a primitive change can do. So changes, whether they get to their
end or not, touch no more than files at the places they name: `run_changesFiles`, and
`replace_changesFiles` for a file that is replaced. Making a path leaves all files alone the other
way round: it only puts directories where nothing was (`onlyAdds_makePath`).
-/

namespace UpdateVault.Disk

variable {d d' d'' : Disk} {place temporary target : Location} {data : Bytes}
  {ps qs : List Location} {c : Change} {changes : List Change}

/-! ## Disks that differ in files only -/

/-- Files at the given places may differ, and nothing else does. -/
structure ChangesFiles (places : List Location) (d d' : Disk) : Prop where
  here_eq : d'.here = d.here
  directory_iff : ∀ place, d'.node? place = some .directory ↔ d.node? place = some .directory
  same : ∀ other, other ∉ places → d'.node? other = d.node? other

namespace ChangesFiles

theorem refl (ps : List Location) (d : Disk) : ChangesFiles ps d d :=
  ⟨rfl, fun _ => Iff.rfl, fun _ _ => rfl⟩

theorem trans (h : ChangesFiles ps d d') (h' : ChangesFiles ps d' d'') :
    ChangesFiles ps d d'' :=
  ⟨h'.here_eq.trans h.here_eq, fun place => (h'.directory_iff place).trans (h.directory_iff place),
    fun other hother => (h'.same other hother).trans (h.same other hother)⟩

theorem symm (h : ChangesFiles ps d d') : ChangesFiles ps d' d :=
  ⟨h.here_eq.symm, fun place => (h.directory_iff place).symm,
    fun other hother => (h.same other hother).symm⟩

theorem mono (h : ChangesFiles ps d d') (hsub : ps ⊆ qs) : ChangesFiles qs d d' :=
  ⟨h.here_eq, h.directory_iff, fun other hother => h.same other fun hmem => hother (hsub hmem)⟩

theorem keeps (h : ChangesFiles ps d d') : Keeps d d' :=
  ⟨h.here_eq, fun place => (h.directory_iff place).2⟩

/-- It is enough that what differs was no directory and is none. -/
theorem of_same (hhere : d'.here = d.here)
    (hsame : ∀ other, other ∉ ps → d'.node? other = d.node? other)
    (hbefore : ∀ place ∈ ps, d.node? place ≠ some .directory)
    (hafter : ∀ place ∈ ps, d'.node? place ≠ some .directory) : ChangesFiles ps d d' := by
  refine ⟨hhere, fun place => ?_, hsame⟩
  by_cases hplace : place ∈ ps
  · exact iff_of_false (hafter place hplace) (hbefore place hplace)
  · rw [hsame place hplace]

end ChangesFiles

/-- The top is a directory. -/
theorem ne_nil_of_free (h : d.node? place ≠ some .directory) : place ≠ [] := by
  rintro rfl
  exact h rfl

theorem changesFiles_set (h : d.node? place ≠ some .directory) (data : Bytes) :
    ChangesFiles [place] d (d.set place (.file data)) := by
  have hnode := node?_set (d := d) (ne_nil_of_free h) (.file data)
  refine .of_same rfl (fun other hother => ?_) (by simpa using h) (by simp [hnode])
  rw [hnode, if_neg (by simpa using hother)]

theorem changesFiles_clear (h : d.node? place ≠ some .directory) :
    ChangesFiles [place] d (d.clear place) := by
  have hnode := node?_clear (d := d) (ne_nil_of_free h)
  refine .of_same rfl (fun other hother => ?_) (by simpa using h) (by simp [hnode])
  rw [hnode, if_neg (by simpa using hother)]

/-! ## Primitive changes -/

theorem entry?_eq_ok {node : Option Node} (h : d.entry? place = .ok node)
    (hfree : node ≠ some .directory) : Nameable place ∧ d.node? place = node := by
  unfold entry? at h
  split at h
  · cases h
  · rename_i hfault
    cases h
    exact ⟨⟨ne_nil_of_free hfree, hfault⟩, rfl⟩

theorem fileAt_eq_ok (h : d.fileAt place = .ok data) :
    Nameable place ∧ d.node? place = some (.file data) := by
  obtain ⟨node, hentry, hfile⟩ := Update.except_bind_eq_ok_iff.1 h
  rcases node with _ | _ | content
  · cases hfile
  · cases hfile
  · cases hfile
    exact entry?_eq_ok hentry nofun

/-- The places that a change names. -/
def Change.places : Change → List Location
  | create place => [place]
  | append place _ => [place]
  | rename source target => [source, target]
  | remove place => [place]

/-- A change leaves a disk if its files are there and no directory is in its way. -/
theorem Change.apply_eq_ok (h : c.apply d = .ok d') :
    (∃ place, c = .create place ∧ Nameable place ∧ d.node? place ≠ some .directory ∧
      d' = d.set place (.file [])) ∨
    (∃ place data content, c = .append place data ∧ d.node? place = some (.file content) ∧
      d' = d.set place (.file (content ++ data))) ∨
    (∃ source target content, c = .rename source target ∧ Nameable target ∧
      d.node? source = some (.file content) ∧ d.node? target ≠ some .directory ∧
      d' = (d.clear source).set target (.file content)) ∨
    (∃ place content, c = .remove place ∧ d.node? place = some (.file content) ∧
      d' = d.clear place) := by
  cases c with
  | create place =>
    obtain ⟨node, hentry, hset⟩ := Update.except_bind_eq_ok_iff.1 h
    refine .inl ⟨place, rfl, ?_⟩
    split at hset
    · cases hset
    · rename_i hfree
      cases hset
      obtain ⟨hname, hnode⟩ := entry?_eq_ok hentry hfree
      exact ⟨hname, hnode ▸ hfree, rfl⟩
  | append place data =>
    obtain ⟨content, hfile, hset⟩ := Update.except_bind_eq_ok_iff.1 h
    cases hset
    exact .inr (.inl ⟨place, data, content, rfl, (fileAt_eq_ok hfile).2, rfl⟩)
  | rename source target =>
    obtain ⟨content, hfile, hrest⟩ := Update.except_bind_eq_ok_iff.1 h
    obtain ⟨node, hentry, hset⟩ := Update.except_bind_eq_ok_iff.1 hrest
    refine .inr (.inr (.inl ⟨source, target, content, rfl, ?_⟩))
    split at hset
    · cases hset
    · rename_i hfree
      cases hset
      obtain ⟨hname, hnode⟩ := entry?_eq_ok hentry hfree
      exact ⟨hname, (fileAt_eq_ok hfile).2, hnode ▸ hfree, rfl⟩
  | remove place =>
    obtain ⟨_, hfile, hclear⟩ := Update.except_bind_eq_ok_iff.1 h
    cases hclear
    obtain ⟨content, hcontent, -⟩ := Update.except_bind_eq_ok_iff.1 hfile
    exact .inr (.inr (.inr ⟨place, content, rfl, (fileAt_eq_ok hcontent).2, rfl⟩))

theorem Change.changesFiles (h : c.apply d = .ok d') : ChangesFiles c.places d d' := by
  rcases apply_eq_ok h with ⟨place, rfl, -, hfree, rfl⟩ | ⟨place, data, content, rfl, hnode, rfl⟩ |
    ⟨source, target, content, rfl, -, hnode, hfree, rfl⟩ | ⟨place, content, rfl, hnode, rfl⟩
  · exact changesFiles_set hfree []
  · exact changesFiles_set (by rw [hnode]; nofun) _
  · have hclear : ChangesFiles [source] d (d.clear source) :=
      changesFiles_clear (by rw [hnode]; nofun)
    have hset := changesFiles_set (d := d.clear source) (mt (hclear.directory_iff target).1 hfree)
      content
    exact (hclear.mono (by simp [places])).trans (hset.mono (by simp [places]))
  · exact changesFiles_clear (by rw [hnode]; nofun)

/-! ## Changes one after the other -/

theorem run_cons {rest : List Change} (h : c.apply d = .ok d') :
    run (c :: rest) d = run rest d' := by
  rw [run, h]

theorem run_cons_ok {rest : List Change} (h : run (c :: rest) d = .ok () d') :
    ∃ d₁, c.apply d = .ok d₁ ∧ run rest d₁ = .ok () d' := by
  rw [run] at h
  cases hc : c.apply d with
  | error e =>
    rw [hc] at h
    cases h
  | ok d₁ =>
    rw [hc] at h
    exact ⟨d₁, rfl, h⟩

theorem run_changesFiles (h : ∀ c ∈ changes, c.places ⊆ ps) :
    ChangesFiles ps d ((run changes).after d) := by
  induction changes generalizing d with
  | nil => exact .refl ps d
  | cons c rest ih =>
    rw [Update.after, run]
    cases hc : c.apply d with
    | error e => exact .refl ps d
    | ok d' =>
      have hfirst := (Change.changesFiles hc).mono (h c List.mem_cons_self)
      exact hfirst.trans (ih fun c' hc' => h c' (List.mem_cons_of_mem _ hc'))

/-- Changes of which not all are made have not made the last one. -/
theorem changesFiles_of_run_error {e : IoError} (hplaces : ∀ c ∈ changes, c.places ⊆ ps)
    (h : run (changes ++ [c]) d = .error e d') : ChangesFiles ps d d' := by
  induction changes generalizing d with
  | nil =>
    simp only [List.nil_append, run] at h
    cases hc : c.apply d with
    | error e =>
      rw [hc] at h
      cases h
      exact .refl ps _
    | ok d₁ =>
      rw [hc] at h
      cases h
  | cons first rest ih =>
    rw [List.cons_append, run] at h
    cases hfirst : first.apply d with
    | error e =>
      rw [hfirst] at h
      cases h
      exact .refl ps _
    | ok d₁ =>
      rw [hfirst] at h
      have hstep := (Change.changesFiles hfirst).mono (hplaces first List.mem_cons_self)
      exact hstep.trans (ih (fun c' hc' => hplaces c' (List.mem_cons_of_mem _ hc')) h)

theorem discardFile_changesFiles : ChangesFiles [place] d (d.discardFile place) := by
  rw [discardFile]
  cases h : (Change.remove place).apply d with
  | error e => exact .refl _ _
  | ok d' => exact Change.changesFiles h

/-- A file that is replaced, or is not, changes nothing but itself and the temporary sibling. -/
theorem replace_changesFiles :
    ChangesFiles [temporary, target] d ((replace temporary target data).after d) := by
  have hrun : ChangesFiles [temporary, target] d
      ((run (replaceChanges temporary target data)).after d) := by
    refine run_changesFiles fun c hc => ?_
    simp only [replaceChanges, List.mem_cons, List.not_mem_nil, or_false] at hc
    rcases hc with rfl | rfl | rfl <;> simp [Change.places]
  rw [Update.after, replace]
  cases h : run (replaceChanges temporary target data) d with
  | ok _ d' =>
    rw [Update.after_of_ok h] at hrun
    exact hrun
  | error e d' =>
    rw [Update.after_of_error h] at hrun
    exact hrun.trans (discardFile_changesFiles.mono (by simp))

/-- A file that is not replaced has its content still: nothing but the sibling changes. -/
theorem replace_error_changesFiles {e : IoError}
    (h : replace temporary target data d = .error e d') : ChangesFiles [temporary] d d' := by
  rw [replace] at h
  split at h
  · cases h
  · rename_i d₁ hrun
    cases h
    have hplaces : ∀ c ∈ [Change.create temporary, .append temporary data],
        c.places ⊆ [temporary] := by
      simp [Change.places]
    exact (changesFiles_of_run_error hplaces hrun).trans discardFile_changesFiles

theorem run_of_replace (h : replace temporary target data d = .ok () d') :
    run (replaceChanges temporary target data) d = .ok () d' := by
  rw [replace] at h
  split at h
  · rename_i hrun
    cases h
    exact hrun
  · cases h

theorem create_eq_ok (h : (Change.create place).apply d = .ok d') :
    Nameable place ∧ d.node? place ≠ some .directory ∧ d' = d.set place (.file []) := by
  rcases Change.apply_eq_ok h with ⟨_, hc, hname, hfree, hset⟩ | ⟨_, _, _, hc, -⟩ |
    ⟨_, _, _, hc, -⟩ | ⟨_, _, hc, -⟩ <;> cases hc
  exact ⟨hname, hfree, hset⟩

theorem append_eq_ok (h : (Change.append place data).apply d = .ok d') :
    ∃ content, d.node? place = some (.file content) ∧
      d' = d.set place (.file (content ++ data)) := by
  rcases Change.apply_eq_ok h with ⟨_, hc, -⟩ | ⟨_, _, content, hc, hnode, hset⟩ |
    ⟨_, _, _, hc, -⟩ | ⟨_, _, hc, -⟩ <;> cases hc
  exact ⟨content, hnode, hset⟩

theorem rename_eq_ok (h : (Change.rename temporary target).apply d = .ok d') :
    ∃ content, Nameable target ∧ d.node? temporary = some (.file content) ∧
      d.node? target ≠ some .directory ∧
      d' = (d.clear temporary).set target (.file content) := by
  rcases Change.apply_eq_ok h with ⟨_, hc, -⟩ | ⟨_, _, _, hc, -⟩ |
    ⟨_, _, content, hc, hname, hnode, hfile, hset⟩ | ⟨_, _, hc, -⟩ <;> cases hc
  exact ⟨content, hname, hnode, hfile, hset⟩

/-- A file that is written in place has the data, and nothing else changes. -/
theorem writeFile_eq_ok {p : Path} (h : writeFile p data d = .ok () d') :
    ∃ place, d.fileSlot p = .ok place ∧ d'.node? place = some (.file data) ∧
      ChangesFiles [place] d d' := by
  rw [writeFile] at h
  split at h
  · cases h
  · rename_i place hslot
    obtain ⟨d₁, hcreate, hrun⟩ := run_cons_ok h
    obtain ⟨d₂, happend, hrun⟩ := run_cons_ok hrun
    cases hrun
    have hfirst : ChangesFiles [place] d d₁ := Change.changesFiles hcreate
    have hsecond : ChangesFiles [place] d₁ d' := Change.changesFiles happend
    refine ⟨place, hslot, ?_, hfirst.trans hsecond⟩
    obtain ⟨hname, -, rfl⟩ := create_eq_ok hcreate
    obtain ⟨content, hcreated, rfl⟩ := append_eq_ok happend
    simp only [node?_set hname.1, if_pos, Option.some.injEq, Node.file.injEq] at hcreated
    rw [node?_set hname.1, if_pos rfl, ← hcreated, List.nil_append]

theorem node?_of_remove (h : (Change.remove place).apply d = .ok d') : d'.node? place = none := by
  rcases Change.apply_eq_ok h with ⟨_, hc, -⟩ | ⟨_, _, _, hc, -⟩ | ⟨_, _, _, hc, -⟩ |
    ⟨_, _, hc, hnode, hclear⟩ <;> cases hc
  rw [hclear, node?_clear (file_ne_nil hnode), if_pos rfl]

/-- A file can only be replaced where entries can be made and no directory is in the way. -/
theorem replace_eq_ok (hne : temporary ≠ target)
    (h : replace temporary target data d = .ok () d') :
    Nameable temporary ∧ Nameable target ∧ d.node? temporary ≠ some .directory ∧
      d.node? target ≠ some .directory := by
  obtain ⟨d₁, hcreate, hrun⟩ := run_cons_ok (run_of_replace h)
  obtain ⟨d₂, happend, hrun⟩ := run_cons_ok hrun
  obtain ⟨d₃, hrename, -⟩ := run_cons_ok hrun
  obtain ⟨htemporary, hfree, -⟩ := create_eq_ok hcreate
  obtain ⟨_, htarget, -, hfile, -⟩ := rename_eq_ok hrename
  -- up to the rename only the temporary sibling changes
  have hsame : d₂.node? target = d.node? target := by
    have hother : target ∉ [temporary] := by simpa using hne.symm
    rw [(Change.changesFiles happend).same _ hother, (Change.changesFiles hcreate).same _ hother]
  exact ⟨htemporary, htarget, hfree, hsame ▸ hfile⟩

/-- A replaced file has the data, wherever the temporary sibling was. -/
theorem node?_of_replace (h : replace temporary target data d = .ok () d') :
    d'.node? target = some (.file data) := by
  obtain ⟨d₁, hcreate, hrun⟩ := run_cons_ok (run_of_replace h)
  obtain ⟨d₂, happend, hrun⟩ := run_cons_ok hrun
  obtain ⟨d₃, hrename, hrun⟩ := run_cons_ok hrun
  obtain ⟨htemporary, -, rfl⟩ := create_eq_ok hcreate
  obtain ⟨content, hcreated, rfl⟩ := append_eq_ok happend
  obtain ⟨written, htarget, happended, -, rfl⟩ := rename_eq_ok hrename
  cases hrun
  simp only [node?_set htemporary.1, if_pos, Option.some.injEq, Node.file.injEq]
    at hcreated happended
  rw [node?_set htarget.1, if_pos rfl, ← happended, ← hcreated, List.nil_append]

theorem nameable_of_fileSlot {p : Path} (h : d.fileSlot p = .ok place) : Nameable place := by
  obtain ⟨-, from', -, hslot⟩ := fileSlot_eq_ok h
  obtain ⟨init, name, parent, -, -, -, -, hfault, rfl⟩ := slot?_eq_some hslot
  exact ⟨List.cons_ne_nil _ _, hfault⟩

/-- Where entries can be made and no directory is in the way, a file is replaced. -/
theorem exists_replace (data : Bytes) (htemporary : Nameable temporary) (htarget : Nameable target)
    (hfree : d.node? temporary ≠ some .directory) (hfile : d.node? target ≠ some .directory) :
    ∃ d', replace temporary target data d = .ok () d' := by
  have hcreate := create_eq htemporary hfree
  have hcreated : (d.set temporary (.file [])).node? temporary = some (.file []) := by
    rw [node?_set htemporary.1, if_pos rfl]
  have happend : (Change.append temporary data).apply (d.set temporary (.file []))
      = .ok ((d.set temporary (.file [])).set temporary (.file data)) :=
    append_eq htemporary hcreated
  have happended : ((d.set temporary (.file [])).set temporary (.file data)).node? temporary
      = some (.file data) := by rw [node?_set htemporary.1, if_pos rfl]
  have hother : ((d.set temporary (.file [])).set temporary (.file data)).node? target
      ≠ some .directory := by
    rw [Ne, (Change.changesFiles happend).directory_iff,
      (Change.changesFiles hcreate).directory_iff]
    exact hfile
  have hrename := rename_eq htemporary htarget happended hother
  refine ⟨(((d.set temporary (.file [])).set temporary (.file data)).clear temporary).set target
    (.file data), ?_⟩
  simp only [replace, replaceChanges, run, hcreate, happend, hrename]

/-- A directory in the way of a file or of its temporary sibling is the only thing that keeps a file
from being replaced. -/
theorem replace_of_directory (data : Bytes) (htemporary : Nameable temporary)
    (htarget : Nameable target)
    (hway : d.node? temporary = some .directory ∨ d.node? target = some .directory) :
    ∃ d', replace temporary target data d = .error .isDirectory d' := by
  by_cases hfree : d.node? temporary = some .directory
  · refine ⟨d.discardFile temporary, ?_⟩
    simp only [replace, replaceChanges, run, create_of_directory htemporary hfree]
  · have hcreate := create_eq htemporary hfree
    have hcreated : (d.set temporary (.file [])).node? temporary = some (.file []) := by
      rw [node?_set htemporary.1, if_pos rfl]
    have happend : (Change.append temporary data).apply (d.set temporary (.file []))
        = .ok ((d.set temporary (.file [])).set temporary (.file data)) :=
      append_eq htemporary hcreated
    have happended : ((d.set temporary (.file [])).set temporary (.file data)).node? temporary
        = some (.file data) := by rw [node?_set htemporary.1, if_pos rfl]
    have hother : ((d.set temporary (.file [])).set temporary (.file data)).node? target
        = some .directory := by
      rw [(Change.changesFiles happend).directory_iff, (Change.changesFiles hcreate).directory_iff]
      exact hway.resolve_left hfree
    have hrename := rename_of_directory htemporary htarget happended hother
    refine ⟨(((d.set temporary (.file [])).set temporary (.file data)).discardFile temporary), ?_⟩
    simp only [replace, replaceChanges, run, hcreate, happend, hrename]

/-! ## Directories that are made -/

/-- No file is made, changed or removed; directories may have been made where nothing was. -/
structure OnlyAddsDirectories (d d' : Disk) : Prop where
  here_eq : d'.here = d.here
  node : ∀ place, d'.node? place = d.node? place ∨
    d.node? place = none ∧ d'.node? place = some .directory

namespace OnlyAddsDirectories

theorem refl (d : Disk) : OnlyAddsDirectories d d := ⟨rfl, fun _ => .inl rfl⟩

theorem trans (h : OnlyAddsDirectories d d') (h' : OnlyAddsDirectories d' d'') :
    OnlyAddsDirectories d d'' := by
  refine ⟨h'.here_eq.trans h.here_eq, fun place => ?_⟩
  rcases h'.node place with hsame | ⟨hfree, hmade⟩
  · rw [hsame]
    exact h.node place
  · rcases h.node place with hsame | ⟨-, hmade'⟩
    · exact .inr ⟨hsame ▸ hfree, hmade⟩
    · rw [hfree] at hmade'
      cases hmade'

/-- What was there is there. -/
theorem node?_eq {node : Node} (h : OnlyAddsDirectories d d') (hnode : d.node? place = some node) :
    d'.node? place = some node := by
  rcases h.node place with hsame | ⟨hnone, -⟩
  · exact hsame.trans hnode
  · rw [hnode] at hnone
    cases hnone

theorem keeps (h : OnlyAddsDirectories d d') : Keeps d d' :=
  ⟨h.here_eq, fun _ => h.node?_eq⟩

end OnlyAddsDirectories

theorem onlyAdds_makeDirectory (from' : Location) (names : List String) (d : Disk) :
    OnlyAddsDirectories d ((makeDirectory from' names).after d) := by
  cases hmake : makeDirectory from' names d with
  | error e d' =>
    rw [Update.after_of_error hmake, makeDirectory_error hmake]
    exact .refl d
  | ok _ d' =>
    rw [Update.after_of_ok hmake]
    rw [makeDirectory] at hmake
    split at hmake
    · cases hmake
    · cases hmake
    · rename_i new hslot
      split at hmake
      · cases hmake
      · rename_i hfree
        cases hmake
        have hfree : d.node? new = none := by simpa using hfree
        have hplace : new ≠ [] := ne_nil_of_free (d := d) (by simp [hfree])
        refine ⟨rfl, fun place => ?_⟩
        rw [node?_set hplace]
        by_cases hnew : place = new
        · exact .inr ⟨hnew ▸ hfree, if_pos hnew⟩
        · exact .inl (if_neg hnew)

/-- Whether a directory that is there already will do decides on the result alone. -/
theorem after_settleDirectory (from' : Location) (names : List String) (d : Disk) :
    (settleDirectory from' names).after d = (makeDirectory from' names).after d := by
  rw [Update.after, Update.after, settleDirectory]
  cases makeDirectory from' names d with
  | ok _ d' => rfl
  | error e d' =>
    dsimp only
    split_ifs <;> rfl

theorem onlyAdds_settleDirectory (from' : Location) (names : List String) (d : Disk) :
    OnlyAddsDirectories d ((settleDirectory from' names).after d) :=
  after_settleDirectory from' names d ▸ onlyAdds_makeDirectory from' names d

theorem onlyAdds_makeDirectories (from' : Location) (names outer : List String) (d : Disk) :
    OnlyAddsDirectories d ((makeDirectories from' names outer).after d) := by
  have hsettle := onlyAdds_settleDirectory from'
  induction outer generalizing names d with
  | nil =>
    cases hmake : makeDirectory from' names d with
    | ok _ d' =>
      have := onlyAdds_makeDirectory from' names d
      simpa only [Update.after, makeDirectories, hmake] using this
    | error e d' =>
      obtain rfl := makeDirectory_error hmake
      by_cases he : e = .noSuchFile
      · subst he
        simpa only [Update.after, makeDirectories, hmake] using hsettle names d'
      · simp only [Update.after, makeDirectories, hmake]
        split_ifs <;> exact .refl _
  | cons name rest ih =>
    cases hmake : makeDirectory from' names d with
    | ok _ d' =>
      have := onlyAdds_makeDirectory from' names d
      simpa only [Update.after, makeDirectories, hmake] using this
    | error e d' =>
      obtain rfl := makeDirectory_error hmake
      by_cases he : e = .noSuchFile
      · subst he
        have houter := ih (name :: rest).reverse d'
        cases hrest : makeDirectories from' (name :: rest).reverse rest d' with
        | ok _ d₁ =>
          rw [Update.after_of_ok hrest] at houter
          have := houter.trans (hsettle names d₁)
          simpa only [Update.after, makeDirectories, hmake, hrest] using this
        | error e d₁ =>
          rw [Update.after_of_error hrest] at houter
          simpa only [Update.after, makeDirectories, hmake, hrest] using houter
      · simp only [Update.after, makeDirectories, hmake]
        split_ifs <;> exact .refl _

/-- **Making a path does no more than to add directories**, whether it gets to its end or not. -/
theorem onlyAdds_makePath (p : Path) (d : Disk) :
    OnlyAddsDirectories d ((makePath p).after d) := by
  rw [Update.after, makePath]
  split_ifs
  · exact .refl d
  · cases d.start p with
    | error e => exact .refl d
    | ok from' => exact onlyAdds_makeDirectories from' _ _ d

theorem onlyAdds_of_makePath {p : Path} (h : makePath p d = .ok () d') :
    OnlyAddsDirectories d d' :=
  Update.after_of_ok h ▸ onlyAdds_makePath p d

/-- A file that cannot be written in place is left alone. -/
theorem writeFile_error {p : Path} {e : IoError} (h : writeFile p data d = .error e d') :
    d' = d := by
  rw [writeFile] at h
  split at h
  · cases h
    rfl
  · rename_i place hslot
    cases hcreate : (Change.create place).apply d with
    | error e =>
      simp only [run, hcreate] at h
      cases h
      rfl
    | ok d₁ =>
      obtain ⟨hname, -, rfl⟩ := create_eq_ok hcreate
      have hcreated : (d.set place (.file [])).node? place = some (.file []) := by
        rw [node?_set hname.1, if_pos rfl]
      simp only [run, hcreate, append_eq hname hcreated] at h
      cases h

end UpdateVault.Disk
