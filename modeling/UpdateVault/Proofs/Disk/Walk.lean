import UpdateVault.Disk.Change
import UpdateVault.Proofs.Update

/-!
# Walking to a directory

The way to a directory leads through directories only, so it is the same on every disk that has
them (`find_of_keeps`). A path that leads to a directory needs none to be made (`makePath_eq`),
and once one was made the path leads there (`leadsTo_of_makePath`).
-/

namespace UpdateVault.Disk

variable {d d' : Disk} {p : Path} {place from' target : Location} {name : String}
  {names outer : List String}

/-! ## Names and paths that no call takes -/

theorem nameFault?_eq_none_iff :
    nameFault? name = none ↔ '\x00' ∉ name.toList ∧ name.utf8ByteSize ≤ maxNameLength := by
  rw [nameFault?]
  by_cases hnul : '\x00' ∈ name.toList
  · simp [hnul]
  · by_cases hsize : maxNameLength < name.utf8ByteSize
    · simp [hnul, hsize]
    · simp [hnul, hsize, Nat.not_lt.1 hsize]

theorem pathFault?_eq_none_iff :
    pathFault? p = none ↔ '\x00' ∉ p.text.toList ∧ p.text.utf8ByteSize ≤ maxPathLength := by
  rw [pathFault?]
  by_cases hnul : '\x00' ∈ p.text.toList
  · simp [hnul]
  · by_cases hsize : maxPathLength < p.text.utf8ByteSize
    · simp [hnul, hsize]
    · simp [hnul, hsize, Nat.not_lt.1 hsize]

/-! ## Directories -/

/-- What is a directory on one disk is one on another. -/
structure Keeps (d d' : Disk) : Prop where
  here_eq : d'.here = d.here
  directory : ∀ place, d.node? place = some .directory → d'.node? place = some .directory

theorem Keeps.refl (d : Disk) : Keeps d d := ⟨rfl, fun _ => id⟩

theorem Keeps.trans {d'' : Disk} (h : Keeps d d') (h' : Keeps d' d'') : Keeps d d'' :=
  ⟨h'.here_eq.trans h.here_eq, fun place hplace => h'.directory place (h.directory place hplace)⟩

/-- Steps lead to a directory at a place. -/
def LeadsTo (d : Disk) (from' : Location) (names : List String) (target : Location) : Prop :=
  d.walk from' names = .ok target ∧ d.node? target = some .directory

theorem walk_cons : d.walk from' (name :: names) = (d.step from' name).bind (d.walk · names) := rfl

theorem walk_concat :
    d.walk from' (names ++ [name]) = (d.walk from' names).bind (d.step · name) := by
  rw [walk, List.foldlM_append]
  refine congrArg (Except.bind _) ?_
  funext parent
  show (d.step parent name).bind .ok = d.step parent name
  cases d.step parent name <;> rfl

theorem directory_of_step (h : d.step place name = .ok target) :
    d.node? place = some .directory := by
  rw [step] at h
  split at h
  · cases h
  · cases h
  · assumption

/-- A step to a directory. -/
theorem step_of_keeps (hk : Keeps d d') (h : d.step place name = .ok target)
    (htarget : d.node? target = some .directory) : d'.step place name = .ok target := by
  have hplace := directory_of_step h
  simp only [step, hplace] at h
  simp only [step, hk.directory _ hplace]
  by_cases hdot : name = "."
  · simpa [hdot] using h
  · rw [if_neg hdot] at h ⊢
    by_cases hdots : name = ".."
    · simpa [hdots] using h
    · rw [if_neg hdots] at h ⊢
      unfold entry? at h ⊢
      cases hfault : (name :: place).head?.bind nameFault? with
      | some e =>
        rw [hfault] at h
        cases h
      | none =>
        simp only [hfault] at h
        cases hnode : d.node? (name :: place) with
        | none =>
          rw [hnode] at h
          cases h
        | some node =>
          rw [hnode] at h
          cases h
          simp only [hk.directory _ htarget]

theorem LeadsTo.of_keeps (hk : Keeps d d') (h : d.LeadsTo from' names target) :
    d'.LeadsTo from' names target := by
  refine ⟨?_, hk.directory _ h.2⟩
  obtain ⟨hwalk, htarget⟩ := h
  induction names generalizing from' with
  | nil => exact hwalk
  | cons name rest ih =>
    rw [walk_cons] at hwalk ⊢
    cases hstep : d.step from' name with
    | error e =>
      rw [hstep] at hwalk
      cases hwalk
    | ok next =>
      rw [hstep] at hwalk
      -- the next place is where the walk ends, or where its next step starts
      have hnext : d.node? next = some .directory := by
        cases rest with
        | nil =>
          cases hwalk
          exact htarget
        | cons name' rest' =>
          replace hwalk : (d.step next name').bind (d.walk · rest') = .ok target := hwalk
          cases hstep' : d.step next name' with
          | error e =>
            rw [hstep'] at hwalk
            cases hwalk
          | ok next' => exact directory_of_step hstep'
      rw [step_of_keeps hk hstep hnext]
      exact ih hwalk

theorem leadsToDirectory_iff :
    d.leadsToDirectory from' names = true ↔ ∃ target, d.LeadsTo from' names target := by
  rw [leadsToDirectory]
  cases hwalk : d.walk from' names with
  | error e => simp [LeadsTo, hwalk]
  | ok target => simp [LeadsTo, hwalk, isDirectory]

/-! ## Paths -/

/-- What is found is where the walk ends; a path with a slash at its end leads to no file. -/
theorem find_eq_ok_iff {node : Node} :
    d.find p = .ok (place, node) ↔
      (∃ from', d.start p = .ok from' ∧ d.walk from' p.names = .ok place) ∧
        d.node? place = some node ∧ (node = .directory ∨ p.endsInSlash = false) := by
  rw [find]
  cases d.start p with
  | error e => simp [bind, Except.bind]
  | ok from' =>
    simp only [bind, Except.bind, Except.ok.injEq, exists_eq_left']
    cases d.walk from' p.names with
    | error e => simp
    | ok target =>
      simp only [Except.ok.injEq]
      constructor
      · intro h
        split at h
        · cases h
        · rename_i hnode
          cases h
          exact ⟨rfl, hnode, .inl rfl⟩
        · rename_i hnode
          split at h
          · cases h
          · rename_i hslash
            cases h
            exact ⟨rfl, hnode, .inr (by simpa using hslash)⟩
      · rintro ⟨rfl, hnode, hend⟩
        cases node with
        | directory =>
          simp only [hnode]
          rfl
        | file content =>
          have hslash : p.endsInSlash = false := hend.resolve_left nofun
          simp only [hnode, hslash]
          rfl

theorem find_eq_directory_iff :
    d.find p = .ok (place, .directory) ↔
      ∃ from', d.start p = .ok from' ∧ d.LeadsTo from' p.names place := by
  rw [find_eq_ok_iff]
  constructor
  · rintro ⟨⟨from', hstart, hwalk⟩, hnode, -⟩
    exact ⟨from', hstart, hwalk, hnode⟩
  · rintro ⟨from', hstart, hwalk, hnode⟩
    exact ⟨⟨from', hstart, hwalk⟩, hnode, .inl rfl⟩

/-- The empty path leads nowhere. -/
theorem nonempty_of_find {found : Location × Node} (h : d.find p = .ok found) :
    p.text.isEmpty = false := by
  rw [find, start] at h
  split at h
  · cases h
  · split at h
    · cases h
    · rename_i hne
      simpa using hne

theorem find_of_keeps (hk : Keeps d d') (h : d.find p = .ok (place, .directory)) :
    d'.find p = .ok (place, .directory) := by
  obtain ⟨from', hstart, hleads⟩ := find_eq_directory_iff.1 h
  refine find_eq_directory_iff.2 ⟨from', ?_, hleads.of_keeps hk⟩
  rw [← hstart, start, start, hk.here_eq]

/-! ## Files -/

theorem node?_set (hplace : place ≠ []) (node : Node) (other : Location) :
    (d.set place node).node? other = if other = place then some node else d.node? other := by
  by_cases h : other = place
  · subst h
    rw [if_pos rfl, node?, if_neg hplace]
    exact SortedMap.get?_insert_self ..
  · rw [if_neg h, node?, node?]
    congr 1
    exact SortedMap.get?_insert_ne d.nodes node h

theorem file_ne_nil {content : Bytes} (h : d.node? place = some (.file content)) :
    place ≠ [] := by
  rintro rfl
  cases h

/-- A walk does not look into files. -/
theorem walk_set_file {content : Bytes} (h : d.node? place = some (.file content)) (data : Bytes) :
    (d.set place (.file data)).walk from' names = d.walk from' names := by
  have hnode := node?_set (d := d) (file_ne_nil h) (.file data)
  have hstep : (d.set place (.file data)).step = d.step := by
    funext parent name
    simp only [step, hnode]
    by_cases hparent : parent = place
    · -- no step starts from a file, whatever is in it
      subst hparent
      rw [if_pos rfl, h]
    · rw [if_neg hparent]
      cases d.node? parent with
      | none => rfl
      | some node =>
        cases node with
        | file content => rfl
        | directory =>
          simp only
          congr 2
          unfold entry?
          rw [hnode]
          by_cases hchild : name :: parent = place
          · rw [if_pos hchild, hchild, h]
            cases place.head?.bind nameFault? <;> rfl
          · rw [if_neg hchild]
  rw [walk, walk, hstep]

/-- A path leads to a file also when the file has other content. -/
theorem find_set_file {content : Bytes} (h : d.find p = .ok (place, .file content))
    (data : Bytes) : (d.set place (.file data)).find p = .ok (place, .file data) := by
  obtain ⟨⟨from', hstart, hwalk⟩, hnode, hend⟩ := find_eq_ok_iff.1 h
  have hslash : p.endsInSlash = false := hend.resolve_left nofun
  refine find_eq_ok_iff.2 ⟨⟨from', hstart, ?_⟩, ?_, .inr hslash⟩
  · rw [walk_set_file hnode, hwalk]
  · rw [node?_set (file_ne_nil hnode), if_pos rfl]

/-! ## Making directories -/

/-- Something new takes nothing away. -/
theorem keeps_set (hplace : place ≠ []) {node : Node} (hfree : d.node? place = none) :
    Keeps d (d.set place node) := by
  refine ⟨rfl, fun other hother => ?_⟩
  rw [node?_set hplace, if_neg, hother]
  rintro rfl
  rw [hfree] at hother
  cases hother

/-- A directory that is there is not made. -/
theorem makeDirectory_of_leadsTo (h : d.LeadsTo from' names target) :
    makeDirectory from' names d = .error .fileExists d := by
  rw [makeDirectory, slot?]
  obtain ⟨hwalk, htarget⟩ := h
  rcases List.eq_nil_or_concat names with rfl | ⟨init, name, rfl⟩
  · rfl
  · rw [List.concat_eq_append] at hwalk ⊢
    rw [walk_concat] at hwalk
    rw [List.getLast?_concat, List.dropLast_concat]
    cases hparent : d.walk from' init with
    | error e =>
      rw [hparent] at hwalk
      cases hwalk
    | ok parent =>
      rw [hparent] at hwalk
      replace hwalk : d.step parent name = .ok target := hwalk
      have hdirectory := directory_of_step hwalk
      simp only [bind, Except.bind, isDirectory, hdirectory, decide_true, Bool.not_true,
        Bool.false_eq_true, if_false, pure, Except.pure]
      by_cases hdot : (name = "." || name = "..") = true
      · simp only [hdot, if_true]
      · simp only [hdot]
        simp only [Bool.or_eq_true, decide_eq_true_eq, not_or] at hdot
        simp only [step, hdirectory, if_neg hdot.1, if_neg hdot.2] at hwalk
        cases hentry : d.entry? (name :: parent) with
        | error e =>
          rw [hentry] at hwalk
          cases hwalk
        | ok node? =>
          rw [hentry] at hwalk
          cases node? with
          | none => cases hwalk
          | some node =>
            cases hwalk
            simp [discard, Functor.discard, Functor.mapConst, Except.map, htarget]

/-- An entry can only be made in a directory that the steps before the last one lead to. -/
theorem slot?_eq_some (h : d.slot? from' names = .ok (some place)) :
    ∃ init name parent, names = init ++ [name] ∧ d.LeadsTo from' init parent ∧ name ≠ "." ∧
      name ≠ ".." ∧ nameFault? name = none ∧ place = name :: parent := by
  rw [slot?] at h
  rcases List.eq_nil_or_concat names with rfl | ⟨init, name, rfl⟩
  · cases h
  rw [List.concat_eq_append] at h ⊢
  rw [List.getLast?_concat, List.dropLast_concat] at h
  cases hparent : d.walk from' init with
  | error e =>
    rw [hparent] at h
    cases h
  | ok parent =>
    simp only [hparent, bind, Except.bind] at h
    by_cases hdirectory : d.isDirectory parent = true
    · simp only [hdirectory, Bool.not_true, Bool.false_eq_true, if_false] at h
      by_cases hdot : (name = "." || name = "..") = true
      · rw [if_pos hdot] at h
        cases h
      · rw [if_neg hdot] at h
        cases hentry : d.entry? (name :: parent) with
        | error e =>
          rw [hentry] at h
          cases h
        | ok node? =>
          rw [hentry] at h
          cases h
          simp only [Bool.or_eq_true, decide_eq_true_eq, not_or] at hdot
          refine ⟨init, name, parent, rfl, ⟨hparent, by simpa [isDirectory] using hdirectory⟩,
            hdot.1, hdot.2, ?_, rfl⟩
          simp only [List.head?_cons, Option.bind_some, entry?] at hentry
          split at hentry
          · cases hentry
          · assumption
    · simp only [hdirectory] at h
      cases h

theorem fileSlot_eq_ok (h : d.fileSlot p = .ok place) :
    p.endsInSlash = false ∧ ∃ from', d.start p = .ok from' ∧
      d.slot? from' p.names = .ok (some place) := by
  obtain ⟨from', hstart, hrest⟩ := Update.except_bind_eq_ok_iff.1 h
  obtain ⟨slot, hslot, hend⟩ := Update.except_bind_eq_ok_iff.1 hrest
  cases slot with
  | none => cases hend
  | some new =>
    cases hslash : p.endsInSlash with
    | true => simp [hslash, throw, throwThe, MonadExceptOf.throw] at hend
    | false =>
      simp only [hslash] at hend
      cases hend
      exact ⟨rfl, from', hstart, hslot⟩

/-- A path leads to whatever is put where a file may be made at it. -/
theorem find_of_fileSlot {node : Node} (h : d.fileSlot p = .ok place) (hk : Keeps d d')
    (hnode : d'.node? place = some node) : d'.find p = .ok (place, node) := by
  obtain ⟨hslash, from', hstart, hslot⟩ := fileSlot_eq_ok h
  obtain ⟨init, name, parent, hnames, hinit, hdot, hdots, hfault, rfl⟩ := slot?_eq_some hslot
  have hstart' : d'.start p = .ok from' := by rw [← hstart, start, start, hk.here_eq]
  obtain ⟨hwalk, hparent⟩ := hinit.of_keeps hk
  have hstep : d'.step parent name = .ok (name :: parent) := by
    simp [step, hparent, hdot, hdots, entry?, hfault, hnode]
  refine find_eq_ok_iff.2 ⟨⟨from', hstart', ?_⟩, hnode, .inr hslash⟩
  rw [hnames, walk_concat, hwalk]
  exact hstep

/-- A directory that was made is where the steps lead. -/
theorem leadsTo_of_makeDirectory (h : makeDirectory from' names d = .ok () d') :
    Keeps d d' ∧ ∃ target, d'.LeadsTo from' names target := by
  rw [makeDirectory] at h
  split at h
  · cases h
  · cases h
  · rename_i new hslot
    obtain ⟨init, name, parent, rfl, hinit, hdot, hdots, hfault, rfl⟩ := slot?_eq_some hslot
    split at h
    · cases h
    · rename_i hfree
      cases h
      have hplace : name :: parent ≠ [] := List.cons_ne_nil _ _
      have hk : Keeps d (d.set (name :: parent) .directory) :=
        keeps_set hplace (by simpa using hfree)
      have hnew : (d.set (name :: parent) .directory).node? (name :: parent)
          = some .directory := by rw [node?_set hplace, if_pos rfl]
      refine ⟨hk, name :: parent, ?_, hnew⟩
      obtain ⟨hwalk, hdirectory⟩ := hinit.of_keeps hk
      rw [walk_concat, hwalk]
      show step _ parent name = _
      simp only [step, hdirectory, if_neg hdot, if_neg hdots, entry?, List.head?_cons,
        Option.bind_some, hfault, hnew]

theorem makeDirectory_error {e : IoError} (h : makeDirectory from' names d = .error e d') :
    d' = d := by
  rw [makeDirectory] at h
  split at h
  · cases h
    rfl
  · cases h
    rfl
  · split at h
    · cases h
      rfl
    · cases h

theorem leadsTo_of_check {e : IoError}
    (h : (if d.leadsToDirectory from' names then .ok () d else .error e d :
      EStateM.Result IoError Disk Unit) = .ok () d') :
    Keeps d d' ∧ ∃ target, d'.LeadsTo from' names target := by
  split at h
  · rename_i hleads
    cases h
    exact ⟨.refl d, leadsToDirectory_iff.1 hleads⟩
  · cases h

theorem leadsTo_of_settleDirectory (h : settleDirectory from' names d = .ok () d') :
    Keeps d d' ∧ ∃ target, d'.LeadsTo from' names target := by
  rw [settleDirectory] at h
  cases hmake : makeDirectory from' names d with
  | ok _ d₁ =>
    rw [hmake] at h
    cases h
    exact leadsTo_of_makeDirectory hmake
  | error e d₁ =>
    obtain rfl := makeDirectory_error hmake
    rw [hmake] at h
    exact leadsTo_of_check h

theorem leadsTo_of_makeDirectories (h : makeDirectories from' names outer d = .ok () d') :
    Keeps d d' ∧ ∃ target, d'.LeadsTo from' names target := by
  induction outer generalizing names d d' with
  | nil =>
    rw [makeDirectories] at h
    dsimp only at h
    split at h
    · rename_i hmake
      cases h
      exact leadsTo_of_makeDirectory hmake
    · rename_i hmake
      obtain rfl := makeDirectory_error hmake
      exact leadsTo_of_settleDirectory h
    · rename_i hmake
      obtain rfl := makeDirectory_error hmake
      exact leadsTo_of_check h
  | cons name rest ih =>
    rw [makeDirectories] at h
    dsimp only at h
    split at h
    · rename_i hmake
      cases h
      exact leadsTo_of_makeDirectory hmake
    · rename_i hmake
      obtain rfl := makeDirectory_error hmake
      split at h
      · rename_i houter
        obtain ⟨hk, htarget⟩ := leadsTo_of_settleDirectory h
        exact ⟨(ih houter).1.trans hk, htarget⟩
      · cases h
    · rename_i hmake
      obtain rfl := makeDirectory_error hmake
      exact leadsTo_of_check h

/-- **Once a path was made, it leads to a directory.** -/
theorem leadsTo_of_makePath (hne : p.text.isEmpty = false) (h : makePath p d = .ok () d') :
    ∃ place, d'.find p = .ok (place, .directory) := by
  rw [makePath, hne] at h
  simp only [Bool.false_eq_true, if_false] at h
  split at h
  · cases h
  · rename_i from' hstart
    obtain ⟨hk, target, htarget⟩ := leadsTo_of_makeDirectories h
    refine ⟨target, find_eq_directory_iff.2 ⟨from', ?_, htarget⟩⟩
    rw [← hstart, start, start, hk.here_eq]

theorem makeDirectories_of_leadsTo (h : d.LeadsTo from' names target) :
    makeDirectories from' names outer d = .ok () d := by
  have hmake := makeDirectory_of_leadsTo h
  have hleads := leadsToDirectory_iff.2 ⟨target, h⟩
  cases outer <;> rw [makeDirectories] <;> simp only [hmake, hleads, if_true]

/-- A path to a directory needs nothing to be made. -/
theorem makePath_eq (h : d.find p = .ok (place, .directory)) : makePath p d = .ok () d := by
  obtain ⟨from', hstart, hleads⟩ := find_eq_directory_iff.1 h
  rw [makePath]
  split
  · rfl
  · rw [hstart]
    exact makeDirectories_of_leadsTo hleads

end UpdateVault.Disk
