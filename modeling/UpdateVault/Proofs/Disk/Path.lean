import UpdateVault.Proofs.Disk.Walk
import UpdateVault.Proofs.Text

/-!
# Paths below a directory

A relative path joined to one that leads to a directory goes on from there (`joined_names`,
`find_joined_iff`), and a path of a single part leads to no file there but the one it names
(`ne_of_find_single`). More characters at the end of a path change its last name only
(`extended_names`).
-/

namespace UpdateVault

namespace Text

variable {sep : Char} {text suffix : List Char}

/-- A separator ends one piece and begins another. -/
theorem pieces_append_cons (text more : List Char) :
    pieces sep (text ++ sep :: more) = pieces sep text ++ pieces sep more := by
  induction text with
  | nil => simp [pieces]
  | cons c rest ih =>
    rw [List.cons_append, pieces, pieces, ih]
    by_cases hc : c = sep
    · rw [if_pos hc, if_pos hc, List.cons_append]
    · obtain ⟨piece, others, hpieces⟩ := List.exists_cons_of_ne_nil (pieces_ne_nil sep rest)
      rw [if_neg hc, if_neg hc, hpieces]
      rfl

/-- What is put at the end of a text goes to the last piece. -/
theorem pieces_append_free (text : List Char) (hfree : sep ∉ suffix) :
    ∃ init last, pieces sep text = init ++ [last] ∧
      pieces sep (text ++ suffix) = init ++ [last ++ suffix] := by
  obtain ⟨init, last, hpieces⟩ : ∃ init last, pieces sep text = init ++ [last] :=
    ⟨_, _, (List.dropLast_concat_getLast (pieces_ne_nil sep text)).symm⟩
  refine ⟨init, last, hpieces, ?_⟩
  have htext : text ++ suffix = joinPieces sep (init ++ [last ++ suffix]) := by
    rw [joinPieces_concat, ← List.append_assoc, ← joinPieces_concat, ← hpieces, joinPieces_pieces]
  have hpiece (piece : List Char) (h : piece ∈ init ++ [last]) : sep ∉ piece :=
    mem_pieces_free (hpieces ▸ h)
  rw [htext]
  refine pieces_joinPieces (by simp) (List.forall_mem_append.2 ⟨fun piece h => ?_, ?_⟩)
  · exact hpiece piece (List.mem_append_left _ h)
  · simpa using ⟨hpiece last (by simp), hfree⟩

end Text

namespace Path

variable {p q : Path} {suffix : String}

/-- A relative path below another adds its steps to those of the other. -/
theorem joined_names (hrelative : q.isAbsolute = false) :
    (p.join q).names = p.names ++ q.names := by
  rw [join, if_neg (by simp [hrelative])]
  split
  · rename_i hend
    rcases Bool.or_eq_true_iff.1 hend with hempty | hslash
    · have htext : p.text = "" := by simpa using hempty
      simp [names, htext, Text.pieces]
    · -- the slash at the end of the path is the one that separates the two
      rw [endsInSlash, decide_eq_true_eq] at hslash
      obtain ⟨front, hfront⟩ : ∃ front, p.text.toList = front ++ ['/'] :=
        List.getLast?_eq_some_iff.1 hslash
      have hjoined : (p.text ++ q.text).toList = front ++ '/' :: q.text.toList := by
        simp [String.toList_append, hfront]
      simp only [names, hjoined, hfront, Text.pieces_append_cons]
      simp [Text.pieces]
  · have hjoined : (p.text ++ "/" ++ q.text).toList = p.text.toList ++ '/' :: q.text.toList := by
      simp [String.toList_append]
    simp only [names, hjoined, Text.pieces_append_cons, List.filter_append, List.map_append]

theorem isAbsolute_join (hne : p.text.isEmpty = false) (hrelative : q.isAbsolute = false) :
    (p.join q).isAbsolute = p.isAbsolute := by
  obtain ⟨c, rest, hp⟩ : ∃ c rest, p.text.toList = c :: rest := by
    refine List.exists_cons_of_ne_nil fun hnil => ?_
    rw [String.toList_eq_nil_iff.1 hnil] at hne
    exact absurd hne (by decide)
  rw [join, if_neg (by simp [hrelative])]
  split <;> simp [isAbsolute, String.toList_append, hp]

theorem isEmpty_join (hne : p.text.isEmpty = false) (hrelative : q.isAbsolute = false) :
    (p.join q).text.isEmpty = false := by
  have hp : p.text ≠ "" := by simpa using hne
  rw [join, if_neg (by simp [hrelative])]
  split <;> simp [hp]

theorem endsInSlash_join (hne : q.text ≠ "") (hrelative : q.isAbsolute = false) :
    (p.join q).endsInSlash = q.endsInSlash := by
  obtain ⟨front, c, hq⟩ : ∃ front c, q.text.toList = front ++ [c] :=
    ⟨_, _, (List.dropLast_concat_getLast (mt String.toList_eq_nil_iff.1 hne)).symm⟩
  rw [join, if_neg (by simp [hrelative])]
  split <;> simp [endsInSlash, String.toList_append, hq, List.getLast?_cons]

/-- More characters change the last name of a path, or are a name of their own. -/
theorem extended_names (hne : suffix ≠ "") (hfree : '/' ∉ suffix.toList) :
    ∃ init last, (p.extend suffix).names = init ++ [last ++ suffix] := by
  obtain ⟨init, last, -, hpieces⟩ := Text.pieces_append_free p.text.toList hfree
  refine ⟨(init.filter (! ·.isEmpty)).map String.ofList, String.ofList last, ?_⟩
  have hkept : (last ++ suffix.toList).isEmpty = false := by
    simp [String.toList_eq_nil_iff, hne]
  rw [names, extend, String.toList_append, hpieces, List.filter_append,
    List.filter_cons_of_pos (by simp [hkept]), List.map_append]
  simp [String.ofList_append]

/-- A path without a slash is a relative one of one step. -/
theorem names_of_free (hne : p.text ≠ "") (hfree : '/' ∉ p.text.toList) :
    p.isAbsolute = false ∧ p.names = [p.text] := by
  constructor
  · rw [isAbsolute, decide_eq_false_iff_not]
    exact fun hslash => hfree (List.mem_of_head? hslash)
  · have hkept : p.text.toList.isEmpty = false := by simpa using hne
    rw [names, Text.pieces_of_free hfree, List.filter_cons_of_pos (by simp [hkept])]
    simp

/-- A relative path of one step that does not end in a slash is the name of the step. -/
theorem text_of_names {name : String} (hnames : p.names = [name])
    (hrelative : p.isAbsolute = false) (hslash : p.endsInSlash = false) : p.text = name := by
  obtain ⟨first, rest, hpieces⟩ :=
    List.exists_cons_of_ne_nil (Text.pieces_ne_nil '/' p.text.toList)
  have htext : p.text.toList = Text.joinPieces '/' (first :: rest) := by
    rw [← hpieces, Text.joinPieces_pieces]
  rw [names, hpieces] at hnames
  rcases List.eq_nil_or_concat rest with rfl | ⟨init, last, rfl⟩
  · have hfirst : String.ofList first = name := by
      cases first with
      | nil => cases hnames
      | cons c more => exact (List.cons.inj hnames).1
    rw [← hfirst, ← String.ofList_toList (s := p.text), htext]
    rfl
  · -- both ends of the text are steps then, and there is only one
    rw [List.concat_eq_append] at htext hnames
    have hfirst : first.isEmpty = false := by
      cases first with
      | nil => cases init <;> simp [isAbsolute, htext, Text.joinPieces] at hrelative
      | cons c more => rfl
    have hlast : last.isEmpty = false := by
      cases last with
      | nil =>
        rw [← List.cons_append, Text.joinPieces_concat] at htext
        rcases List.eq_nil_or_concat (first :: init) with hnil | ⟨front, piece, hfront⟩
        · cases hnil
        · simp [endsInSlash, htext, hfront] at hslash
      | cons c more => rfl
    have hlength := congrArg List.length hnames
    simp [hfirst, hlast] at hlength

/-- A path of a single part stays where it starts, or begins with its only other step. -/
theorem names_of_isSingle (h : p.isSingle = true) :
    (∀ name ∈ p.names, name = ".") ∨
      p.isAbsolute = false ∧ ∃ name rest, p.names = name :: rest ∧ name ≠ "." ∧
        ∀ other ∈ rest, other = "." := by
  rw [isSingle, decide_eq_true_eq, parts] at h
  have hdots {names : List String} (hnone : names.filter (· != ".") = []) :
      ∀ name ∈ names, name = "." := by
    simpa [List.filter_eq_nil_iff] using hnone
  by_cases habsolute : p.isAbsolute = true
  · rw [if_pos habsolute] at h
    exact .inl (hdots (List.eq_nil_of_length_eq_zero (by simpa using h)))
  · by_cases hhere : p.startsHere = true
    · rw [if_neg habsolute, if_pos hhere] at h
      exact .inl (hdots (List.eq_nil_of_length_eq_zero (by simpa using h)))
    · rw [if_neg habsolute, if_neg hhere, List.nil_append] at h
      cases hnames : p.names with
      | nil => exact .inl nofun
      | cons name rest =>
        have hname : name ≠ "." := by
          rintro rfl
          simp [startsHere, hnames, habsolute] at hhere
        rw [hnames, List.filter_cons_of_pos (by simpa using hname), List.length_cons] at h
        refine .inr ⟨by simpa using habsolute, name, rest, rfl, hname, ?_⟩
        exact hdots (List.eq_nil_of_length_eq_zero (Nat.succ.inj h))

end Path

namespace Disk

variable {d : Disk} {p q : Path} {top place from' : Location} {names more : List String}
  {node : Node} {name suffix : String}

theorem walk_append :
    d.walk from' (names ++ more) = (d.walk from' names).bind (d.walk · more) :=
  List.foldlM_append

/-- Steps that stay where they are. -/
theorem eq_of_walk_dots (hdots : ∀ name ∈ names, name = ".")
    (h : d.walk from' names = .ok place) : place = from' := by
  induction names with
  | nil =>
    cases h
    rfl
  | cons name rest ih =>
    obtain ⟨rfl, hrest⟩ := List.forall_mem_cons.1 hdots
    rw [walk_cons] at h
    obtain ⟨next, hstep, hwalk⟩ := Update.except_bind_eq_ok_iff.1 h
    have hstay : next = from' := by
      have hfrom := directory_of_step hstep
      simp only [step, hfrom, if_true] at hstep
      cases hstep
      rfl
    subst hstay
    exact ih hrest hwalk

theorem start_eq_ok (h : d.start p = .ok from') :
    pathFault? p = none ∧ p.text.isEmpty = false ∧
      from' = if p.isAbsolute then [] else d.here := by
  rw [start] at h
  split at h
  · cases h
  · rename_i hfault
    split at h
    · cases h
    · rename_i hne
      cases h
      exact ⟨hfault, by simpa using hne, rfl⟩

/-- A path below a directory starts where the directory's path does. -/
theorem start_join (hstart : d.start p = .ok from') (hrelative : q.isAbsolute = false)
    (hfault : pathFault? (p.join q) = none) : d.start (p.join q) = .ok from' := by
  obtain ⟨-, hne, rfl⟩ := start_eq_ok hstart
  rw [start, hfault, Path.isEmpty_join hne hrelative, Path.isAbsolute_join hne hrelative]
  rfl

theorem start_of_join (hstart : d.start p = .ok top) (hrelative : q.isAbsolute = false)
    (h : d.start (p.join q) = .ok from') : from' = top := by
  have := start_join hstart hrelative (start_eq_ok h).1
  rw [this] at h
  cases h
  rfl

/-- A path below a directory leads where its own steps lead from there. -/
theorem find_joined_iff (hp : d.find p = .ok (top, .directory)) (hrelative : q.isAbsolute = false) :
    d.find (p.join q) = .ok (place, node) ↔
      pathFault? (p.join q) = none ∧ d.walk top q.names = .ok place ∧
        d.node? place = some node ∧ (node = .directory ∨ (p.join q).endsInSlash = false) := by
  obtain ⟨from', hstart, hwalk, -⟩ := find_eq_directory_iff.1 hp
  have hnames : d.walk from' (p.join q).names = d.walk top q.names := by
    rw [Path.joined_names hrelative, walk_append, hwalk]
    rfl
  rw [find_eq_ok_iff]
  constructor
  · rintro ⟨⟨from'', hstart', hwalk'⟩, hnode, hend⟩
    obtain rfl := start_of_join hstart hrelative hstart'
    exact ⟨(start_eq_ok hstart').1, hnames ▸ hwalk', hnode, hend⟩
  · rintro ⟨hfault, hwalk', hnode, hend⟩
    exact ⟨⟨from', start_join hstart hrelative hfault, hnames.trans hwalk'⟩, hnode, hend⟩

/-- A plain name below a directory leads to the entry of that name. -/
theorem place_of_find_join (hp : d.find p = .ok (top, .directory)) (hne : name ≠ "")
    (hfree : '/' ∉ name.toList) (hdot : name ≠ ".") (hdots : name ≠ "..")
    (h : d.find (p.join ⟨name⟩) = .ok (place, node)) : place = name :: top := by
  obtain ⟨hrelative, hnames⟩ := Path.names_of_free (p := ⟨name⟩) hne hfree
  obtain ⟨-, hwalk, -⟩ := (find_joined_iff hp hrelative).1 h
  rw [hnames, walk_cons] at hwalk
  obtain ⟨next, hstep, hrest⟩ := Update.except_bind_eq_ok_iff.1 hwalk
  cases hrest
  have htop := (find_eq_ok_iff.1 hp).2.1
  simp only [step, htop, if_neg hdot, if_neg hdots] at hstep
  split at hstep
  · cases hstep
  · cases hstep
  · cases hstep
    rfl

/-- A file below a directory, by a path of one step, is made in the directory itself. -/
theorem fileSlot_join (hp : d.find p = .ok (top, .directory)) (hrelative : q.isAbsolute = false)
    (hnames : q.names = [name]) (h : d.fileSlot (p.join q) = .ok place) :
    pathFault? (p.join q) = none ∧ place = name :: top := by
  obtain ⟨from', hstart, hwalk, -⟩ := find_eq_directory_iff.1 hp
  obtain ⟨-, from'', hstart', hslot⟩ := fileSlot_eq_ok h
  obtain rfl := start_of_join hstart hrelative hstart'
  obtain ⟨init, last, parent, hsteps, ⟨hparent, -⟩, -, -, -, rfl⟩ := slot?_eq_some hslot
  rw [Path.joined_names hrelative, hnames] at hsteps
  obtain ⟨rfl, hlast⟩ := List.append_inj' hsteps rfl
  cases hlast
  rw [hwalk] at hparent
  cases hparent
  exact ⟨(start_eq_ok hstart').1, rfl⟩

/-- A file at a path with more characters at its end has them at the end of its name. -/
theorem fileSlot_extend (hne : suffix ≠ "") (hfree : '/' ∉ suffix.toList)
    (h : d.fileSlot (p.extend suffix) = .ok place) :
    ∃ name parent, place = (name ++ suffix) :: parent := by
  obtain ⟨-, from', -, hslot⟩ := fileSlot_eq_ok h
  obtain ⟨init, last, parent, hsteps, -, -, -, -, rfl⟩ := slot?_eq_some hslot
  obtain ⟨init', name, hnames⟩ := Path.extended_names (p := p) hne hfree
  obtain ⟨-, hlast⟩ := List.append_inj' (hsteps.symm.trans hnames) rfl
  cases hlast
  exact ⟨name, parent, rfl⟩

/-- A path of a single part leads to no file below a directory but the one that it names; the
directory around that one is where it may lead too. -/
theorem place_of_find_single (hp : d.find p = .ok (top, .directory)) (hsingle : q.isSingle = true)
    {content : Bytes} (h : d.find (p.join q) = .ok (place, .file content)) :
    place = top.tail ∨ place = q.text :: top ∧ q.isAbsolute = false ∧ q.names = [q.text] ∧
      q.text ≠ "." ∧ q.text ≠ ".." := by
  have htop := (find_eq_ok_iff.1 hp).2.1
  have hnode := (find_eq_ok_iff.1 h).2.1
  rcases Path.names_of_isSingle hsingle with hdots | ⟨hrelative, first, rest, hnames, hfirst, hdots⟩
  · -- such a path stays at a directory
    by_cases habsolute : q.isAbsolute = true
    · rw [Path.join, if_pos habsolute] at h
      obtain ⟨⟨from', hstart, hwalk⟩, -⟩ := find_eq_ok_iff.1 h
      obtain ⟨-, -, hfrom⟩ := start_eq_ok hstart
      rw [if_pos habsolute] at hfrom
      rw [eq_of_walk_dots hdots hwalk, hfrom] at hnode
      cases hnode
    · obtain ⟨-, hwalk, -⟩ := (find_joined_iff hp (by simpa using habsolute)).1 h
      rw [eq_of_walk_dots hdots hwalk, htop] at hnode
      cases hnode
  · obtain ⟨-, hwalk, -, hend⟩ := (find_joined_iff hp hrelative).1 h
    rw [hnames, walk_cons] at hwalk
    obtain ⟨next, hstep, hrest⟩ := Update.except_bind_eq_ok_iff.1 hwalk
    obtain rfl := eq_of_walk_dots hdots hrest
    -- no step starts from a file, so the first one is the last one too
    have hlast : rest = [] := by
      cases rest with
      | nil => rfl
      | cons second others =>
        rw [walk_cons] at hrest
        obtain ⟨_, hsecond, -⟩ := Update.except_bind_eq_ok_iff.1 hrest
        have := directory_of_step hsecond
        rw [hnode] at this
        cases this
    simp only [step, htop, if_neg hfirst] at hstep
    split at hstep
    · exact .inl (Except.ok.inj hstep).symm
    · rename_i hup
      split at hstep
      · cases hstep
      · cases hstep
      · cases hstep
        have hne : q.text ≠ "" := by
          intro hempty
          rw [hlast, Path.names, hempty] at hnames
          exact absurd hnames.symm (List.cons_ne_nil first [])
        have hslash : q.endsInSlash = false :=
          (Path.endsInSlash_join hne hrelative).symm.trans (hend.resolve_left (by simp))
        obtain rfl := Path.text_of_names (hlast ▸ hnames) hrelative hslash
        exact .inr ⟨rfl, hrelative, hlast ▸ hnames, hfirst, hup⟩

/-- The only file in a directory that a path of a single part can lead to is the one it names. -/
theorem ne_of_find_single (hp : d.find p = .ok (top, .directory)) (hsingle : q.isSingle = true)
    {content : Bytes} (h : d.find (p.join q) = .ok (place, .file content)) (hname : q.text ≠ name) :
    place ≠ name :: top := by
  rintro rfl
  rcases place_of_find_single hp hsingle h with hplace | ⟨hplace, -⟩
  · have hlength := congrArg List.length hplace
    simp only [List.length_tail, List.length_cons] at hlength
    omega
  · exact hname (List.head_eq_of_cons_eq hplace).symm

end Disk

end UpdateVault
