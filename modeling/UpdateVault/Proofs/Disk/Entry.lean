import UpdateVault.Proofs.Disk.Frame
import UpdateVault.Proofs.Disk.Path

/-!
# Paths to an entry of a directory

A path that ends in a plain name (`Path.EndsIn`) leads, if anywhere, to the entry of that name in
the directory its other steps lead to (`Disk.ParentIs`), and that is the only place where a file can
be made at it (`fileSlot_eq_ok_iff`).
-/

namespace UpdateVault

namespace Text

variable {sep c : Char} {text piece : List Char}

/-- What a piece holds is in the text. -/
theorem mem_of_mem_pieces (h : piece ∈ pieces sep text) (hc : c ∈ piece) : c ∈ text := by
  obtain ⟨init, rest, hpieces⟩ := List.append_of_mem h
  rw [← joinPieces_pieces sep text, hpieces]
  clear hpieces h
  induction init with
  | nil => cases rest <;> simp [joinPieces, hc]
  | cons first others ih =>
    obtain ⟨second, more, hmore⟩ := List.exists_cons_of_ne_nil
      (List.append_ne_nil_of_right_ne_nil others (List.cons_ne_nil piece rest))
    rw [List.cons_append, hmore, joinPieces, ← hmore]
    · exact List.mem_append_right _ (List.mem_cons_of_mem _ ih)
    · exact List.cons_ne_nil second more

end Text

namespace Path

variable {p q : Path} {name suffix : String} {init : List String}

theorem mem_of_mem_names {c : Char} (h : name ∈ p.names) (hc : c ∈ name.toList) :
    c ∈ p.text.toList := by
  obtain ⟨piece, hpiece, rfl⟩ := List.mem_map.1 h
  rw [String.toList_ofList] at hc
  exact Text.mem_of_mem_pieces (List.mem_of_mem_filter hpiece) hc

/-- Without a slash at the end of a path, more characters go to its last name. -/
theorem names_extend (hnames : p.names = init ++ [name]) (hslash : p.endsInSlash = false)
    (hfree : '/' ∉ suffix.toList) : (p.extend suffix).names = init ++ [name ++ suffix] := by
  obtain ⟨front, last, hpieces, hextended⟩ := Text.pieces_append_free p.text.toList hfree
  -- the last piece is a name, as only a slash leaves an empty one behind it
  have hlast : last.isEmpty = false := by
    cases last with
    | cons c rest => rfl
    | nil =>
      have htext : p.text.toList = Text.joinPieces '/' (front ++ [[]]) := by
        rw [← hpieces, Text.joinPieces_pieces]
      rcases List.eq_nil_or_concat front with rfl | ⟨others, piece, rfl⟩
      · simp [names, hpieces] at hnames
      · rw [List.concat_eq_append, Text.joinPieces_concat] at htext
        simp [endsInSlash, htext] at hslash
  have hkept : (last ++ suffix.toList).isEmpty = false := by
    cases last with
    | nil => cases hlast
    | cons c rest => rfl
  rw [names, hpieces, List.filter_append, List.filter_cons_of_pos (by simp [hlast]),
    List.map_append] at hnames
  obtain ⟨rfl, hname⟩ := List.append_inj' hnames rfl
  cases hname
  rw [names, extend, String.toList_append, hextended, List.filter_append,
    List.filter_cons_of_pos (by simp [hkept]), List.map_append]
  simp [String.ofList_append]

/-- A name that can be that of an entry of a directory. -/
structure IsPlain (name : String) : Prop where
  nonempty : name ≠ ""
  slash_free : '/' ∉ name.toList
  ne_dot : name ≠ "."
  ne_dots : name ≠ ".."

theorem isPlain_of_names (hnames : p.names = [p.text]) (hdot : p.text ≠ ".")
    (hdots : p.text ≠ "..") : IsPlain p.text := by
  refine ⟨fun hempty => ?_, ?_, hdot, hdots⟩
  · rw [names, hempty] at hnames
    exact absurd hnames.symm (List.cons_ne_nil "" [])
  · have hmem : p.text ∈ p.names := by
      rw [hnames]
      exact List.mem_cons_self
    obtain ⟨piece, hpiece, hname⟩ := List.mem_map.1 hmem
    have hfree := Text.mem_pieces_free (List.mem_of_mem_filter hpiece)
    rwa [← String.toList_ofList (l := piece), hname] at hfree

/-- The last step of a path is a plain name, with no slash behind it. -/
structure EndsIn (p : Path) (name : String) : Prop where
  names_eq : p.names = p.names.dropLast ++ [name]
  endsInSlash_eq : p.endsInSlash = false
  ne_dot : name ≠ "."
  ne_dots : name ≠ ".."

namespace EndsIn

theorem extend (h : p.EndsIn name) (hfree : '/' ∉ suffix.toList) (hdot : name ++ suffix ≠ ".")
    (hdots : name ++ suffix ≠ "..") : (p.extend suffix).EndsIn (name ++ suffix) ∧
      (p.extend suffix).names.dropLast = p.names.dropLast := by
  have hnames := names_extend h.names_eq h.endsInSlash_eq hfree
  refine ⟨⟨by rw [hnames, List.dropLast_concat], ?_, hdot, hdots⟩,
    by rw [hnames, List.dropLast_concat]⟩
  have hslash := h.endsInSlash_eq
  rw [endsInSlash, decide_eq_false_iff_not] at hslash ⊢
  rw [Path.extend, String.toList_append, List.getLast?_append]
  cases hlast : suffix.toList.getLast? with
  | none => simpa using hslash
  | some c =>
    rintro hc
    cases hc
    exact hfree (List.mem_of_getLast? hlast)

theorem unique (h : p.EndsIn name) {other : String} (h' : p.EndsIn other) : other = name := by
  obtain ⟨-, hlast⟩ := List.append_inj' (h'.names_eq.symm.trans h.names_eq) rfl
  exact List.head_eq_of_cons_eq hlast

/-- A plain name is the last step of its path below another. -/
theorem join (p : Path) (h : IsPlain name) :
    (p.join ⟨name⟩).EndsIn name ∧ (p.join ⟨name⟩).names.dropLast = p.names := by
  obtain ⟨hrelative, hname⟩ := names_of_free (p := ⟨name⟩) h.nonempty h.slash_free
  have hnames : (p.join ⟨name⟩).names = p.names ++ [name] := by
    rw [joined_names hrelative, hname]
  refine ⟨⟨by rw [hnames, List.dropLast_concat], ?_, h.ne_dot, h.ne_dots⟩,
    by rw [hnames, List.dropLast_concat]⟩
  rw [endsInSlash_join h.nonempty hrelative, endsInSlash, decide_eq_false_iff_not]
  exact fun hslash => h.slash_free (List.mem_of_getLast? hslash)

end EndsIn

theorem isAbsolute_extend (hne : p.text ≠ "") (suffix : String) :
    (p.extend suffix).isAbsolute = p.isAbsolute := by
  obtain ⟨c, rest, hp⟩ := List.exists_cons_of_ne_nil (mt String.toList_eq_nil_iff.1 hne)
  simp [isAbsolute, extend, String.toList_append, hp]

theorem join_extend (p : Path) (hne : q.text ≠ "") (suffix : String) :
    (p.join q).extend suffix = p.join (q.extend suffix) := by
  rw [join, join, isAbsolute_extend hne]
  split
  · rfl
  · split <;> simp only [extend, String.append_assoc]

end Path

namespace Disk

variable {d d' : Disk} {p : Path} {node : Node} {name suffix : String}
  {from' parent place target : Location}

/-- The last step of a path is taken in a directory that is there. -/
def ParentIs (d : Disk) (p : Path) (parent : Location) : Prop :=
  ∃ from', d.start p = .ok from' ∧ d.LeadsTo from' p.names.dropLast parent

theorem start_extend (h : d.start p = .ok from') (hfault : pathFault? (p.extend suffix) = none) :
    d.start (p.extend suffix) = .ok from' := by
  obtain ⟨-, hsome, rfl⟩ := start_eq_ok h
  have hne : p.text ≠ "" := by simpa using hsome
  have hsome' : (p.extend suffix).text.isEmpty = false := by simp [Path.extend, hne]
  rw [start, hfault, hsome', Path.isAbsolute_extend hne]
  rfl

theorem fileSlot_of_parent (hpath : p.EndsIn name) (h : d.ParentIs p parent)
    (hfault : nameFault? name = none) : d.fileSlot p = .ok (name :: parent) := by
  obtain ⟨from', hstart, hwalk, hparent⟩ := h
  have hdot : (name = "." || name = "..") = false := by simp [hpath.ne_dot, hpath.ne_dots]
  have hslot : d.slot? from' p.names = .ok (some (name :: parent)) := by
    rw [slot?, hpath.names_eq, List.getLast?_concat, List.dropLast_concat]
    simp only [hwalk, bind, Except.bind, isDirectory, hparent, decide_true, Bool.not_true,
      Bool.false_eq_true, if_false, hdot, entry?, List.head?_cons, Option.bind_some, hfault]
    rfl
  simp only [fileSlot, hstart, hslot, bind, Except.bind, hpath.endsInSlash_eq,
    Bool.false_eq_true, if_false]
  rfl

/-- A path that ends in a plain name leads to the entry of that name. -/
theorem parentIs_of_find (hpath : p.EndsIn name) (h : d.find p = .ok (place, node)) :
    ∃ parent, place = name :: parent ∧ d.ParentIs p parent ∧ nameFault? name = none := by
  obtain ⟨⟨from', hstart, hwalk⟩, -⟩ := find_eq_ok_iff.1 h
  rw [hpath.names_eq, walk_concat] at hwalk
  obtain ⟨parent, hinit, hstep⟩ := Update.except_bind_eq_ok_iff.1 hwalk
  have hparent := directory_of_step hstep
  simp only [step, hparent, if_neg hpath.ne_dot, if_neg hpath.ne_dots, entry?, List.head?_cons,
    Option.bind_some] at hstep
  cases hfault : nameFault? name with
  | some e =>
    rw [hfault] at hstep
    cases hstep
  | none =>
    rw [hfault] at hstep
    split at hstep
    · cases hstep
    · cases hstep
    · cases hstep
      exact ⟨parent, rfl, ⟨from', hstart, hinit, hparent⟩, rfl⟩

/-- A file may be made at a path that ends in a plain name, in a directory that is there. -/
theorem fileSlot_eq_ok_iff : d.fileSlot p = .ok place ↔
    ∃ name parent, p.EndsIn name ∧ d.ParentIs p parent ∧ nameFault? name = none ∧
      place = name :: parent := by
  constructor
  · intro h
    obtain ⟨hslash, from', hstart, hslot⟩ := fileSlot_eq_ok h
    obtain ⟨init, name, parent, hnames, hinit, hdot, hdots, hfault, rfl⟩ := slot?_eq_some hslot
    refine ⟨name, parent, ⟨by rw [hnames, List.dropLast_concat], hslash, hdot, hdots⟩,
      ⟨from', hstart, ?_⟩, hfault, rfl⟩
    rwa [hnames, List.dropLast_concat]
  · rintro ⟨name, parent, hpath, hparent, hfault, rfl⟩
    exact fileSlot_of_parent hpath hparent hfault

theorem parentIs_join (hp : d.find p = .ok (place, .directory)) (hname : Path.IsPlain name)
    (hfault : pathFault? (p.join ⟨name⟩) = none) : d.ParentIs (p.join ⟨name⟩) place := by
  obtain ⟨from', hstart, hleads⟩ := find_eq_directory_iff.1 hp
  have hrelative := (Path.names_of_free (p := ⟨name⟩) hname.nonempty hname.slash_free).1
  refine ⟨from', start_join hstart hrelative hfault, ?_⟩
  rwa [(Path.EndsIn.join p hname).2]

theorem ParentIs.of_keeps (hk : Keeps d d') (h : d.ParentIs p parent) : d'.ParentIs p parent := by
  obtain ⟨from', hstart, hleads⟩ := h
  refine ⟨from', ?_, hleads.of_keeps hk⟩
  rw [← hstart, start, start, hk.here_eq]

theorem ParentIs.unique (h : d.ParentIs p parent) {other : Location} (h' : d.ParentIs p other) :
    other = parent := by
  obtain ⟨from', hstart, hwalk, -⟩ := h
  obtain ⟨from'', hstart', hwalk', -⟩ := h'
  rw [hstart] at hstart'
  cases hstart'
  rw [hwalk] at hwalk'
  cases hwalk'
  rfl

theorem fileSlot_of_keeps (hk : Keeps d d') (h : d.fileSlot p = .ok place) :
    d'.fileSlot p = .ok place := by
  obtain ⟨name, parent, hpath, hparent, hfault, rfl⟩ := fileSlot_eq_ok_iff.1 h
  exact fileSlot_of_parent hpath (hparent.of_keeps hk) hfault

/-- A path leads where it led before if no file changed there. -/
theorem find_of_changes {ps : List Location} {found : Location × Node} (hpath : p.EndsIn name)
    (h : ChangesFiles ps d d') (hother : ∀ parent, d.ParentIs p parent → name :: parent ∉ ps)
    (hfind : d.find p = .ok found) : d'.find p = .ok found := by
  obtain ⟨place, node⟩ := found
  obtain ⟨parent, rfl, hparent, hfault⟩ := parentIs_of_find hpath hfind
  have hnode : d'.node? (name :: parent) = some node := by
    rw [h.same _ (hother parent hparent)]
    exact (find_eq_ok_iff.1 hfind).2.1
  exact find_of_fileSlot (fileSlot_of_parent hpath hparent hfault) h.keeps hnode

theorem find_congr {ps : List Location} {found : Location × Node} (hpath : p.EndsIn name)
    (h : ChangesFiles ps d d') (hother : ∀ parent, d.ParentIs p parent → name :: parent ∉ ps) :
    d'.find p = .ok found ↔ d.find p = .ok found := by
  refine ⟨find_of_changes hpath h.symm fun parent hparent => ?_, find_of_changes hpath h hother⟩
  exact hother parent (hparent.of_keeps h.symm.keeps)

/-- A path at which a file may be made leads to that place only. -/
theorem place_of_find (h : d.fileSlot p = .ok place)
    (hfind : d.find p = .ok (target, node)) : target = place := by
  obtain ⟨name, parent, hpath, hparent, -, rfl⟩ := fileSlot_eq_ok_iff.1 h
  obtain ⟨other, rfl, hother, -⟩ := parentIs_of_find hpath hfind
  rw [hparent.unique hother]

end Disk

end UpdateVault
