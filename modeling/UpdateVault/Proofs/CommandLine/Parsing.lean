import UpdateVault.CommandLine.Program
import UpdateVault.Proofs.Text
import UpdateVault.Proofs.Update

/-!
# Reading a command line

A command line is read argument by argument, and what has been given is settled level by level.
Whatever is given for a slot was read by the rule of that slot: each kind of argument keeps this
(`Scan.Sound`), so it holds of a command line as a whole (`Scan.Sound.all`). Of a path it says that
it is not empty (`nonempty_of_parse`).

Pairs behind a command that takes them are all read as pairs, whatever is in them, as long as none
begins with a hyphen (`parse_setProvides`).
-/

namespace UpdateVault.CommandLine

variable {slot : Slot} {values : List String} {arg : String}

/-! ## What is given -/

/-- An argument that is read from a text by the rule of its slot. -/
def Slot.Takes (slot : Slot) (a : Argument) : Prop :=
  ∃ rule text, slot.role = .takesValue rule ∧ rule.read text = .ok a

/-- A path that was read is not empty. -/
theorem nonempty_of_read {p : Path} {rule : ValueRule} {text : String}
    (h : rule.read text = .ok (.path p)) : p.text.isEmpty = false := by
  cases rule with
  | text => cases h
  | path =>
    simp only [ValueRule.read] at h
    split at h
    · cases h
    · rename_i hne
      cases h
      simpa using hne
  | _ =>
    simp only [ValueRule.read] at h
    split at h <;> cases h

namespace LevelState

variable {l l' : LevelState}

/-- What has been given on a level was read by the rules of the slots. -/
def Sound (l : LevelState) : Prop := ∀ given ∈ l.given, ∀ a ∈ given.2, given.1.Takes a

theorem Sound.initial (level : Level) : Sound { level } := fun _ hgiven => nomatch hgiven

theorem Sound.settle (h : l.Sound) (hsettle : l.settle slot values = .ok l') : l'.Sound := by
  have hadd {arguments : List Argument} (harguments : ∀ a ∈ arguments, slot.Takes a) :
      Sound { l with given := l.given ++ [(slot, arguments)] } := by
    refine List.forall_mem_append.2 ⟨h, ?_⟩
    simpa using harguments
  unfold LevelState.settle at hsettle
  cases hrole : slot.role with
  | asksHelp =>
    simp only [hrole] at hsettle
    cases hsettle
  | asksVersion =>
    simp only [hrole] at hsettle
    cases hsettle
  | switch =>
    simp only [hrole] at hsettle
    split at hsettle
    · cases hsettle
    · cases hsettle
      exact hadd nofun
  | takesValue rule =>
    simp only [hrole] at hsettle
    split at hsettle
    · cases hsettle
    · split at hsettle
      · cases hsettle
      · obtain ⟨arguments, hread, hsettle⟩ := Update.except_bind_eq_ok_iff.1 hsettle
        cases hsettle
        refine hadd fun a ha => ?_
        obtain ⟨text, -, hread⟩ := Update.except_mem_of_mapM hread ha
        exact ⟨rule, text, hrole, hread⟩

theorem Sound.resolve (h : l.Sound) (hresolve : l.resolve = .ok l') : l'.Sound := by
  unfold LevelState.resolve at hresolve
  split at hresolve
  · cases hresolve
    exact h
  · exact Sound.settle (l := { l with pending := none }) h hresolve

theorem Sound.finish (h : l.Sound) {isLast : Bool} (hfinish : l.finish isLast = .ok l') :
    l'.Sound := by
  obtain ⟨resolved, hresolve, hfinish⟩ := Update.except_bind_eq_ok_iff.1 hfinish
  dsimp only at hfinish
  split at hfinish
  · cases hfinish
  · split at hfinish
    · cases hfinish
      exact h.resolve hresolve
    · cases hfinish

end LevelState

namespace Scan

variable {s s' : Scan}

/-- What has been given on all levels was read by the rules of the slots. -/
structure Sound (s : Scan) : Prop where
  current : s.current.Sound
  outer : ∀ l ∈ s.outer, l.Sound

theorem Sound.give (h : s.Sound) (hgive : s.give slot values = .ok s') : s'.Sound := by
  obtain ⟨resolved, hresolve, hgive⟩ := Update.except_bind_eq_ok_iff.1 hgive
  obtain ⟨settled, hsettle, hgive⟩ := Update.except_bind_eq_ok_iff.1 hgive
  cases hgive
  exact ⟨(h.current.resolve hresolve).settle hsettle, h.outer⟩

theorem Sound.option (h : s.Sound) {attached : Option String}
    (hoption : s.option slot attached = .ok s') : s'.Sound := by
  unfold Scan.option at hoption
  split at hoption
  · exact h.give hoption
  · obtain ⟨resolved, hresolve, hawait⟩ := Update.except_bind_eq_ok_iff.1 hoption
    cases hawait
    have hresolved : resolved.Sound := h.current.resolve hresolve
    exact ⟨hresolved, h.outer⟩
  · cases hoption
  · exact h.give hoption

theorem Sound.longOption (h : s.Sound) {cs : List Char} (hlong : s.longOption cs = .ok s') :
    s'.Sound := by
  unfold Scan.longOption at hlong
  dsimp only at hlong
  split at hlong
  · exact h.option hlong
  · cases hlong

theorem Sound.letters (h : s.Sound) {cs : List Char} (hletters : letters cs s = .ok s') :
    s'.Sound := by
  induction cs generalizing s with
  | nil =>
    cases hletters
    exact h
  | cons c rest ih =>
    unfold Scan.letters at hletters
    split at hletters
    · cases hletters
    · split at hletters
      · exact h.option hletters
      · obtain ⟨next, hoption, hrest⟩ := Update.except_bind_eq_ok_iff.1 hletters
        exact ih (h.option hoption) hrest

theorem Sound.operand (h : s.Sound) (hoperand : s.operand arg = .ok s') : s'.Sound := by
  unfold Scan.operand at hoperand
  split at hoperand
  · cases hoperand
  · dsimp only at hoperand
    split at hoperand
    · split at hoperand
      · cases hoperand
        exact ⟨h.current, h.outer⟩
      · obtain ⟨resolved, hresolve, hnext⟩ := Update.except_bind_eq_ok_iff.1 hoperand
        cases hnext
        have hresolved : resolved.Sound := h.current.resolve hresolve
        exact ⟨hresolved, h.outer⟩
    · cases hoperand
      exact ⟨h.current, h.outer⟩

theorem Sound.argument (h : s.Sound) (hargument : s.argument arg = .ok s') : s'.Sound := by
  unfold Scan.argument at hargument
  split at hargument
  · exact h.operand hargument
  · split at hargument
    · cases hargument
      exact ⟨h.current, h.outer⟩
    · exact h.longOption hargument
    · exact h.letters hargument
    · split at hargument
      · cases hargument
        exact ⟨h.current, h.outer⟩
      · exact h.operand hargument

/-- **Every argument keeps what was given sound**, and so do all of them. -/
theorem Sound.all {arguments : List String} (h : s.Sound) (hall : Scan.all arguments s = .ok s') :
    s'.Sound := by
  induction arguments generalizing s with
  | nil =>
    cases hall
    exact h
  | cons arg rest ih =>
    unfold Scan.all at hall
    split at hall
    · cases hall
    · split at hall
      · exact ih ⟨.initial _, List.forall_mem_cons.2 ⟨h.current, h.outer⟩⟩ hall
      · obtain ⟨next, hargument, hrest⟩ := Update.except_bind_eq_ok_iff.1 hall
        exact ih (h.argument hargument) hrest

theorem Sound.finish {levels : List LevelState} (h : s.Sound) (hfinish : s.finish = .ok levels) :
    ∀ l ∈ levels, l.Sound := by
  obtain ⟨last, hlast, hfinish⟩ := Update.except_bind_eq_ok_iff.1 hfinish
  obtain ⟨outer, houter, hfinish⟩ := Update.except_bind_eq_ok_iff.1 hfinish
  cases hfinish
  refine List.forall_mem_cons.2 ⟨h.current.finish hlast, fun l hl => ?_⟩
  obtain ⟨before, hbefore, hl⟩ := Update.except_mem_of_mapM houter hl
  exact (h.outer before hbefore).finish hl

end Scan

theorem takes_of_mem_argumentsOf {levels : List LevelState} {a : Argument}
    (h : ∀ l ∈ levels, l.Sound) (ha : a ∈ argumentsOf levels slot) : slot.Takes a := by
  obtain ⟨l, hl, ha⟩ := List.mem_flatMap.1 ha
  obtain ⟨given, hgiven, ha⟩ := List.mem_flatMap.1 ha
  obtain ⟨hmem, hslot⟩ := List.mem_filter.1 hgiven
  rw [← of_decide_eq_true hslot]
  exact h l hl given hmem a ha

/-- **No path of a command line that was understood is empty.** -/
theorem nonempty_of_parse {arguments : List String} {i : Invocation} {p : Path}
    (h : parse arguments = .ok i) (hroot : i.root = some p) : p.text.isEmpty = false := by
  obtain ⟨s, hall, h⟩ := Update.except_bind_eq_ok_iff.1 h
  obtain ⟨levels, hfinish, h⟩ := Update.except_bind_eq_ok_iff.1 h
  have hstart : Scan.Sound { current := { level := .top } } := ⟨.initial _, nofun⟩
  have hlevels := (hstart.all hall).finish hfinish
  dsimp only at h
  split at h
  · cases h
  · cases h
    simp only [pathOf] at hroot
    split at hroot
    · rename_i first rest hgiven
      cases hroot
      obtain ⟨rule, text, -, hread⟩ :=
        takes_of_mem_argumentsOf hlevels (hgiven ▸ List.mem_cons_self)
      exact nonempty_of_read hread
    · cases hroot

theorem nonempty_defaultRoot (e : Environment) : e.defaultRoot.text.isEmpty = false := by
  rw [Environment.defaultRoot, Path.join, if_neg (by decide)]
  split <;> simp [programName]

theorem nonempty_rootIn {arguments : List String} {i : Invocation}
    (h : parse arguments = .ok i) (e : Environment) : (i.rootIn e).text.isEmpty = false := by
  rw [Invocation.rootIn]
  cases hroot : i.root with
  | none => exact nonempty_defaultRoot e
  | some p => exact nonempty_of_parse h hroot

/-! ## Options and operands -/

section

variable {arg : String} {rest args before : List String} {s : Scan}

/-- No command has a name that begins with a hyphen. -/
theorem child?_of_hyphen {cs : List Char} (harg : arg.toList = '-' :: cs) (level : Level) :
    level.child? arg = none := by
  have hnames : ∀ child ∈ level.children, child.1.toList.head? ≠ some '-' := by
    cases level <;> decide
  rw [Level.child?, List.lookup_eq_none_iff]
  intro child hchild
  rw [bne_iff_ne]
  rintro rfl
  exact hnames child hchild (by rw [harg]; rfl)

/-- What begins with a hyphen is an argument of the level that was reached. -/
theorem all_option {cs : List Char} (harg : arg.toList = '-' :: cs) :
    Scan.all (arg :: rest) s = s.argument arg >>= Scan.all rest := by
  have hhelp : (arg == Level.helpName) = false := by
    rw [beq_eq_false_iff_ne]
    rintro rfl
    exact absurd harg (by simp [Level.helpName])
  have hchild : s.child? arg = none := by
    rw [Scan.child?, child?_of_hyphen harg]
    split <;> rfl
  rw [Scan.all, Scan.isHelp, hhelp, Bool.and_false, if_neg (by decide), hchild]

/-- An option with its value behind an `=`. -/
theorem argument_long {name value : List Char} {rule : ValueRule}
    (harg : arg.toList = '-' :: '-' :: (name ++ '=' :: value)) (hne : name ≠ [])
    (hfree : '=' ∉ name) (htrailing : s.trailing = false)
    (hslot : s.current.level.long? (String.ofList name) = some slot)
    (hrole : slot.role = .takesValue rule) :
    s.argument arg = s.give slot [String.ofList value] := by
  have hspan : (name ++ '=' :: value).span (· != '=') = (name, '=' :: value) :=
    Text.span_of_free hfree
  obtain ⟨c, more, rfl⟩ := List.exists_cons_of_ne_nil hne
  rw [Scan.argument, htrailing, harg]
  simp only [Bool.false_eq_true, if_false, List.cons_append]
  rw [Scan.longOption, Scan.splitLong, ← List.cons_append, hspan]
  simp only [hslot, Scan.option, hrole]

theorem operand_of_plain (harg : arg.toList.head? ≠ some '-') (htrailing : s.trailing = false)
    (hawaiting : s.awaiting = false) : s.argument arg = s.operand arg := by
  have hhyphen {cs : List Char} (h : arg.toList = '-' :: cs) : False := harg (by rw [h]; rfl)
  rw [Scan.argument, htrailing, hawaiting]
  split
  · contradiction
  · split
    · rename_i h
      exact (hhyphen h).elim
    · rename_i h
      exact (hhyphen h).elim
    · rename_i h
      exact (hhyphen h).elim
    · rfl

/-! ## A list of pairs -/

variable {root : Path} {format : ResultFormat}

/-- The arguments that give a root and a format. -/
def frontArguments (root : Path) (format : ResultFormat) : List String :=
  ["--root=" ++ root.text, "--format=" ++ format.name]

/-- The command line that replaces the capabilities at a root. -/
def setLine (root : Path) (format : ResultFormat) (pairs : List String) : List String :=
  frontArguments root format ++ (["provides", "set"] ++ pairs)

/-- The command line that shows the capabilities at a root. -/
def getLine (root : Path) (format : ResultFormat) : List String :=
  frontArguments root format ++ ["provides", "get"]

/-- The level of the whole command line once its front is read. -/
def frontLevel (root : Path) (format : ResultFormat) : LevelState where
  level := .top
  given := [(.root, [.path root]), (.format, [.format format])]

theorem all_frontArguments (hroot : root.text.isEmpty = false) :
    Scan.all (frontArguments root format ++ rest) { current := { level := .top } }
      = Scan.all rest { current := frontLevel root format } := by
  have hrootChars : ("--root=" ++ root.text).toList
      = '-' :: '-' :: ("root".toList ++ '=' :: root.text.toList) := by
    simp [String.toList_append]
  have hformatChars : ("--format=" ++ format.name).toList
      = '-' :: '-' :: ("format=".toList ++ format.name.toList) := by
    simp [String.toList_append]
  have hrootArg : Scan.argument ("--root=" ++ root.text) { current := { level := .top } }
      = .ok { current := { level := .top, given := [(.root, [.path root])] } } := by
    have hread : ValueRule.path.read root.text = .ok (.path root) := by
      rw [ValueRule.read, hroot]
      rfl
    have hslot : Level.top.long? (String.ofList "root".toList) = some .root := by decide
    rw [argument_long hrootChars (by decide) (by decide) rfl hslot rfl, String.ofList_toList]
    simp only [Scan.give, LevelState.resolve, LevelState.settle, Slot.role, List.mapM_cons, hread]
    rfl
  have hformatArg : Scan.argument ("--format=" ++ format.name)
      { current := { level := .top, given := [(.root, [.path root])] } }
        = .ok { current := frontLevel root format } := by
    cases format <;> rfl
  rw [frontArguments, List.cons_append, all_option hrootChars, hrootArg]
  simp only [bind, Except.bind, List.cons_append, List.nil_append]
  rw [all_option hformatChars, hformatArg]
  rfl

/-- A command for pairs, of which some have been read. -/
def listing (before : List String) (outer : List LevelState) : Scan where
  current := { level := .setProvides, pending := some (.pairs, before) }
  outer

/-- Every argument that does not begin with a hyphen is one more pair. -/
theorem all_listing {outer : List LevelState} (hargs : ∀ a ∈ args, a.toList.head? ≠ some '-') :
    Scan.all args (listing before outer) = .ok (listing (before ++ args) outer) := by
  induction args generalizing before with
  | nil => rw [Scan.all, List.append_nil]
  | cons a rest ih =>
    obtain ⟨ha, hrest⟩ := List.forall_mem_cons.1 hargs
    have hoperand : Scan.argument a (listing before outer) = .ok (listing (before ++ [a]) outer) :=
      operand_of_plain ha rfl rfl
    have hnext : Scan.all rest (listing (before ++ [a]) outer)
        = .ok (listing (before ++ a :: rest) outer) := by
      rw [ih hrest, List.append_assoc, List.singleton_append]
    have hhelp : (listing before outer).isHelp a = false := rfl
    have hchild : (listing before outer).child? a = none := rfl
    rw [Scan.all, hhelp, hchild, hoperand]
    exact hnext

/-- **A command line for pairs is one for all of them**, in their order. -/
theorem parse_setProvides (hroot : root.text.isEmpty = false) (hne : args ≠ [])
    (hargs : ∀ a ∈ args, a.toList.head? ≠ some '-') :
    parse (setLine root format args) = .ok ⟨some root, format, none, .setProvides args⟩ := by
  obtain ⟨first, rest, rfl⟩ := List.exists_cons_of_ne_nil hne
  obtain ⟨hfirst, hrest⟩ := List.forall_mem_cons.1 hargs
  let outer : List LevelState := [{ level := .provides }, frontLevel root format]
  let given : LevelState :=
    { level := .setProvides, given := [(.pairs, (first :: rest).map .text)] }
  have hall : Scan.all (first :: rest) { current := { level := .setProvides }, outer }
      = .ok (listing (first :: rest) outer) := by
    have hoperand : Scan.argument first { current := { level := .setProvides }, outer }
        = .ok (listing [first] outer) := operand_of_plain hfirst rfl rfl
    have hhelp : Scan.isHelp first { current := { level := .setProvides }, outer } = false := rfl
    have hchild : Scan.child? first { current := { level := .setProvides }, outer } = none := rfl
    rw [Scan.all, hhelp, hchild, hoperand]
    exact all_listing hrest
  have hwords : Scan.all (["provides", "set"] ++ first :: rest)
      { current := frontLevel root format } = .ok (listing (first :: rest) outer) := hall
  have hfinish : (listing (first :: rest) outer).finish = .ok (given :: outer) := by
    have hread : (first :: rest).mapM ValueRule.text.read = .ok ((first :: rest).map .text) :=
      List.mapM_pure
    simp only [listing, Scan.finish, LevelState.finish, LevelState.resolve, LevelState.settle,
      Slot.role, hread]
    rfl
  have htexts : textsOf (given :: outer) .pairs = first :: rest := by
    have hgiven : argumentsOf (given :: outer) .pairs = (first :: rest).map .text := by
      simp [argumentsOf, given, outer, frontLevel]
    rw [textsOf, hgiven, List.filterMap_map]
    exact List.filterMap_some
  rw [parse, setLine, all_frontArguments hroot, hwords]
  simp only [bind, Except.bind, hfinish, given, List.head?_cons, Option.bind_some, commandOf,
    htexts]
  rfl

theorem parse_getProvides (hroot : root.text.isEmpty = false) :
    parse (getLine root format) = .ok ⟨some root, format, none, .getProvides⟩ := by
  rw [parse, getLine, all_frontArguments hroot]
  rfl

end

end UpdateVault.CommandLine
