import UpdateVault.Json.Print
import UpdateVault.Json.Typed
import UpdateVault.Proofs.Json.Number
import UpdateVault.Proofs.Json.Quoted

/-!
# Reading what was printed

`Reads r text a` says that a reader finds `a` in a text, whatever blanks stand before it and
whatever may follow a value on lines of their own. Scalars are read from their text
(`reads_text`, `reads_natural`, `reads_choice`), and a record from the members of an object if
each of them is read from its own (`reads_record`).
-/

namespace UpdateVault.Json

/-- The members of an object, of which any other value has none. -/
def Value.members : Value → List (String × Value)
  | object members => members
  | _ => []

namespace Reader

variable {α β σ : Type} {r : Reader α} {text blanks rest : List Char} {a : α} {b : β} {s s' : σ}

/-- What may follow a value that was printed on lines of their own. -/
def Closes (rest : List Char) : Prop := ∀ c ∈ rest.head?, c = ',' ∨ c = '\n'

/-- Whether a reader finds a value in a text. -/
def Reads (r : Reader α) (text : List Char) (a : α) : Prop :=
  ∀ ⦃blanks rest⦄, (∀ c ∈ blanks, isBlank c) → Closes rest →
    r (blanks ++ text ++ rest) = .ok (a, rest)

/-! ## Steps of a reader -/

theorem bind_eq {f : α → Reader β} {cs cs' : List Char} (h : r cs = .ok (a, cs')) :
    (r >>= f) cs = f a cs' := by
  simp only [bind, StateT.bind, h, Except.bind]

theorem peek_eq {c : Char} (hblanks : ∀ c ∈ blanks, isBlank c) (hc : isBlank c = false) :
    peek (blanks ++ c :: rest) = .ok (some c, c :: rest) := by
  have hrest : (blanks ++ c :: rest).dropWhile isBlank = c :: rest := by
    rw [List.dropWhile_append_of_pos hblanks, List.dropWhile_cons, hc]
    rfl
  rw [peek, hrest]
  rfl

theorem no_blanks : ∀ c ∈ ([] : List Char), isBlank c := nofun

theorem peek_self {c : Char} (hc : isBlank c = false) :
    peek (c :: rest) = .ok (some c, c :: rest) := peek_eq no_blanks hc

theorem Closes.endsNumber (h : Closes rest) : EndsNumber rest where
  no_digit c hc := by
    rcases h c hc with rfl | rfl <;> rfl
  no_point hc := by
    rcases h _ hc with hc | hc <;> exact absurd hc (by decide)
  no_letter c hc := by
    rcases h c hc with rfl | rfl <;> decide

theorem Reads.bind {f : α → Reader β} (h : Reads r text a) (hf : ∀ cs, f a cs = .ok (b, cs)) :
    Reads (r >>= f) text b := by
  intro blanks rest hblanks hrest
  rw [bind_eq (h hblanks hrest), hf]

theorem Reads.map (f : α → β) (h : Reads r text a) : Reads (f <$> r) text (f a) := by
  rw [map_eq_pure_bind]
  exact h.bind fun _ => rfl

/-- A whole text that holds a value and nothing else. -/
theorem Reads.run_eq (h : Reads r text a) : run r (String.ofList text) = .ok a := by
  have hr : r (text ++ []) = .ok (a, []) := h no_blanks nofun
  rw [run, String.toList_ofList, ← List.append_nil text, hr]
  rfl

/-! ## Scalars -/

/-- What is read first of a value decides how it is read. -/
theorem scalarOnly_eq {c : Char} (hblanks : ∀ c ∈ blanks, isBlank c) (hc : isBlank c = false)
    (hsquare : c ≠ '[') (hcurly : c ≠ '\x7b') :
    scalarOnly (blanks ++ c :: rest) = scalar (c :: rest) := by
  rw [scalarOnly, bind_eq (peek_eq hblanks hc)]
  refine congrFun (?_ : _ = scalar) _
  split
  · rename_i h
    exact absurd (Option.some.inj h) hsquare
  · rename_i h
    exact absurd (Option.some.inj h) hcurly
  · rfl

theorem quoted_quote (s : String) : quoted (quote s ++ rest) = .ok (s, rest) := unquote_quote s rest

theorem peek_quote (s : String) (hblanks : ∀ c ∈ blanks, isBlank c) :
    peek (blanks ++ (quote s ++ rest)) = .ok (some '"', quote s ++ rest) :=
  peek_eq hblanks (by decide)

theorem peek_quote_self (s : String) :
    peek (quote s ++ rest) = .ok (some '"', quote s ++ rest) := peek_quote s no_blanks

theorem scalarOnly_quote (s : String) (hblanks : ∀ c ∈ blanks, isBlank c) :
    scalarOnly (blanks ++ (quote s ++ rest)) = .ok (.string s, rest) := by
  have hscalar : scalar (quote s ++ rest) = .ok (.string s, rest) := by
    rw [scalar, bind_eq (peek_quote_self s)]
    exact bind_eq (quoted_quote s)
  exact (scalarOnly_eq hblanks (by decide) (by decide) (by decide)).trans hscalar

theorem scalarOnly_toDigits {n : Nat} (hfits : n < wordLimit) (hblanks : ∀ c ∈ blanks, isBlank c)
    (hrest : Closes rest) :
    scalarOnly (blanks ++ Nat.toDigits 10 n ++ rest) = .ok (.natural n, rest) := by
  obtain ⟨ds, hds⟩ := exists_digitsOf n
  obtain ⟨d, tail, rfl, -⟩ := hds.leading
  have hd : d < 10 := hds.small d List.mem_cons_self
  have hnumber := readNumber_toDigits hfits hrest.endsNumber
  rw [List.append_assoc]
  rw [hds.text, List.map_cons, List.cons_append] at hnumber ⊢
  have hplain : isBlank (Nat.digitChar d) = false ∧ Nat.digitChar d ≠ '[' ∧
      Nat.digitChar d ≠ '\x7b' ∧ Nat.digitChar d ≠ '"' := by
    interval_cases d <;> decide
  have hbegins : beginsNumber (Nat.digitChar d) = true := by
    rw [beginsNumber, digit?_digitChar hd]
    simp
  obtain ⟨hblank, hsquare, hcurly, hquote⟩ := hplain
  rw [scalarOnly_eq hblanks hblank hsquare hcurly, scalar, bind_eq (peek_self hblank)]
  simp only [if_neg hquote, hbegins, if_true]
  rw [bind_eq hnumber]
  rfl

theorem reads_text (s : String) : Reads Reader.text (quote s) s := by
  intro blanks rest hblanks _
  rw [List.append_assoc, Reader.text, bind_eq (scalarOnly_quote s hblanks)]
  rfl

theorem reads_natural {n : Nat} (hfits : n < wordLimit) :
    Reads natural (Number.natural n).text n := by
  intro blanks rest hblanks hrest
  rw [natural, Number.text, bind_eq (scalarOnly_toDigits hfits hblanks hrest)]
  rfl

theorem reads_choice {ofName? : String → Option α} {name : String} (h : ofName? name = some a) :
    Reads (choice ofName?) (quote name) a := by
  intro blanks rest hblanks hrest
  have htext : Reader.text (quote name ++ rest) = .ok (name, rest) :=
    reads_text name no_blanks hrest
  have hkey : key ofName? (quote name ++ rest) = .ok (a, rest) := by
    rw [key, bind_eq (peek_quote_self name)]
    simp only [Reader.name]
    rw [bind_eq htext, h]
    rfl
  rw [List.append_assoc, choice, bind_eq (peek_quote name hblanks)]
  exact hkey

/-! ## Members -/

/-- The characters of a member on its own line. -/
def memberChars (level : Nat) (m : String × Value) : List Char :=
  Value.lineBreak level ++ quote m.1 ++ ':' :: ' ' :: m.2.prettyChars level

/-- The characters behind a member: the members that are left, and the end of the object. -/
def charsBehind (level outer : Nat) (rest : List Char) : List (String × Value) → List Char
  | [] => Value.lineBreak outer ++ '\x7d' :: rest
  | m :: ms => ',' :: (memberChars level m ++ charsBehind level outer rest ms)

theorem prettyMembers_append (level outer : Nat) (m : String × Value)
    (ms : List (String × Value)) :
    Value.prettyMembers level (m :: ms) ++ (Value.lineBreak outer ++ '\x7d' :: rest)
      = memberChars level m ++ charsBehind level outer rest ms := by
  induction ms generalizing m with
  | nil => rfl
  | cons next ms ih =>
    rw [Value.prettyMembers, charsBehind, ← ih next]
    · simp [memberChars]
    · simp

theorem length_lt_charsBehind (level outer : Nat) (ms : List (String × Value)) :
    ms.length < (charsBehind level outer rest ms).length := by
  induction ms with
  | nil => simp [charsBehind]
  | cons m ms ih =>
    simp only [charsBehind, List.length_cons, List.length_append]
    omega

theorem isBlank_of_mem_lineBreak {level : Nat} {c : Char} (h : c ∈ Value.lineBreak level) :
    isBlank c = true := by
  rcases List.mem_cons.1 h with rfl | h
  · rfl
  · rw [List.eq_of_mem_replicate h]
    rfl

/-- Whether the members of an object, printed on a level, take a draft of a record to
another. -/
inductive ReadsMembers (level : Nat) (fields : List (Field σ)) :
    σ → List (String × Value) → σ → Prop
  | nil {s : σ} : ReadsMembers level fields s [] s
  | cons {s s' s'' : σ} {key : String} {v : Value} {ms : List (String × Value)}
      (h : ∀ ⦃rest⦄, Closes rest →
        recordMember fields s key (':' :: ' ' :: v.prettyChars level ++ rest) = .ok (s', rest))
      (hrest : ReadsMembers level fields s' ms s'') :
      ReadsMembers level fields s ((key, v) :: ms) s''

/-- A member is read if its field is there, still empty, and reads its value. -/
theorem recordMember_make {fields : List (Field σ)} {level : Nat} {name : String} {v : Value}
    {find? : σ → Option α} {put : α → σ → σ}
    (hfield : fields.find? (·.name == name) = some (.make name r find? put))
    (hempty : find? s = none) (hr : Reads r (v.prettyChars level) a) (hrest : Closes rest) :
    recordMember fields s name (':' :: ' ' :: v.prettyChars level ++ rest)
      = .ok (put a s, rest) := by
  have hfilled : (Field.make name r find? put).isFilled s = false := by
    simp [Field.make, hempty]
  have hblank : ∀ c ∈ [' '], isBlank c := by
    intro c hc
    obtain rfl := List.mem_singleton.1 hc
    rfl
  have hvalue : r ([' '] ++ v.prettyChars level ++ rest) = .ok (a, rest) := hr hblank hrest
  have hcolon : punctuation ':' (':' :: ' ' :: v.prettyChars level ++ rest)
      = .ok ((), ' ' :: v.prettyChars level ++ rest) := bind_eq (peek_self (by decide))
  rw [recordMember, hfield]
  simp only [hfilled, Bool.false_eq_true, if_false, afterColon]
  rw [bind_eq hcolon]
  exact bind_eq hvalue

theorem closes_charsBehind {level outer : Nat} (ms : List (String × Value)) :
    Closes (charsBehind level outer rest ms) := by
  intro c hc
  cases ms with
  | nil => exact .inr (Option.some.inj hc).symm
  | cons m ms => exact .inl (Option.some.inj hc).symm

/-- A member that comes next is read from its key on. -/
theorem members_next {member : σ → String → Reader σ} {fuel : List Char} {first : Bool}
    {f : Char} {cs : List Char} {key : String}
    (hnext : nextMember first cs = .ok (true, quote key ++ rest)) :
    members member (f :: fuel) first s cs
      = (member s key >>= members member fuel false) rest := by
  rw [members, bind_eq hnext]
  exact bind_eq (quoted_quote key)

/-- The loop over members ends at the closing bracket. -/
theorem members_close {member : σ → String → Reader σ} {fuel : List Char} {first : Bool}
    {f : Char} (hblanks : ∀ c ∈ blanks, isBlank c) :
    members member (f :: fuel) first s (blanks ++ '\x7d' :: rest) = .ok (s, rest) := by
  have hnext : nextMember first (blanks ++ '\x7d' :: rest) = .ok (false, '\x7d' :: rest) := by
    rw [nextMember, bind_eq (peek_eq hblanks (by decide))]
    rfl
  rw [members, bind_eq hnext]
  rfl

theorem nextMember_first {key : String} (hblanks : ∀ c ∈ blanks, isBlank c) :
    nextMember true (blanks ++ (quote key ++ rest)) = .ok (true, quote key ++ rest) := by
  rw [nextMember, bind_eq (peek_quote key hblanks)]
  rfl

theorem nextMember_comma {key : String} (hblanks : ∀ c ∈ blanks, isBlank c) :
    nextMember false (',' :: (blanks ++ (quote key ++ rest))) = .ok (true, quote key ++ rest) := by
  have hadvance : advance (',' :: (blanks ++ (quote key ++ rest)))
      = .ok ((), blanks ++ (quote key ++ rest)) := rfl
  rw [nextMember, bind_eq (peek_self (by decide))]
  simp only [Char.reduceEq, if_false, Bool.false_eq_true, if_true]
  rw [bind_eq hadvance, bind_eq (peek_quote key hblanks)]
  rfl

/-- A member and what follows it, from its line break on. -/
theorem memberChars_append (level : Nat) (key : String) (v : Value) (more : List Char) :
    memberChars level (key, v) ++ more
      = Value.lineBreak level ++ (quote key ++ (':' :: ' ' :: v.prettyChars level ++ more)) := by
  simp [memberChars]

/-- Each round takes one member, so any fuel that is longer than their number will do. -/
theorem members_eq {fields : List (Field σ)} {level : Nat} {ms : List (String × Value)}
    {fuel : List Char} (h : ReadsMembers level fields s ms s') (hfuel : ms.length < fuel.length)
    (outer : Nat) (rest : List Char) :
    members (recordMember fields) fuel false s (charsBehind level outer rest ms)
      = .ok (s', rest) := by
  induction h generalizing fuel with
  | nil =>
    cases fuel with
    | nil => exact absurd hfuel (Nat.lt_irrefl _)
    | cons f fuel => exact members_close fun c hc => isBlank_of_mem_lineBreak hc
  | cons h _ ih =>
    cases fuel with
    | nil => exact absurd hfuel (Nat.not_lt_zero _)
    | cons f fuel =>
      rw [charsBehind, memberChars_append,
        members_next (nextMember_comma fun c hc => isBlank_of_mem_lineBreak hc),
        bind_eq (h (closes_charsBehind _))]
      exact ih (Nat.lt_of_succ_lt_succ hfuel)

/-- **A record is read from its object** if each member is read where it stands. -/
theorem reads_record {fields : List (Field σ)} {level : Nat} {m : String × Value}
    {ms : List (String × Value)} (h : ReadsMembers (level + 1) fields s (m :: ms) s') :
    Reads (record fields s) (Value.prettyChars level (.object (m :: ms))) s' := by
  intro blanks rest hblanks _
  obtain ⟨key, v⟩ := m
  have htext : Value.prettyChars level (.object ((key, v) :: ms)) ++ rest
      = '\x7b' :: (memberChars (level + 1) (key, v) ++ charsBehind (level + 1) level rest ms) := by
    rw [← prettyMembers_append]
    simp [Value.prettyChars]
  have hfuel : ms.length < (charsBehind (level + 1) level rest ms).length :=
    length_lt_charsBehind (level + 1) level ms
  rw [List.append_assoc, htext, record, bind_eq (peek_eq hblanks (by decide))]
  cases h with
  | cons h hms =>
    -- the fuel is the object's own text, and its bracket pays for the first round
    show members (recordMember fields) ('\x7b' :: (memberChars (level + 1) (key, v) ++ _)) true s
      (memberChars (level + 1) (key, v) ++ _) = _
    rw [memberChars_append,
      members_next (nextMember_first fun c hc => isBlank_of_mem_lineBreak hc),
      bind_eq (h (closes_charsBehind _))]
    refine members_eq hms ?_ level rest
    simp only [List.length_append, List.length_cons]
    omega

end Reader

end UpdateVault.Json
