import Mathlib.Data.List.Induction
import UpdateVault.Proofs.Provides.Text

/-!
# What a text of capabilities means

The lines of a text tell its meaning: which of them have a pair (`PairLine`), which is the last
with a key (`LastValue`), and which is the first to repeat a key (`FirstRepeat`). Reading a text
gives this meaning under either policy for repeated keys (`read_by_lines`).
-/

namespace UpdateVault.Provides

variable {policy : RepeatPolicy} {m : Provides} {n : Nat} {text key value : String}
  {line : List Char} {ls : List (List Char)}

/-! ## Lines -/

/-- A line without one carriage return at its end. -/
def withoutReturn (raw : List Char) : List Char :=
  if raw.getLast? = some '\r' then raw.dropLast else raw

/-- The lines of a text: what is between its line feeds, without a carriage return at the end. -/
def textLines (text : String) : List (List Char) :=
  (text.toList.splitOn '\n').map withoutReturn

/-- The line of a pair: its first `=` stands behind the key, which is not empty. -/
def PairLine (line : List Char) (key value : String) : Prop :=
  line = key.toList ++ '=' :: value.toList ∧ key ≠ "" ∧ '=' ∉ key.toList

/-- The line of a pair with the key. -/
def KeyLine (line : List Char) (key : String) : Prop := ∃ value, PairLine line key value

/-- Something is on the lines, but no pair. -/
def Senseless (ls : List (List Char)) : Prop :=
  (∃ line ∈ ls, line ≠ []) ∧ ∀ line ∈ ls, ∀ key, ¬ KeyLine line key

/-- The last of the lines with the key has the value. -/
def LastValue (ls : List (List Char)) (key value : String) : Prop :=
  ∃ before line after, ls = before ++ line :: after ∧ PairLine line key value ∧
    ∀ later ∈ after, ¬ KeyLine later key

/-- No two of the lines have one key. -/
def Distinct (ls : List (List Char)) : Prop :=
  ls.Pairwise fun line later => ∀ key, KeyLine line key → ¬ KeyLine later key

/-- Line `n`, counted from 1, is the first whose key is on a line before it. -/
def FirstRepeat (ls : List (List Char)) (key : String) (n : Nat) : Prop :=
  ∃ before line after, ls = before ++ line :: after ∧ n = before.length + 1 ∧
    KeyLine line key ∧ (∃ earlier ∈ before, KeyLine earlier key) ∧ Distinct before

/-! ## What a line says -/

/-- What a line without its end says. -/
def Line.of (line : List Char) : Line :=
  if line.isEmpty then .blank
  else match Text.splitPair line with
    | none => .malformed
    | some (key, value) => .entry key value

theorem lines_eq (text : String) : lines text = (textLines text).map Line.of := by
  rw [lines, textLines, Text.pieces_eq_splitOn, List.map_map]
  rfl

theorem of_eq_entry_iff : Line.of line = .entry key value ↔ PairLine line key value := by
  rw [PairLine, ← Text.splitPair_eq_some_iff, Line.of]
  cases line with
  | nil => exact iff_of_false nofun nofun
  | cons c rest =>
    rw [if_neg (by simp)]
    cases hsplit : Text.splitPair (c :: rest) with
    | none => exact iff_of_false nofun nofun
    | some e => simp [Prod.ext_iff]

theorem of_eq_blank_iff : Line.of line = .blank ↔ line = [] := by
  rw [Line.of]
  cases line with
  | nil => simp
  | cons c rest =>
    rw [if_neg (by simp)]
    split <;> simp

theorem PairLine.unique {key' value' : String} (h : PairLine line key value)
    (h' : PairLine line key' value') : key = key' ∧ value = value' :=
  Line.entry.inj ((of_eq_entry_iff.2 h).symm.trans (of_eq_entry_iff.2 h'))

theorem PairLine.keyLine_iff (h : PairLine line key value) {key' : String} :
    KeyLine line key' ↔ key' = key := by
  constructor
  · rintro ⟨value', h'⟩
    exact (h'.unique h).1
  · rintro rfl
    exact ⟨value, h⟩

/-- Garbage is what has something on its lines, but no pair. -/
theorem isGarbage_iff : isGarbage (ls.map Line.of) = true ↔ Senseless ls := by
  have hno : ∀ line, (Line.of line = .blank ∨ Line.of line = .malformed) ↔
      ∀ key, ¬ KeyLine line key := by
    intro line
    simp only [KeyLine, not_exists, ← of_eq_entry_iff]
    cases Line.of line <;> simp
  have hany : (ls.map Line.of).any (· ≠ .blank) = true ↔ ∃ line ∈ ls, line ≠ [] := by
    simp [of_eq_blank_iff]
  have hall : ((ls.map Line.of).all fun l => l = .blank || l = .malformed) = true ↔
      ∀ line ∈ ls, ∀ key, ¬ KeyLine line key := by
    simp [hno]
  rw [isGarbage, Bool.and_eq_true, hany, hall, Senseless]

/-! ## Collecting -/

theorem collect_pairLine (h : PairLine line key value) (rest : List Line) :
    collect policy n m (Line.of line :: rest)
      = if policy = .reject ∧ m.contains key then .error (.duplicateKey key n)
        else collect policy (n + 1) (m.insert key value) rest := by
  rw [of_eq_entry_iff.2 h, collect]

theorem collect_other (h : ∀ key, ¬ KeyLine line key) (rest : List Line) :
    collect policy n m (Line.of line :: rest) = collect policy (n + 1) m rest := by
  cases hline : Line.of line with
  | blank => rw [collect]; simp
  | malformed => rw [collect]; simp
  | entry key value => exact absurd ⟨value, of_eq_entry_iff.1 hline⟩ (h key)

theorem collect_append (xs ys : List Line) :
    collect policy n m (xs ++ ys)
      = (collect policy n m xs).bind fun m' => collect policy (n + xs.length) m' ys := by
  induction xs generalizing n m with
  | nil => rfl
  | cons x rest ih =>
    have hnumber : n + (x :: rest).length = n + 1 + rest.length := by
      rw [List.length_cons]
      omega
    cases x with
    | blank => rw [List.cons_append, collect, collect, ih, hnumber] <;> simp
    | malformed => rw [List.cons_append, collect, collect, ih, hnumber] <;> simp
    | entry key value =>
      rw [List.cons_append, collect, collect, ih, hnumber]
      split <;> rfl

/-! ## The last value of a key -/

theorem lastValue_cons : LastValue (line :: ls) key value ↔
    LastValue ls key value ∨ PairLine line key value ∧ ∀ later ∈ ls, ¬ KeyLine later key := by
  constructor
  · rintro ⟨before, found, after, hls, hpair, hlast⟩
    cases before with
    | nil =>
      obtain ⟨rfl, rfl⟩ := List.cons.inj hls
      exact .inr ⟨hpair, hlast⟩
    | cons first before =>
      obtain ⟨rfl, hrest⟩ := List.cons.inj hls
      exact .inl ⟨before, found, after, hrest, hpair, hlast⟩
  · rintro (⟨before, found, after, rfl, hpair, hlast⟩ | ⟨hpair, hlast⟩)
    · exact ⟨line :: before, found, after, rfl, hpair, hlast⟩
    · exact ⟨[], line, ls, rfl, hpair, hlast⟩

/-- A key that is on the lines has a last value. -/
theorem exists_lastValue (h : ∃ line ∈ ls, KeyLine line key) : ∃ value, LastValue ls key value := by
  induction ls with
  | nil => simp at h
  | cons first rest ih =>
    by_cases hrest : ∃ line ∈ rest, KeyLine line key
    · obtain ⟨value, hlast⟩ := ih hrest
      exact ⟨value, lastValue_cons.2 (.inl hlast)⟩
    · obtain ⟨value, hpair⟩ : KeyLine first key := by simpa [hrest] using h
      exact ⟨value, lastValue_cons.2 (.inr ⟨hpair, by simpa using hrest⟩)⟩

/-- Where the last value counts, a map gets the last value of each key that is on the lines, and
keeps those of the other keys. -/
theorem collect_lastWins (ls : List (List Char)) (n : Nat) (m : Provides) :
    ∃ m', collect .lastWins n m (ls.map Line.of) = .ok m' ∧ ∀ key value,
      m'.get? key = some value ↔ LastValue ls key value ∨
        (∀ line ∈ ls, ¬ KeyLine line key) ∧ m.get? key = some value := by
  induction ls generalizing n m with
  | nil =>
    refine ⟨m, rfl, fun key value => ?_⟩
    have hnone : ¬ LastValue [] key value := by
      rintro ⟨before, line, after, hls, -⟩
      simp at hls
    simp [hnone]
  | cons line rest ih =>
    by_cases hline : ∃ key, KeyLine line key
    · obtain ⟨key, value, hpair⟩ := hline
      obtain ⟨m', hm', hget⟩ := ih (n + 1) (m.insert key value)
      refine ⟨m', ?_, fun key' value' => ?_⟩
      · rw [List.map_cons, collect_pairLine hpair, if_neg (by simp), hm']
      · rw [hget, lastValue_cons, List.forall_mem_cons, hpair.keyLine_iff]
        -- for the key of the line its value is the last, unless a later line has the key too
        by_cases hsame : key' = key
        · subst hsame
          have hvalue : PairLine line key' value' ↔ value = value' :=
            ⟨fun h => (hpair.unique h).2, fun h => h ▸ hpair⟩
          simp [hvalue, and_comm]
        · have hnot : ¬ PairLine line key' value' := fun h => hsame (h.unique hpair).1
          simp [SortedMap.get?_insert_ne m value hsame, hsame, hnot]
    · have hother : ∀ key, ¬ KeyLine line key := not_exists.1 hline
      obtain ⟨m', hm', hget⟩ := ih (n + 1) m
      refine ⟨m', ?_, fun key value => ?_⟩
      · rw [List.map_cons, collect_other hother, hm']
      · have hpair : ¬ PairLine line key value := fun hpair => hother key ⟨value, hpair⟩
        simp [hget, lastValue_cons, hpair, hother]

/-! ## Repeated keys -/

/-- Where no key is repeated, the policy for repeated keys does not matter. -/
theorem collect_reject (hdistinct : Distinct ls)
    (hfresh : ∀ line ∈ ls, ∀ key, KeyLine line key → m.contains key = false) :
    collect .reject n m (ls.map Line.of) = collect .lastWins n m (ls.map Line.of) := by
  induction ls generalizing n m with
  | nil => rfl
  | cons line rest ih =>
    obtain ⟨hhead, htail⟩ := List.pairwise_cons.1 hdistinct
    obtain ⟨hline, hrest⟩ := List.forall_mem_cons.1 hfresh
    rw [List.map_cons]
    by_cases hkey : ∃ key, KeyLine line key
    · obtain ⟨key, value, hpair⟩ := hkey
      have hkept : ∀ later ∈ rest, ∀ other, KeyLine later other →
          (m.insert key value).contains other = false := by
        intro later hlater other hother
        have hne : other ≠ key := fun he => hhead later hlater key ⟨value, hpair⟩ (he ▸ hother)
        rw [SortedMap.contains, SortedMap.get?_insert_ne m value hne]
        exact hrest later hlater other hother
      rw [collect_pairLine hpair, collect_pairLine hpair, hline key ⟨value, hpair⟩,
        if_neg (by simp), if_neg (by simp), ih htail hkept]
    · have hother : ∀ key, ¬ KeyLine line key := not_exists.1 hkey
      rw [collect_other hother, collect_other hother, ih htail hrest]

/-- If a key is repeated, some line is the first to repeat one. -/
theorem exists_firstRepeat (h : ¬ Distinct ls) : ∃ key n, FirstRepeat ls key n := by
  -- from the end, as the first repeat is the last line or stays what it was without that line
  induction ls using List.reverseRecOn with
  | nil => exact absurd .nil h
  | append_singleton init line ih =>
    by_cases hinit : Distinct init
    · have hrepeat : ∃ earlier ∈ init, ∃ key, KeyLine earlier key ∧ KeyLine line key := by
        by_contra hnone
        refine h (List.pairwise_append.2 ⟨hinit, List.pairwise_singleton _ _, ?_⟩)
        intro earlier hearlier later hlater key hkey hagain
        rw [List.mem_singleton.1 hlater] at hagain
        exact hnone ⟨earlier, hearlier, key, hkey, hagain⟩
      obtain ⟨earlier, hearlier, key, hkey, hagain⟩ := hrepeat
      exact ⟨key, init.length + 1, init, line, [], rfl, rfl, hagain, ⟨earlier, hearlier, hkey⟩,
        hinit⟩
    · obtain ⟨key, n, before, repeated, after, rfl, hn, hkey, hearlier, hbefore⟩ := ih hinit
      exact ⟨key, n, before, repeated, after ++ [line], by simp, hn, hkey, hearlier, hbefore⟩

/-- The first line to repeat a key is refused, with its key and number. -/
theorem collect_firstRepeat (h : FirstRepeat ls key n) :
    collect .reject 1 .empty (ls.map Line.of) = .error (.duplicateKey key n) := by
  obtain ⟨before, line, after, rfl, rfl, ⟨value, hpair⟩, hearlier, hbefore⟩ := h
  obtain ⟨m, hm, hget⟩ := collect_lastWins before 1 .empty
  have hcontains : m.contains key = true := by
    obtain ⟨first, hfirst⟩ := exists_lastValue hearlier
    rw [SortedMap.contains, (hget key first).2 (.inl hfirst)]
    rfl
  have hread : collect .reject 1 .empty (before.map Line.of) = .ok m := by
    rw [collect_reject hbefore fun _ _ _ _ => rfl, hm]
  rw [List.map_append, List.map_cons, collect_append, hread]
  change collect .reject (1 + (before.map Line.of).length) m (Line.of line :: _) = _
  rw [collect_pairLine hpair, if_pos ⟨rfl, hcontains⟩, List.length_map, Nat.add_comm]

/-! ## The meaning of a text -/

theorem decode_of_senseless (h : Senseless (textLines text)) :
    decode .lastWins text = .error .noValidEntry := by
  obtain ⟨m, hm, -⟩ := collect_lastWins (textLines text) 1 .empty
  rw [decode, lines_eq, isGarbage_iff.2 h, hm]
  rfl

theorem decode_of_sense (h : ¬ Senseless (textLines text)) : ∃ m, decode .lastWins text = .ok m ∧
    ∀ key value, m.get? key = some value ↔ LastValue (textLines text) key value := by
  obtain ⟨m, hm, hget⟩ := collect_lastWins (textLines text) 1 .empty
  have hgarbage : isGarbage ((textLines text).map Line.of) = false := by
    rwa [← isGarbage_iff, Bool.not_eq_true] at h
  refine ⟨m, ?_, fun key value => ?_⟩
  · rw [decode, lines_eq, hgarbage, hm]
    rfl
  · simp [hget]

theorem decode_reject_of_distinct (h : Distinct (textLines text)) :
    decode .reject text = decode .lastWins text := by
  rw [decode, decode, lines_eq, collect_reject h fun _ _ _ _ => rfl]

theorem decode_reject_of_firstRepeat (h : FirstRepeat (textLines text) key n) :
    decode .reject text = .error (.duplicateKey key n) := by
  rw [decode, lines_eq, collect_firstRepeat h]
  rfl

/-- What is read under either policy is the map of the last values. -/
theorem get?_of_decode (h : decode policy text = .ok m) :
    m.get? key = some value ↔ LastValue (textLines text) key value := by
  have hlast : decode .lastWins text = .ok m := by
    cases policy with
    | lastWins => exact h
    | reject =>
      by_cases hdistinct : Distinct (textLines text)
      · rw [← decode_reject_of_distinct hdistinct, h]
      · obtain ⟨key, n, hfirst⟩ := exists_firstRepeat hdistinct
        rw [decode_reject_of_firstRepeat hfirst] at h
        cases h
  by_cases hsense : Senseless (textLines text)
  · rw [decode_of_senseless hsense] at hlast
    cases hlast
  · obtain ⟨m', hm', hget⟩ := decode_of_sense hsense
    cases hlast.symm.trans hm'
    exact hget key value

/-- Reading a text gives what its lines mean. -/
structure ReadByLines (text : String) : Prop where
  /-- If something is on the lines, but no pair, that is the fault. -/
  senseless : Senseless (textLines text) → decode .lastWins text = .error .noValidEntry
  /-- Every other text is read as the map of the last values of its keys. -/
  lastWins : ¬ Senseless (textLines text) → ∃ m, decode .lastWins text = .ok m ∧
    ∀ key value, m.get? key = some value ↔ LastValue (textLines text) key value
  /-- Where repeated keys are refused, the first line that repeats one is the fault. -/
  rejected : ¬ Distinct (textLines text) → ∃ key n, FirstRepeat (textLines text) key n ∧
    decode .reject text = .error (.duplicateKey key n)
  /-- If no key is repeated, the policy for repeated keys does not matter. -/
  distinct : Distinct (textLines text) → decode .reject text = decode .lastWins text

/-- **A text of capabilities is read by the meaning of its lines.** -/
theorem read_by_lines (text : String) : ReadByLines text where
  senseless := decode_of_senseless
  lastWins := decode_of_sense
  rejected h := by
    obtain ⟨key, n, hfirst⟩ := exists_firstRepeat h
    exact ⟨key, n, hfirst, decode_reject_of_firstRepeat hfirst⟩
  distinct := decode_reject_of_distinct

/-- Blank lines and lines without a pair have numbers too. -/
example : decode .reject "a=1\n\nb\r\na=2" = .error (.duplicateKey "a" 4) := by decide

end UpdateVault.Provides
