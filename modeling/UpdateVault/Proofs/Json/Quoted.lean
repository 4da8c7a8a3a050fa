import Mathlib.Tactic.IntervalCases
import UpdateVault.Json.Quoted

/-!
# Quoted text

`unquote_quote`: whatever characters a text holds, it is read back from its quoted form, and the
reader stops behind the closing quote.
-/

namespace UpdateVault.Json

variable {c : Char} {cs rest : List Char}

/-! ## Escapes -/

theorem hexValue?_hexDigit {n : Nat} (h : n < 16) : hexValue? (Bytes.hexDigit n) = some n := by
  interval_cases n <;> decide

/-- Four written digits are read as their number. -/
theorem hexUnit_hexDigits {n : Nat} (h : n < 65536) :
    hexUnit (hexDigits n ++ rest) = .ok (n, rest) := by
  have hdigit (k : Nat) : hexValue? (Bytes.hexDigit (k % 16)) = some (k % 16) :=
    hexValue?_hexDigit (Nat.mod_lt _ (by decide))
  have hn : ((n / 4096 % 16 * 16 + n / 256 % 16) * 16 + n / 16 % 16) * 16 + n % 16 = n := by
    omega
  simp only [hexDigits, List.cons_append, List.nil_append, hexUnit, hdigit, hn]

/-- A unit that is no half of a pair is a character by itself. -/
theorem unicodeEscape_hexDigits (h : c.toNat < 0xD800) :
    unicodeEscape (hexDigits c.toNat ++ rest) = .ok (c, rest) := by
  have hleading : isLeading c.toNat = false := by
    simp only [isLeading, Bool.and_eq_false_iff, decide_eq_false_iff_not]
    omega
  have htrailing : isTrailing c.toNat = false := by
    simp only [isTrailing, Bool.and_eq_false_iff, decide_eq_false_iff_not]
    omega
  rw [unicodeEscape, hexUnit_hexDigits (by omega)]
  simp only [bind, Except.bind, htrailing, hleading, Char.ofNat_toNat]
  rfl

/-- How a character stands in quoted text: as itself, or behind a backslash in a form that is
read as the character. -/
inductive Written (c : Char) : List Char → Prop
  | plain (hquote : c ≠ '"') (hbackslash : c ≠ '\\') (hcontrol : ¬c.toNat < 32) : Written c [c]
  | escaped {tail : List Char} (h : ∀ rest, escape (tail ++ rest) = .ok (c, rest)) :
    Written c ('\\' :: tail)

theorem written_escapeChar (c : Char) : Written c (escapeChar c) := by
  rw [escapeChar]
  split_ifs with hquote hbackslash h h h h h hcontrol
  -- the seven characters with a short escape
  iterate 7
    subst c
    exact .escaped fun _ => rfl
  · exact .escaped fun _ => unicodeEscape_hexDigits (by omega)
  · exact .plain hquote hbackslash hcontrol

theorem Written.length_pos {form : List Char} (h : Written c form) : 0 < form.length := by
  cases h <;> exact Nat.succ_pos _

/-! ## Reading -/

/-- One round of the reader takes a written character. -/
theorem quotedChars_written {form : List Char} (h : Written c form) (f : Char)
    (fuel : List Char) :
    quotedChars (f :: fuel) (form ++ rest)
      = (quotedChars fuel rest).map fun r => (c :: r.1, r.2) := by
  cases h with
  | plain hquote hbackslash hcontrol =>
    rw [List.cons_append, quotedChars, if_neg hquote, if_neg hbackslash, if_neg hcontrol]
    rfl
  | escaped h =>
    rw [List.cons_append, quotedChars, if_neg (by decide), if_pos rfl, h]
    rfl

/-- The fuel counts characters that are read, so any text that is longer will do. -/
theorem quotedChars_flatMap {fuel : List Char} (h : cs.length < fuel.length) :
    quotedChars fuel (cs.flatMap escapeChar ++ '"' :: rest) = .ok (cs, rest) := by
  induction cs generalizing fuel with
  | nil =>
    cases fuel with
    | nil => exact absurd h (Nat.lt_irrefl _)
    | cons f fuel => rfl
  | cons c cs ih =>
    cases fuel with
    | nil => exact absurd h (Nat.not_lt_zero _)
    | cons f fuel =>
      rw [List.flatMap_cons, List.append_assoc, quotedChars_written (written_escapeChar c),
        ih (Nat.lt_of_succ_lt_succ h)]
      rfl

theorem length_le_flatMap_escapeChar (cs : List Char) :
    cs.length ≤ (cs.flatMap escapeChar).length := by
  induction cs with
  | nil => exact Nat.le_refl 0
  | cons c cs ih =>
    have := (written_escapeChar c).length_pos
    rw [List.flatMap_cons, List.length_append, List.length_cons]
    omega

/-- **Any text is read back from its quoted form**, from behind the opening quote on. -/
theorem unquote_quote (s : String) (rest : List Char) :
    unquote ((quote s ++ rest).tail) = .ok (s, rest) := by
  have htext : (quote s ++ rest).tail = s.toList.flatMap escapeChar ++ '"' :: rest := by
    simp [quote]
  have hfuel : s.toList.length < (s.toList.flatMap escapeChar ++ '"' :: rest).length := by
    have := length_le_flatMap_escapeChar s.toList
    rw [List.length_append, List.length_cons]
    omega
  rw [htext, unquote, quotedChars_flatMap hfuel]
  exact congrArg (fun t => Except.ok (t, rest)) String.ofList_toList

example : unquote ((quote "\x01\"😀" ++ [',']).tail) = .ok ("\x01\"😀", [',']) := by rfl

end UpdateVault.Json
