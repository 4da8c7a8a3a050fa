import Mathlib.Tactic.IntervalCases
import UpdateVault.Json.Number

/-!
# Whole numbers

`readNumber_toDigits`: a whole number that fits 64 bits is read back from its decimal digits, if
what follows them does not continue a number.
-/

namespace UpdateVault.Json

variable {n : Nat} {ds : List Nat} {rest : List Char}

/-- Whether the number before a text ends there. -/
structure EndsNumber (rest : List Char) : Prop where
  no_digit : ∀ c ∈ rest.head?, digit? c = none
  no_point : rest.head? ≠ some '.'
  no_letter : ∀ c ∈ rest.head?, ¬(c = 'e' ∨ c = 'E')

/-! ## The digits of a number -/

theorem digit?_digitChar {d : Nat} (h : d < 10) : digit? (Nat.digitChar d) = some d := by
  interval_cases d <;> rfl

theorem appendDigits_concat {s d : Nat} (h : appendDigits s ds = (n, []))
    (hfits : n * 10 + d < wordLimit) : appendDigits s (ds ++ [d]) = (n * 10 + d, []) := by
  induction ds generalizing s with
  | nil =>
    obtain rfl : s = n := congrArg Prod.fst h
    rw [List.nil_append, appendDigits, if_pos hfits, appendDigits]
  | cons e ds ih =>
    rw [appendDigits] at h
    split at h
    · rename_i hlow
      rw [List.cons_append, appendDigits, if_pos hlow, ih h]
    · cases h

/-- The digits of a whole number as they are written. -/
structure DigitsOf (n : Nat) (ds : List Nat) : Prop where
  text : Nat.toDigits 10 n = ds.map Nat.digitChar
  small : ∀ d ∈ ds, d < 10
  value : n < wordLimit → appendDigits 0 ds = (n, [])
  /-- Only the number zero begins with a zero, which stands alone. -/
  leading : ∃ d tail, ds = d :: tail ∧ (d = 0 → n = 0 ∧ tail = [])

theorem digitsOf_of_lt (h : n < 10) : DigitsOf n [n] where
  text := Nat.toDigits_of_lt_base h
  small := by simpa using h
  value hfits := by simp [appendDigits, hfits]
  leading := ⟨n, [], rfl, fun hzero => ⟨hzero, rfl⟩⟩

theorem DigitsOf.concat (h : DigitsOf (n / 10) ds) (hn : 10 ≤ n) :
    DigitsOf n (ds ++ [n % 10]) where
  text := by
    rw [Nat.toDigits_of_base_le (by decide) hn, h.text, List.map_append, List.map_singleton]
  small := by
    refine List.forall_mem_append.2 ⟨h.small, fun d hd => ?_⟩
    rw [List.mem_singleton.1 hd]
    exact Nat.mod_lt n (by decide)
  value hfits := by
    have hdiv : n / 10 * 10 + n % 10 = n := by omega
    rw [appendDigits_concat (h.value (by omega)) (by omega), hdiv]
  leading := by
    obtain ⟨d, tail, rfl, hzero⟩ := h.leading
    refine ⟨d, tail ++ [n % 10], rfl, fun hd => ?_⟩
    have := (hzero hd).1
    omega

theorem exists_digitsOf (n : Nat) : ∃ ds, DigitsOf n ds := by
  induction n using Nat.strongRecOn with
  | _ n ih =>
    by_cases hn : n < 10
    · exact ⟨[n], digitsOf_of_lt hn⟩
    · obtain ⟨ds, hds⟩ := ih (n / 10) (by omega)
      exact ⟨_, hds.concat (by omega)⟩

/-! ## Reading -/

theorem spanDigits_append (hsmall : ∀ d ∈ ds, d < 10) (hrest : EndsNumber rest) :
    spanDigits (ds.map Nat.digitChar ++ rest) = (ds, rest) := by
  induction ds with
  | nil =>
    cases rest with
    | nil => rfl
    | cons c tail =>
      have hc : digit? c = none := hrest.no_digit c rfl
      simp [spanDigits, hc]
  | cons d ds ih =>
    obtain ⟨hd, hds⟩ := List.forall_mem_cons.1 hsmall
    simp only [List.map_cons, List.cons_append, spanDigits, digit?_digitChar hd, ih hds]

theorem DigitsOf.wholeDigits_eq (h : DigitsOf n ds) (hrest : EndsNumber rest) :
    wholeDigits (Nat.toDigits 10 n ++ rest) = .ok (ds, rest) := by
  have hspan : spanDigits (Nat.toDigits 10 n ++ rest) = (ds, rest) := by
    rw [h.text]
    exact spanDigits_append h.small hrest
  obtain ⟨d, tail, rfl, hzero⟩ := h.leading
  have hsome : someDigits (Nat.toDigits 10 n ++ rest) = .ok (d :: tail, rest) := by
    rw [someDigits, hspan]
  rw [wholeDigits, hsome]
  cases tail with
  | nil => simp [bind, Except.bind, pure, Except.pure]
  | cons e tail =>
    cases d with
    | zero => exact absurd (hzero rfl).2 (List.cons_ne_nil _ _)
    | succ d => rfl

theorem fractionPart_eq (h : EndsNumber rest) : fractionPart rest = .ok (none, rest) := by
  unfold fractionPart
  split
  · exact absurd rfl h.no_point
  · rfl

theorem exponentPart_eq (h : EndsNumber rest) : exponentPart rest = .ok (none, rest) := by
  cases rest with
  | nil => rfl
  | cons c tail => exact if_neg (h.no_letter c rfl)

theorem Numeral.read_toDigits (h : DigitsOf n ds) (hrest : EndsNumber rest) :
    Numeral.read (Nat.toDigits 10 n ++ rest)
      = .ok ({ negative := false, whole := ds, fraction := none, exponent := none }, rest) := by
  have hwhole := h.wholeDigits_eq hrest
  obtain ⟨d, tail, rfl, -⟩ := h.leading
  have hd : d < 10 := h.small d List.mem_cons_self
  have hfirst : Nat.digitChar d ≠ '-' := by
    interval_cases d <;> decide
  rw [h.text, List.map_cons, List.cons_append] at hwhole ⊢
  rw [Numeral.read]
  · simp only [bind, Except.bind, hwhole, fractionPart_eq hrest, exponentPart_eq hrest]
    rfl
  · intro tail hminus
    exact hfirst (List.cons.inj hminus).1

/-- **A whole number is read back from its digits.** -/
theorem readNumber_toDigits (hfits : n < wordLimit) (hrest : EndsNumber rest) :
    readNumber (Nat.toDigits 10 n ++ rest) = .ok (.natural n, rest) := by
  obtain ⟨ds, hds⟩ := exists_digitsOf n
  rw [readNumber, Numeral.read_toDigits hds hrest]
  simp only [bind, Except.bind, Numeral.number?, Numeral.integer?, hds.value hfits]
  rfl

end UpdateVault.Json
