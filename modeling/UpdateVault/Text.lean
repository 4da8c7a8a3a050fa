/-!
Cutting text: pieces between separators, trimmed ends, the first `=` of a pair.

`joinPieces_pieces` says that no character is lost by cutting and `mem_pieces_free`
that a piece never holds the separator.
-/

namespace UpdateVault.Text

/-- The pieces of a text between the occurrences of a separator; there is always at
least one. -/
def pieces (sep : Char) : List Char → List (List Char)
  | [] => [[]]
  | c :: rest =>
    if c = sep then [] :: pieces sep rest
    else match pieces sep rest with
      | [] => [[c]]
      | piece :: more => (c :: piece) :: more

def joinPieces (sep : Char) : List (List Char) → List Char
  | [] => []
  | [piece] => piece
  | piece :: more => piece ++ sep :: joinPieces sep more

theorem pieces_ne_nil (sep : Char) (text : List Char) : pieces sep text ≠ [] := by
  cases text with
  | nil => simp [pieces]
  | cons c rest =>
    rw [pieces]
    split
    · simp
    · split <;> simp

theorem joinPieces_pieces (sep : Char) (text : List Char) :
    joinPieces sep (pieces sep text) = text := by
  induction text with
  | nil => rfl
  | cons c rest ih =>
    rw [pieces]
    split
    · rename_i h
      cases hp : pieces sep rest with
      | nil => exact absurd hp (pieces_ne_nil sep rest)
      | cons piece more =>
        rw [hp] at ih
        change [] ++ sep :: joinPieces sep (piece :: more) = c :: rest
        rw [ih, h, List.nil_append]
    · split
      · rename_i hp
        exact absurd hp (pieces_ne_nil sep rest)
      · rename_i piece more hp
        rw [hp] at ih
        cases more with
        | nil => simp only [joinPieces] at ih ⊢; rw [ih]
        | cons p ps => simp only [joinPieces, List.cons_append] at ih ⊢; rw [ih]

theorem mem_pieces_free {sep : Char} {text piece : List Char}
    (h : piece ∈ pieces sep text) : sep ∉ piece := by
  induction text generalizing piece with
  | nil => simp_all [pieces]
  | cons c rest ih =>
    rw [pieces] at h
    split at h
    · rcases List.mem_cons.1 h with rfl | h
      · simp
      · exact ih h
    · rename_i hc
      split at h
      · rename_i hp
        exact absurd hp (pieces_ne_nil sep rest)
      · rename_i p ps hp
        rcases List.mem_cons.1 h with rfl | h
        · have := @ih p (by simp [hp])
          simp only [List.mem_cons, not_or]
          exact ⟨fun e => hc e.symm, this⟩
        · exact ih (by simp [hp, h])

/-- The text without the characters of a kind at its end. -/
def trimEnd (p : Char → Bool) (text : List Char) : List Char :=
  (text.reverse.dropWhile p).reverse

/-- The text without the characters of a kind at both ends. -/
def trim (p : Char → Bool) (text : List Char) : List Char :=
  trimEnd p (text.dropWhile p)

/-- The text without the NUL characters at its end. -/
def withoutTerminator (s : String) : String :=
  String.ofList (trimEnd (· == '\x00') s.toList)

/-- The characters with the Unicode property `White_Space`. -/
def isBlank (c : Char) : Bool :=
  let n := c.toNat
  (9 ≤ n && n ≤ 13) || n = 0x20 || n = 0x85 || n = 0xA0 || n = 0x1680
    || (0x2000 ≤ n && n ≤ 0x200A) || n = 0x2028 || n = 0x2029 || n = 0x202F
    || n = 0x205F || n = 0x3000

/-- Key and value of a pair: what stands before the first `=`, which must not be
empty, and all that follows it. -/
def splitPair (text : List Char) : Option (String × String) :=
  match text.span (· != '=') with
  | (_, []) => none
  | ([], _) => none
  | (key, _ :: value) => some (String.ofList key, String.ofList value)

def endsWith (tail : List Char) (text : List Char) : Bool := tail.isSuffixOf text

end UpdateVault.Text
