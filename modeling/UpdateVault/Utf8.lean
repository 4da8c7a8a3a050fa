import UpdateVault.Bytes

/-!
Text and its UTF-8 bytes.

Decoding succeeds exactly on encodings (`decode?_encode`, `eq_encode_of_decode?`). The lenient
reading `decodeLossy` puts one U+FFFD for each maximal piece that is not UTF-8.
-/

namespace UpdateVault.Utf8

/-- The UTF-8 bytes of a text. -/
def encode (s : String) : Bytes := s.toUTF8.data.toList

/-- The text whose UTF-8 bytes are given, if there is one. -/
def decode? (bs : Bytes) : Option String := String.fromUTF8? ⟨bs.toArray⟩

theorem decode?_encode (s : String) : decode? (encode s) = some s := by
  have bytes : (⟨(encode s).toArray⟩ : ByteArray) = s.toByteArray := by
    simp [encode]
  rw [decode?, bytes]
  exact dif_pos s.isValidUTF8

theorem eq_encode_of_decode? {bs : Bytes} {s : String} (h : decode? bs = some s) :
    bs = encode s := by
  simp only [decode?, String.fromUTF8?] at h
  split at h
  · cases h
    rfl
  · cases h

/-! ## Lenient reading -/

/-- What a first byte promises: how many bytes follow it and which range the next one
must lie in. A byte that starts no character promises nothing. -/
def lead? (b : UInt8) : Option (Nat × UInt8 × UInt8) :=
  if b < 0x80 then some (0, 0x80, 0xBF)
  else if 0xC2 ≤ b ∧ b ≤ 0xDF then some (1, 0x80, 0xBF)
  else if b = 0xE0 then some (2, 0xA0, 0xBF)
  else if b = 0xED then some (2, 0x80, 0x9F)
  else if 0xE1 ≤ b ∧ b ≤ 0xEF then some (2, 0x80, 0xBF)
  else if b = 0xF0 then some (3, 0x90, 0xBF)
  else if 0xF1 ≤ b ∧ b ≤ 0xF3 then some (3, 0x80, 0xBF)
  else if b = 0xF4 then some (3, 0x80, 0x8F)
  else none

/-- How many of the promised continuation bytes are present. -/
def continuation : Nat → UInt8 → UInt8 → Bytes → Nat
  | 0, _, _, _ => 0
  | _, _, _, [] => 0
  | n + 1, low, high, b :: rest =>
    if low ≤ b ∧ b ≤ high then continuation n 0x80 0xBF rest + 1 else 0

/-- The scalar value of a first byte with `n` continuation bytes. -/
def scalar (first : UInt8) (tail : Bytes) : Char :=
  let payload : Nat := match tail.length with
    | 0 => first.toNat
    | 1 => first.toNat % 0x20
    | 2 => first.toNat % 0x10
    | _ => first.toNat % 0x08
  Char.ofNat (tail.foldl (fun acc b => acc * 64 + b.toNat % 64) payload)

/-- Lenient reading of at most `fuel` characters. -/
def lossyChars : Nat → Bytes → List Char
  | 0, _ => []
  | _, [] => []
  | fuel + 1, b :: rest =>
    match lead? b with
    | none => '\uFFFD' :: lossyChars fuel rest
    | some (n, low, high) =>
      let present := continuation n low high rest
      let c := if present = n then scalar b (rest.take n) else '\uFFFD'
      c :: lossyChars fuel (rest.drop present)

/-- The text of a byte string, with one U+FFFD for each maximal piece that is the
beginning of no character. -/
def decodeLossy (bs : Bytes) : String :=
  String.ofList (lossyChars bs.length bs)

end UpdateVault.Utf8
