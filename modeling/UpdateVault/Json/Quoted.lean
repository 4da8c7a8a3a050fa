import UpdateVault.Bytes
import UpdateVault.Json.Basic

/-!
Quoted text.

Written text escapes quotes, backslashes and the control characters below U+0020, and
nothing else. A reader takes every escape, and pairs the two halves of an escaped character
beyond U+FFFF; where the text is only skipped, a lone half will do.
-/

namespace UpdateVault.Json

/-! ## Writing -/

def hexDigits (n : Nat) : List Char :=
  [Bytes.hexDigit (n / 4096 % 16), Bytes.hexDigit (n / 256 % 16), Bytes.hexDigit (n / 16 % 16),
    Bytes.hexDigit (n % 16)]

/-- A character as it stands in quoted text. -/
def escapeChar (c : Char) : List Char :=
  if c = '"' then ['\\', '"']
  else if c = '\\' then ['\\', '\\']
  else if c = '\x08' then ['\\', 'b']
  else if c = '\t' then ['\\', 't']
  else if c = '\n' then ['\\', 'n']
  else if c = '\x0c' then ['\\', 'f']
  else if c = '\r' then ['\\', 'r']
  else if c.toNat < 32 then '\\' :: 'u' :: hexDigits c.toNat
  else [c]

def quote (s : String) : List Char := '"' :: s.toList.flatMap escapeChar ++ ['"']

/-! ## Escapes -/

/-- The character of a short escape. -/
def shortEscape? (c : Char) : Option Char :=
  if c = '"' then some '"'
  else if c = '\\' then some '\\'
  else if c = '/' then some '/'
  else if c = 'b' then some '\x08'
  else if c = 'f' then some '\x0c'
  else if c = 'n' then some '\n'
  else if c = 'r' then some '\r'
  else if c = 't' then some '\t'
  else none

/-- The value of a hexadecimal digit in either case. -/
def hexValue? (c : Char) : Option Nat :=
  if '0' ≤ c ∧ c ≤ '9' then some (c.toNat - 48)
  else if 'a' ≤ c ∧ c ≤ 'f' then some (c.toNat - 87)
  else if 'A' ≤ c ∧ c ≤ 'F' then some (c.toNat - 55)
  else none

/-- The unit of an escape with four digits, and what follows them. A text with less than four
bytes left ends too early, whatever they are. -/
def hexUnit : List Char → Except Fault (Nat × List Char)
  | a :: b :: c :: d :: rest =>
    match hexValue? a, hexValue? b, hexValue? c, hexValue? d with
    | some a, some b, some c, some d => .ok (((a * 16 + b) * 16 + c) * 16 + d, rest)
    | _, _, _, _ => .error .malformed
  | cs => if (String.ofList cs).utf8ByteSize < 4 then .error .truncated else .error .malformed

/-- Whether a unit is the first half of a pair. -/
def isLeading (unit : Nat) : Bool := 0xD800 ≤ unit && unit ≤ 0xDBFF

/-- Whether a unit is the second half of a pair. -/
def isTrailing (unit : Nat) : Bool := 0xDC00 ≤ unit && unit ≤ 0xDFFF

/-- The character of a pair. -/
def pairChar (leading trailing : Nat) : Char :=
  Char.ofNat (0x10000 + (leading - 0xD800) * 0x400 + (trailing - 0xDC00))

/-- Takes a character that has to be there away. -/
def exactly (c : Char) : List Char → Except Fault (List Char)
  | [] => .error .truncated
  | d :: rest => if d = c then .ok rest else .error .malformed

/-- The character of an escape whose `\u` is gone, and what follows it. -/
def unicodeEscape (cs : List Char) : Except Fault (Char × List Char) := do
  let (unit, rest) ← hexUnit cs
  if isTrailing unit then throw .malformed
  if isLeading unit then
    let (second, rest) ← hexUnit (← exactly 'u' (← exactly '\\' rest))
    if isTrailing second then return (pairChar unit second, rest) else throw .malformed
  return (Char.ofNat unit, rest)

/-- The character of an escape whose backslash is gone, and what follows it. -/
def escape : List Char → Except Fault (Char × List Char)
  | [] => .error .truncated
  | c :: rest =>
    if c = 'u' then unicodeEscape rest
    else match shortEscape? c with
      | some e => .ok (e, rest)
      | none => .error .malformed

/-! ## Reading -/

/-- The characters up to the closing quote, and what follows it, in at most as many steps as
`fuel` has elements. -/
def quotedChars : List Char → List Char → Except Fault (List Char × List Char)
  | _, [] => .error .truncated
  | [], _ => .error .truncated
  | _ :: fuel, c :: rest =>
    if c = '"' then .ok ([], rest)
    else if c = '\\' then do
      let (e, rest) ← escape rest
      let (tail, rest) ← quotedChars fuel rest
      return (e :: tail, rest)
    else if c.toNat < 32 then .error .malformed
    else do
      let (tail, rest) ← quotedChars fuel rest
      return (c :: tail, rest)

/-- The text up to the closing quote, and what follows it. -/
def unquote (cs : List Char) : Except Fault (String × List Char) := do
  let (chars, rest) ← quotedChars cs cs
  return (String.ofList chars, rest)

/-! ## Skipping -/

/-- What follows an escape whose backslash is gone; a half of a pair may stand alone. -/
def skipEscape : List Char → Except Fault (List Char)
  | [] => .error .truncated
  | c :: rest =>
    if c = 'u' then do return (← hexUnit rest).2
    else if (shortEscape? c).isSome then .ok rest
    else .error .malformed

/-- What follows the closing quote, in at most as many steps as `fuel` has elements. -/
def skipChars : List Char → List Char → Except Fault (List Char)
  | _, [] => .error .truncated
  | [], _ => .error .truncated
  | _ :: fuel, c :: rest =>
    if c = '"' then .ok rest
    else if c = '\\' then do skipChars fuel (← skipEscape rest)
    else if c.toNat < 32 then .error .malformed
    else skipChars fuel rest

/-- What follows the closing quote. -/
def skipQuoted (cs : List Char) : Except Fault (List Char) := skipChars cs cs

end UpdateVault.Json
