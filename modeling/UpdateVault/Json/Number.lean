import UpdateVault.Double
import UpdateVault.Json.Basic

/-!
Numbers.

A written number is a sign, digits, perhaps a fraction and perhaps an exponent. Without
fraction and exponent it stands for a whole number if that fits 64 bits, otherwise for a
double.
-/

namespace UpdateVault.Json

/-- A number as it is written. -/
structure Numeral where
  negative : Bool
  whole : List Nat
  fraction : Option (List Nat)
  /-- Whether the exponent has a minus sign, and its digits. -/
  exponent : Option (Bool × List Nat)

/-! ## The written form -/

def digit? (c : Char) : Option Nat :=
  if '0' ≤ c ∧ c ≤ '9' then some (c.toNat - 48) else none

/-- The digits at the front of a text, and what follows them. -/
def spanDigits : List Char → List Nat × List Char
  | [] => ([], [])
  | c :: rest => match digit? c with
    | none => ([], c :: rest)
    | some d => let (ds, tail) := spanDigits rest; (d :: ds, tail)

/-- At least one digit, and what follows the digits. -/
def someDigits (cs : List Char) : Except Fault (List Nat × List Char) :=
  match spanDigits cs with
  | ([], []) => .error .truncated
  | ([], _) => .error .malformed
  | found => .ok found

/-- The digits of a whole number: a zero stands alone. -/
def wholeDigits (cs : List Char) : Except Fault (List Nat × List Char) := do
  let (ds, rest) ← someDigits cs
  match ds with
  | 0 :: _ :: _ => throw .malformed
  | _ => return (ds, rest)

/-- The fraction, if a point follows. -/
def fractionPart : List Char → Except Fault (Option (List Nat) × List Char)
  | '.' :: rest => do
    let (ds, rest) ← someDigits rest
    return (some ds, rest)
  | cs => .ok (none, cs)

/-- The exponent, if its letter follows. -/
def exponentPart : List Char → Except Fault (Option (Bool × List Nat) × List Char)
  | c :: rest =>
    if c = 'e' ∨ c = 'E' then do
      let (negative, rest) := match rest with
        | '+' :: rest => (false, rest)
        | '-' :: rest => (true, rest)
        | rest => (false, rest)
      let (ds, rest) ← someDigits rest
      return (some (negative, ds), rest)
    else .ok (none, c :: rest)
  | [] => .ok (none, [])

/-- The number at the front of a text, and what follows it. -/
def Numeral.read (cs : List Char) : Except Fault (Numeral × List Char) := do
  let (negative, cs) := match cs with
    | '-' :: rest => (true, rest)
    | cs => (false, cs)
  let (whole, rest) ← wholeDigits cs
  let (fraction, rest) ← fractionPart rest
  let (exponent, rest) ← exponentPart rest
  return ({ negative, whole, fraction, exponent }, rest)

/-- What follows the number at the front of a text. Where nobody wants the number, one that
breaks off is malformed. -/
def Numeral.skip (cs : List Char) : Except Fault (List Char) :=
  match Numeral.read cs with
  | .ok (_, rest) => .ok rest
  | .error _ => .error .malformed

/-! ## The value -/

/-- Numbers from here on do not fit 64 bits. -/
def wordLimit : Nat := UInt64.size

/-- The largest exponent that is told from a larger one. -/
def maxExponent : Nat := 0x7FFFFFFF

/-- Appends digits to a significand as long as it fits 64 bits; the digits left over come
with it. -/
def appendDigits : Nat → List Nat → Nat × List Nat
  | s, [] => (s, [])
  | s, d :: ds => if s * 10 + d < wordLimit then appendDigits (s * 10 + d) ds else (s, d :: ds)

/-- The number that digits stand for, if it is not above a bound; otherwise some number above
the bound. -/
def ofDigitsUpTo (bound : Nat) (ds : List Nat) : Nat :=
  ds.foldl (fun n d => if bound < n then n else n * 10 + d) 0

/-- The power of ten of an exponent. -/
def signedExponent : Option (Bool × List Nat) → Int
  | none => 0
  | some (negative, ds) =>
    let n := ofDigitsUpTo maxExponent ds
    if negative then -(n : Int) else n

def signed (negative : Bool) (f : Float) : Number :=
  .double (if negative then -f else f).toBits

/-- The double that a number stands for; none if it is out of range. -/
def Numeral.double? (x : Numeral) : Option Number :=
  let (s, left) := appendDigits 0 x.whole
  let fraction := x.fraction.getD []
  let (s, unread) := appendDigits s fraction
  let shift : Int := left.length - (fraction.length - unread.length : Nat)
  let exponent := signedExponent x.exponent
  if maxExponent < exponent.natAbs then
    if s ≠ 0 ∧ 0 < exponent then none else some (signed x.negative 0.0)
  else (Double.ofParts? s (shift + exponent)).map (signed x.negative)

/-- The whole number that a number stands for: it has no fraction and no exponent and fits
64 bits, those below zero with their sign. -/
def Numeral.integer? (x : Numeral) : Option Number :=
  if x.fraction.isSome ∨ x.exponent.isSome then none
  else match appendDigits 0 x.whole with
    | (_, _ :: _) => none
    | (n, []) =>
      if !x.negative then some (.natural n)
      else if 0 < n ∧ n ≤ wordLimit / 2 then some (.negative n)
      else none

/-- The number that a written number stands for; none if it is out of range. -/
def Numeral.number? (x : Numeral) : Option Number := x.integer?.or x.double?

def readNumber (cs : List Char) : Except Fault (Number × List Char) := do
  let (x, rest) ← Numeral.read cs
  match x.number? with
  | some n => return (n, rest)
  | none => throw .malformed

/-! ## Writing -/

/-- With more places than this before the point, an exponent is written. -/
def maxPlaces : Int := 16

/-- With so many zeros behind the point, counted below zero, an exponent is written. -/
def minPlaces : Int := -5

/-- The power of ten after the letter of an exponent. -/
def exponentText (e : Int) : List Char :=
  (if e < 0 then '-' else '+') :: Nat.toDigits 10 e.natAbs

/-- A decimal: with a point while there are at most sixteen places before it and less than
five zeros behind it, otherwise with an exponent. -/
def layout (x : Double.Decimal) : List Char :=
  let ds := Nat.toDigits 10 x.digits
  let places : Int := ds.length + x.exponent
  if 0 ≤ x.exponent ∧ places ≤ maxPlaces then
    ds ++ List.replicate x.exponent.toNat '0' ++ ['.', '0']
  else if 0 < places ∧ places ≤ maxPlaces then
    ds.take places.toNat ++ '.' :: ds.drop places.toNat
  else if minPlaces < places ∧ places ≤ 0 then
    '0' :: '.' :: List.replicate (-places).toNat '0' ++ ds
  else match ds with
    | [d] => d :: 'e' :: exponentText (places - 1)
    | d :: rest => d :: '.' :: rest ++ 'e' :: exponentText (places - 1)
    | [] => []

/-- The text of a finite double: its shortest decimal. -/
def doubleText (bits : UInt64) : List Char :=
  let x := Double.Binary.ofBits bits
  let text := if x.mantissa = 0 then ['0', '.', '0'] else layout (Double.shortest x)
  if bits >>> 63 = 1 then '-' :: text else text

def Number.text : Number → List Char
  | natural n => Nat.toDigits 10 n
  | negative n => '-' :: Nat.toDigits 10 n
  | double bits => doubleText bits

end UpdateVault.Json
