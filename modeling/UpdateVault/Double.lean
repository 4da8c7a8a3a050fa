/-!
Doubles and decimals.

`ofParts?` makes a double from a significand below `2 ^ 64` and a power of ten by one
multiplication or division at a time, each of which rounds.

`shortest` finds the decimal with the fewest digits that lies among the reals which round to
a double, and of those the one nearest to it.
-/

namespace UpdateVault.Double

/-! ## From decimals -/

/-- The largest power of ten that is a double. -/
def maxPower : Nat := 308

/-- A power of ten as a double. -/
def power (n : Nat) : Float := Float.ofScientific 1 false n

/-- `f` divided by `10 ^ n` in at most `steps` steps, none of them by more than `10 ^ 308`;
zero stays as it is. -/
def divide : Nat → Float → Nat → Float
  | 0, f, _ => f
  | steps + 1, f, n =>
    if n ≤ maxPower then f / power n
    else if f == 0 then f
    else divide steps (f / power maxPower) (n - maxPower)

/-- The double made from a significand below `2 ^ 64` and a power of ten; none if it would be
infinite. Two divisions by `10 ^ 308` make zero of any such significand, so four steps are
more than enough. -/
def ofParts? (significand : Nat) (exponent : Int) : Option Float :=
  let f := significand.toUInt64.toFloat
  match exponent with
  | .ofNat n =>
    if n ≤ maxPower then
      let product := f * power n
      if product.isInf then none else some product
    else if f == 0 then some f
    else none
  | .negSucc n => some (divide 4 f (n + 1))

/-! ## To decimals -/

/-- A finite double without its sign, `mantissa * 2 ^ exponent`. -/
structure Binary where
  mantissa : Nat
  exponent : Int
  /-- The gap to the double below is half the gap to the double above. -/
  narrowBelow : Bool

/-- The value of the bits of a finite double, without the sign. -/
def Binary.ofBits (bits : UInt64) : Binary :=
  let e := ((bits >>> 52) &&& 0x7FF).toNat
  let fraction := (bits &&& 0xFFFFFFFFFFFFF).toNat
  if e = 0 then ⟨fraction, -1074, false⟩
  else ⟨0x10000000000000 + fraction, (e : Int) - 1075, fraction = 0 && 1 < e⟩

/-- A decimal, `digits * 10 ^ exponent`. -/
structure Decimal where
  digits : Nat
  exponent : Int
  deriving DecidableEq, Repr

/-- A value in quarters of the unit of a double, seen on the grid of a power of ten:
`quarters * unit` and a step of the grid are whole numbers of one size. -/
structure Grid where
  unit : Nat
  step : Nat

/-- The grid of `10 ^ p` for doubles with binary exponent `q`. -/
def Grid.make (q p : Int) : Grid :=
  let e := q - 2
  { unit := Nat.pow 2 e.toNat * Nat.pow 10 (-p).toNat
    step := Nat.pow 10 p.toNat * Nat.pow 2 (-e).toNat }

/-- Whether `d` steps of the grid lie among the reals that round to a double; both ends of
that interval belong to it when the mantissa is even. -/
def Grid.readsBack (g : Grid) (x : Binary) (d : Nat) : Bool :=
  let low := if x.narrowBelow then 4 * x.mantissa - 1 else 4 * x.mantissa - 2
  let high := 4 * x.mantissa + 2
  if x.mantissa % 2 = 0 then low * g.unit ≤ d * g.step && d * g.step ≤ high * g.unit
  else low * g.unit < d * g.step && d * g.step < high * g.unit

/-- The nearer of two neighbours on the grid, the even one if both are as near. -/
def Grid.nearer (g : Grid) (x : Binary) (d : Nat) : Nat :=
  let twice := 2 * (4 * x.mantissa * g.unit)
  let middle := (2 * d + 1) * g.step
  if twice < middle then d
  else if middle < twice then d + 1
  else if d % 2 = 0 then d
  else d + 1

/-- The multiple of a step of the grid that reads back as the double, the nearest one if
there are two. -/
def Grid.hit? (g : Grid) (x : Binary) : Option Nat :=
  let d := 4 * x.mantissa * g.unit / g.step
  match g.readsBack x d, g.readsBack x (d + 1) with
  | true, true => some (g.nearer x d)
  | true, false => some d
  | false, true => some (d + 1)
  | false, false => none

/-- The hit on the coarsest of `count` grids, of which the first is that of `10 ^ p` and each
is ten times finer than the one before. -/
def search (x : Binary) : Nat → Int → Option Decimal
  | 0, _ => none
  | count + 1, p =>
    match (Grid.make x.exponent p).hit? x with
    | some d => some ⟨d, p⟩
    | none => search x count (p - 1)

/-- The shortest decimal of a double that is not zero. The grids go from `10 ^ 308` down to
`10 ^ -324`, and every double has a hit on the finest. -/
def shortest (x : Binary) : Decimal :=
  (search x 633 308).getD ⟨0, 0⟩

end UpdateVault.Double
