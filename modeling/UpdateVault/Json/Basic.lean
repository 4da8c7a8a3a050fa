import UpdateVault.SortedMap

/-!
JSON values, and why a text is not accepted.

A number is kept as it is read: a whole number that fits 64 bits exactly, any other as a
double. An object keeps its members in the order in which they are written; `Value.sorted`
puts them in the order of their keys.
-/

namespace UpdateVault.Json

/-- Why a text is not accepted. -/
inductive Fault
  /-- Something stands where it cannot stand in JSON. -/
  | malformed
  /-- The text ends too early. -/
  | truncated
  /-- A value is not what belongs in its place. -/
  | mismatched
  deriving DecidableEq, Repr

inductive Number
  | natural (n : Nat)
  /-- The whole number below zero with the given distance from it. -/
  | negative (distance : Nat)
  /-- A finite double, by its bits. -/
  | double (bits : UInt64)
  deriving DecidableEq, Repr

inductive Value
  | null
  | bool (b : Bool)
  | number (n : Number)
  | string (s : String)
  | array (items : List Value)
  | object (members : List (String × Value))

namespace Value

/-- A whole number that is not below zero. -/
def natural (n : Nat) : Value := number (.natural n)

/-- The object with given members in the order of their keys; of two members with one key
the later one counts. -/
def sorted (members : List (String × Value)) : Value :=
  object (SortedMap.ofList members).toList

mutual

/-- The value with the members of all its objects in the order of their keys. -/
def sortKeys : Value → Value
  | array items => array (sortItems items)
  | object members => sorted (sortMembers members)
  | v => v

def sortItems : List Value → List Value
  | [] => []
  | v :: rest => sortKeys v :: sortItems rest

def sortMembers : List (String × Value) → List (String × Value)
  | [] => []
  | (k, v) :: rest => (k, sortKeys v) :: sortMembers rest

end

/-- The value of something that may be missing. -/
def ofOption {α : Type} (f : α → Value) : Option α → Value
  | some a => f a
  | none => null

def ofMap (m : SortedMap String String) : Value :=
  object (m.toList.map fun e => (e.1, string e.2))

end Value

end UpdateVault.Json
