import UpdateVault.Json.Reader

/-!
Reading a text as a value of any type.
-/

namespace UpdateVault.Json

/-- How many brackets may be open at once. -/
def maxDepth : Nat := 127

namespace Reader

/-- Adds the member with a given key to those before it. -/
def member (value : Reader Value) (before : SortedMap String Value) (key : String) :
    Reader (SortedMap String Value) := do
  return before.insert key (← afterColon value)

/-- Reads a value in which at most `depth` brackets are open at once. The members of an object
are put in the order of their keys, and of two with one key the later one counts. -/
def value : Nat → Reader Value
  | 0 => scalar
  | depth + 1 => do
    match ← peek with
    | some '[' => return .array (← array (value depth))
    | some '\x7b' =>
      let members ← object (member (value depth)) .empty
      return .object members.toList
    | _ => scalar

end Reader

/-- The value of a text, if the text is JSON with numbers in the range of doubles. -/
def Value.ofText? (s : String) : Option Value := (Reader.run (Reader.value maxDepth) s).toOption

end UpdateVault.Json
