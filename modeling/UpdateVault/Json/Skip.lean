import UpdateVault.Json.Reader

/-!
Skipping a value of any size and depth. The brackets that are open are kept in a list, so
the depth of a text is not limited.
-/

namespace UpdateVault.Json

/-- A kind of bracket. -/
inductive Bracket
  | square
  | curly
  deriving DecidableEq, Repr

namespace Bracket

/-- The character that closes a bracket. -/
def closing : Bracket → Char
  | square => ']'
  | curly => '\x7d'

end Bracket

namespace Reader

/-- Goes to the next value inside a bracket, past the key where there has to be one. -/
def toValue : Bracket → Reader Unit
  | .square => pure ()
  | .curly => do
    match ← peek with
    | none => throw .truncated
    | some '"' =>
      advance
      set (← skipQuoted (← get))
      punctuation ':'
    | some _ => throw .malformed

/-- After a value: goes to the next one, past the brackets that close before it. The brackets
that are open there are the answer. -/
def leave : List Bracket → Reader (List Bracket)
  | [] => return []
  | b :: outer => do
    match ← peek with
    | none => throw .truncated
    | some c =>
      if c = ',' then
        advance
        toValue b
        return b :: outer
      else if c = b.closing then
        advance
        leave outer
      else throw .malformed

/-- After an opening bracket: goes to the first value in it, or past it if it is empty. -/
def enter (b : Bracket) (outer : List Bracket) : Reader (List Bracket) := do
  match ← peek with
  | none => throw .truncated
  | some c =>
    if c = b.closing then
      advance
      leave outer
    else
      toValue b
      return b :: outer

/-- Goes past a value or into it, and on to the next value. -/
def skipStep (outer : List Bracket) : Reader (List Bracket) := do
  match ← peek with
  | some '[' =>
    advance
    enter .square outer
  | some '\x7b' =>
    advance
    enter .curly outer
  | _ =>
    skipScalar
    leave outer

/-- Skips the values up to the end of the brackets, in at most as many steps as `fuel` has
elements. -/
def skipWithin : List Char → List Bracket → Reader Unit
  | [], _ => throw .truncated
  | _ :: fuel, outer => do
    match ← skipStep outer with
    | [] => return ()
    | open_ => skipWithin fuel open_

/-- Skips a value. Each step takes at least one character, so the text that is left is fuel
enough. -/
def skip : Reader Unit := do
  match ← get with
  | [] => throw .truncated
  | text => skipWithin text []

end Reader

end UpdateVault.Json
