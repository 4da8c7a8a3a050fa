import UpdateVault.Json.Print

/-!
The lines a command prints, in colour or without.
-/

namespace UpdateVault.CommandLine

/-- The width of the longest label, without its colon. -/
def labelColumn : Nat := 12

/-- A label with its colon, filled up with blanks to the column where values begin. -/
def alignLabel (label : String) : String :=
  let text := label ++ ":"
  text ++ String.ofList (List.replicate (labelColumn + 1 - text.length) ' ')

def lengthText : Option Nat → String
  | some n => s!"{n} bytes"
  | none => "(none)"

/-- A line of output. -/
inductive Line
  | plain (text : String)
  /-- What has been done. -/
  | success (text : String)
  /-- What there is to know, such as that something is absent. -/
  | info (text : String)
  | heading (text : String)
  | labelled (label value : String)
  /-- A further line of a value that is a list. -/
  | item (text : String)
  | warning (text : String)
  | error (text : String)
  deriving DecidableEq, Repr

/-- A value as lines of JSON with sorted keys. -/
def Line.ofJson (v : Json.Value) : Line := .plain v.sortKeys.pretty

/-- A text in a style, which is a sequence of terminal attributes. -/
def styled (colour : Bool) (style text : String) : String :=
  if colour then "\x1b[" ++ style ++ "m" ++ text ++ "\x1b[0m" else text

def Line.render (colour : Bool) : Line → String
  | plain text => text
  | success text => styled colour "1;32" "✓" ++ " " ++ text
  | info text => styled colour "90" "-" ++ " " ++ text
  | heading text => styled colour "1;96" text
  | labelled label value => "  " ++ styled colour "1" (alignLabel label) ++ " " ++ value
  | item text => "  " ++ String.ofList (List.replicate (labelColumn + 1) ' ') ++ " " ++ text
  | warning text => styled colour "1;33" "warning:" ++ " " ++ text
  | error text => styled colour "1;31" "error:" ++ " " ++ text

def renderLines (colour : Bool) (lines : List Line) : String :=
  String.join (lines.map fun l => l.render colour ++ "\n")

end UpdateVault.CommandLine
