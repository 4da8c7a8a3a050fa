import UpdateVault.SortedMap
import UpdateVault.Text

/-!
The capabilities of the installed artifact, one value for each key, and their text:
a line `key=value` for every key.

A reader takes blank lines and either line end, skips lines that are no pair, and
follows a policy where a key is repeated; text that has lines but no pair at all is
refused.
-/

namespace UpdateVault

/-- Capabilities by name, in the order of their UTF-8 bytes. -/
abbrev Provides := SortedMap String String

/-- What a repeated key means to a reader. -/
inductive RepeatPolicy
  | lastWins
  | reject
  deriving DecidableEq, Repr

instance : Inhabited RepeatPolicy := ⟨.lastWins⟩

namespace Provides

/-- What can be wrong with capabilities or with their text. -/
inductive Fault
  | invalidKey (key : String)
  | lineBreakInValue (key : String)
  | duplicateKey (key : String) (line : Nat)
  | noValidEntry
  | notUtf8
  deriving DecidableEq, Repr

def Fault.message : Fault → String
  | invalidKey key => s!"invalid provides key '{key}'"
  | lineBreakInValue key => s!"provides value for '{key}' contains a line break"
  | duplicateKey key line => s!"duplicate provides key '{key}' on line {line}"
  | noValidEntry => "no valid provides entry"
  | notUtf8 => "provides is not UTF-8"

/-! ## Writing -/

/-- Whether a character ends a line. -/
def isLineBreak (c : Char) : Bool := c = '\n' || c = '\r'

/-- A key can be written if it is not empty and holds neither `=` nor a line break. -/
def isWritableKey (key : String) : Bool :=
  !key.isEmpty && !key.toList.any fun c => c = '=' || isLineBreak c

def encodeEntry (key value : String) : Except Fault (List Char) :=
  if !isWritableKey key then .error (.invalidKey key)
  else if value.toList.any isLineBreak then .error (.lineBreakInValue key)
  else .ok (key.toList ++ '=' :: value.toList)

/-- The text of a map: its lines in key order, with a line feed between them. -/
def encode (m : Provides) : Except Fault String := do
  let lines ← m.toList.mapM fun e => encodeEntry e.1 e.2
  return String.ofList (Text.joinPieces '\n' lines)

/-! ## Reading -/

inductive Line
  | blank
  | malformed
  | entry (key value : String)
  deriving DecidableEq, Repr

/-- What a line says, once one carriage return at its end is gone. -/
def Line.read (raw : List Char) : Line :=
  let text := if raw.getLast? = some '\r' then raw.dropLast else raw
  if text.isEmpty then .blank
  else match Text.splitPair text with
    | none => .malformed
    | some (key, value) => .entry key value

/-- Adds the entries of lines, of which the first has the given number, to a map. -/
def collect (policy : RepeatPolicy) : Nat → Provides → List Line → Except Fault Provides
  | _, m, [] => .ok m
  | n, m, .entry key value :: rest =>
    if policy = .reject ∧ m.contains key then .error (.duplicateKey key n)
    else collect policy (n + 1) (m.insert key value) rest
  | n, m, _ :: rest => collect policy (n + 1) m rest

def lines (text : String) : List Line := (Text.pieces '\n' text.toList).map Line.read

/-- Whether there is something on the lines, and nothing of it is an entry. -/
def isGarbage (ls : List Line) : Bool :=
  ls.any (· ≠ .blank) && ls.all fun l => l = .blank || l = .malformed

def decode (policy : RepeatPolicy) (text : String) : Except Fault Provides := do
  let m ← collect policy 1 .empty (lines text)
  if isGarbage (lines text) then .error .noValidEntry else return m

end Provides

end UpdateVault
