import UpdateVault.Json.Number
import UpdateVault.Json.Quoted

/-!
Readers of JSON text: blanks, scalars and the separators of arrays and objects.

A reader takes what it reads from the front of the text. The first fault in the order of
the text is the one that is reported. Loops are bounded by the text that is left when they
start: a loop uses up one character of it in each round.
-/

namespace UpdateVault.Json

/-- Reads something from the front of a text. -/
abbrev Reader (α : Type) := StateT (List Char) (Except Fault) α

/-- The characters that may stand between the parts of a text. -/
def isBlank (c : Char) : Bool := c = ' ' || c = '\n' || c = '\t' || c = '\r'

namespace Reader

/-- The next character that is no blank; it stays in the text. -/
def peek : Reader (Option Char) := fun cs =>
  let rest := cs.dropWhile isBlank
  .ok (rest.head?, rest)

/-- Takes one character away. -/
def advance : Reader Unit := fun cs => .ok ((), cs.tail)

/-- Takes the letters of a word away. -/
def word : List Char → Reader Unit
  | [] => pure ()
  | c :: letters => do
    set (← exactly c (← get))
    word letters

/-- Takes a closing or separating character away. -/
def punctuation (c : Char) : Reader Unit := do
  match ← peek with
  | none => throw .truncated
  | some d => if d = c then advance else throw .malformed

/-! ## Scalars -/

/-- Reads a text from its opening quote on. -/
def quoted : Reader String := do advance; fun cs => unquote cs

/-- Whether a character begins a number. -/
def beginsNumber (c : Char) : Bool := c = '-' || (digit? c).isSome

/-- Reads a value that holds no other values. -/
def scalar : Reader Value := do
  match ← peek with
  | none => throw .truncated
  | some c =>
    if c = '"' then return .string (← quoted)
    else if beginsNumber c then return .number (← (fun cs => readNumber cs))
    else if c = 'n' then word "null".toList; return .null
    else if c = 't' then word "true".toList; return .bool true
    else if c = 'f' then word "false".toList; return .bool false
    else throw .malformed

/-- Takes a value that holds no other values away. -/
def skipScalar : Reader Unit := do
  match ← peek with
  | none => throw .truncated
  | some c =>
    if c = '"' then advance; set (← skipQuoted (← get))
    else if beginsNumber c then set (← Numeral.skip (← get))
    else if c = 'n' then word "null".toList
    else if c = 't' then word "true".toList
    else if c = 'f' then word "false".toList
    else throw .malformed

/-! ## Arrays and objects -/

/-- Whether another element of an array follows, which is next then. A first element has no
comma before it. -/
def nextElement (first : Bool) : Reader Bool := do
  match ← peek with
  | none => throw .truncated
  | some c =>
    if c = ']' then return false
    else if first then return true
    else if c = ',' then
      advance
      match ← peek with
      | none => throw .truncated
      | some ']' => throw .malformed
      | some _ => return true
    else throw .malformed

/-- Whether another member of an object follows, whose key is next then. A first member has
no comma before it. -/
def nextMember (first : Bool) : Reader Bool := do
  match ← peek with
  | none => throw .truncated
  | some c =>
    if c = '\x7d' then return false
    else if first then
      if c = '"' then return true else throw .malformed
    else if c = ',' then
      advance
      match ← peek with
      | none => throw .truncated
      | some '"' => return true
      | some _ => throw .malformed
    else throw .malformed

/-- Reads the elements that are left in an array and its end, in at most as many rounds as
`fuel` has elements. -/
def elements {α : Type} (element : Reader α) : List Char → Bool → Reader (List α)
  | [], _ => throw .truncated
  | _ :: fuel, first => do
    if ← nextElement first then
      let a ← element
      return a :: (← elements element fuel false)
    else
      advance
      return []

/-- Reads the members that are left in an object and its end, in at most as many rounds as
`fuel` has elements. `member` gets the key of each, before the colon, and what has been read so
far. -/
def members {σ : Type} (member : σ → String → Reader σ) : List Char → Bool → σ → Reader σ
  | [], _, _ => throw .truncated
  | _ :: fuel, first, s => do
    if ← nextMember first then
      let key ← quoted
      members member fuel false (← member s key)
    else
      advance
      return s

/-- Reads an array from its opening bracket on. -/
def array {α : Type} (element : Reader α) : Reader (List α) := do
  let text ← get
  advance
  elements element text true

/-- Reads an object from its opening bracket on. -/
def object {σ : Type} (member : σ → String → Reader σ) (s : σ) : Reader σ := do
  let text ← get
  advance
  members member text true s

/-- Reads the value of a member, with the colon before it. -/
def afterColon {α : Type} (value : Reader α) : Reader α := do
  punctuation ':'
  value

/-! ## Whole texts -/

/-- What a reader makes of a whole text; nothing but blanks may follow what it reads. -/
def run {α : Type} (r : Reader α) (s : String) : Except Fault α := do
  let (a, rest) ← r s.toList
  if rest.all isBlank then return a else throw .malformed

end Reader

end UpdateVault.Json
