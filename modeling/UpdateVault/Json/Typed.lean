import UpdateVault.Json.Skip

/-!
Readers for values of a known type: text, whole numbers, names, maps and records.

Where a scalar of the wrong type stands, it is read to its end before it is refused, so that
a scalar that is not JSON counts as such. An array or an object of the wrong type is refused
at its first character.
-/

namespace UpdateVault.Json.Reader

/-- Reads a value that holds no other values, where one has to be. -/
def scalarOnly : Reader Value := do
  match ← peek with
  | some '[' => throw .mismatched
  | some '\x7b' => throw .mismatched
  | _ => scalar

/-- Refuses a value of the wrong type. -/
def mismatch {α : Type} : Reader α := do
  discard scalarOnly
  throw .mismatched

def text : Reader String := do
  match ← scalarOnly with
  | .string s => return s
  | _ => throw .mismatched

/-- Reads a whole number that is not below zero and is written without fraction and exponent. -/
def natural : Reader Nat := do
  match ← scalarOnly with
  | .number (.natural n) => return n
  | _ => throw .mismatched

def nothing : Reader Unit := do
  match ← scalarOnly with
  | .null => return ()
  | _ => throw .mismatched

/-! ## Names -/

/-- Reads one of a set of names. -/
def name {α : Type} (ofName? : String → Option α) : Reader α := do
  match ofName? (← text) with
  | some a => return a
  | none => throw .mismatched

/-- Reads one of a set of names where only a text can stand. -/
def key {α : Type} (ofName? : String → Option α) : Reader α := do
  match ← peek with
  | none => throw .truncated
  | some '"' => name ofName?
  | some _ => throw .malformed

/-- Reads a choice: its name, or an object with its name as the only key and `null` behind it.
In the place of the key nothing but a text can stand. -/
def choice {α : Type} (ofName? : String → Option α) : Reader α := do
  match ← peek with
  | some '\x7b' =>
    advance
    let a ← key ofName?
    afterColon nothing
    punctuation '\x7d'
    return a
  | _ => key ofName?

/-! ## Maps -/

/-- Reads an object of texts; of two members with one key the later one counts. -/
def textMap : Reader (SortedMap String String) := do
  match ← peek with
  | some '\x7b' =>
    object (fun m key => do return m.insert key (← afterColon text)) .empty
  | _ => mismatch

/-! ## Records -/

/-- A field of a record, of which a draft in `σ` is filled as fields are read. -/
structure Field (σ : Type) where
  name : String
  /-- Whether a draft has the field already. -/
  isFilled : σ → Bool
  /-- Reads the value of the field into a draft. -/
  fill : σ → Reader σ

/-- The field that is read by `value`, seen by `find?` and put into a draft by `put`. -/
def Field.make {σ α : Type} (name : String) (value : Reader α) (find? : σ → Option α)
    (put : α → σ → σ) : Field σ where
  name := name
  isFilled s := (find? s).isSome
  fill s := do return put (← value) s

/-- Reads a member of a record. A field must not come twice; a member that is no field is
skipped. -/
def recordMember {σ : Type} (fields : List (Field σ)) (s : σ) (key : String) : Reader σ :=
  match fields.find? (·.name == key) with
  | none => do
    afterColon skip
    return s
  | some f => if f.isFilled s then throw .mismatched else afterColon (f.fill s)

/-- Reads the elements of a record that is written as an array, in the order of the fields;
fields at the end may be missing. -/
def recordElements {σ : Type} : List (Field σ) → Bool → σ → Reader σ
  | [], _, s => do
    punctuation ']'
    return s
  | f :: rest, first, s => do
    if ← nextElement first then recordElements rest false (← f.fill s)
    else
      advance
      return s

/-- Reads a record into a draft; it is an object, or an array of its fields. -/
def record {σ : Type} (fields : List (Field σ)) (s : σ) : Reader σ := do
  match ← peek with
  | some '[' =>
    advance
    recordElements fields true s
  | some '\x7b' => object (recordMember fields) s
  | _ => mismatch

/-- A field that a record has to have. -/
def required {α : Type} : Option α → Reader α
  | some a => pure a
  | none => throw .mismatched

end UpdateVault.Json.Reader
