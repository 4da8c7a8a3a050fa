import UpdateVault.CommandLine.Grammar

/-!
Reading a command line, argument by argument.

Arguments are settled late: a value that stands apart from its option is looked at when the
next option or operand begins or the level ends. So of two faults the one that is found
first is not always the one that is written first: an unknown option is reported at once,
and what a level lacks only when the levels below it are complete.
-/

namespace UpdateVault.CommandLine

/-- What has been given on a level. -/
structure LevelState where
  level : Level
  given : List (Slot × List Argument) := []
  /-- An option or operand whose values have not been looked at. -/
  pending : Option (Slot × List String) := none
  /-- The operands that are still to come. -/
  operands : List Slot := level.operands

/-- How far a command line has been read. -/
structure Scan where
  current : LevelState
  /-- The levels above, the nearest one first. -/
  outer : List LevelState := []
  /-- Whether an option still waits for its value. -/
  awaiting : Bool := false
  /-- Whether only operands may follow. -/
  trailing : Bool := false

namespace LevelState

def find? (s : LevelState) (slot : Slot) : Option (List Argument) := s.given.lookup slot

/-- Settles the values of a slot. A slot may be given once, and a list in several parts. -/
def settle (slot : Slot) (values : List String) (s : LevelState) :
    Except UsageError LevelState := do
  match slot.role with
  | .asksHelp => throw .help
  | .asksVersion => throw .version
  | .switch =>
    if (s.find? slot).isSome then throw .repeatedOption
    return { s with given := s.given ++ [(slot, [])] }
  | .takesValue rule =>
    if values.isEmpty then throw .invalidValue
    if (s.find? slot).isSome && !slot.isList then throw .repeatedOption
    let arguments ← values.mapM rule.read
    return { s with given := s.given ++ [(slot, arguments)] }

def resolve (s : LevelState) : Except UsageError LevelState :=
  match s.pending with
  | none => .ok s
  | some (slot, values) => settle slot values { s with pending := none }

/-- A level after its last argument: what is pending is settled, and then all that has to be
given must be there. `isLast` says that no level below was chosen. -/
def finish (isLast : Bool) (s : LevelState) : Except UsageError LevelState := do
  let s ← s.resolve
  if isLast && s.level.isGroup then
    throw (if s.given.isEmpty then .nothingGiven else .missingCommand)
  if s.level.required.all fun slot => (s.find? slot).isSome then return s
  else throw .missingArgument

end LevelState

namespace Scan

/-! ## Options -/

/-- Settles what is pending and then a slot. -/
def give (slot : Slot) (values : List String) (s : Scan) : Except UsageError Scan := do
  let current ← (← s.current.resolve).settle slot values
  return { s with current, awaiting := false }

/-- Makes an option wait for its value. -/
def await (slot : Slot) (s : Scan) : Except UsageError Scan := do
  let current ← s.current.resolve
  return { s with current := { current with pending := some (slot, []) }, awaiting := true }

/-- An option, with the value that is attached to it. -/
def option (slot : Slot) (attached : Option String) (s : Scan) : Except UsageError Scan :=
  match slot.role, attached with
  | .takesValue _, some value => give slot [value] s
  | .takesValue _, none => await slot s
  | _, some _ => .error .needlessValue
  | _, none => give slot [] s

/-- Name and attached value of an option after its two hyphens. -/
def splitLong (cs : List Char) : String × Option String :=
  match cs.span (· != '=') with
  | (name, []) => (String.ofList name, none)
  | (name, _ :: value) => (String.ofList name, some (String.ofList value))

/-- An argument that begins with two hyphens, which are gone. -/
def longOption (cs : List Char) (s : Scan) : Except UsageError Scan :=
  let (name, attached) := splitLong cs
  match s.current.level.long? name with
  | some slot => option slot attached s
  | none => .error .unknownArgument

def attachedValue : List Char → Option String
  | [] => none
  | '=' :: value => some (String.ofList value)
  | value => some (String.ofList value)

/-- The letters of an argument that begins with one hyphen, which is gone. What follows the
letter of an option with a value is that value. -/
def letters : List Char → Scan → Except UsageError Scan
  | [], s => .ok s
  | c :: rest, s =>
    match s.current.level.short? c with
    | none => .error .unknownArgument
    | some slot => match slot.role with
      | .takesValue _ => option slot (attachedValue rest) s
      | _ => option slot none s >>= letters rest

/-! ## Values and operands -/

/-- A value for the option that waits for one. -/
def value (arg : String) (s : Scan) : Scan :=
  let pending := s.current.pending.map fun (slot, values) => (slot, values ++ [arg])
  { s with current := { s.current with pending }, awaiting := false }

/-- Why an argument that no operand is left for is refused. -/
def strayFault (arg : String) (s : Scan) : UsageError :=
  let level := s.current.level
  if level.isGroup then
    if s.trailing && (arg = Level.helpName || (level.child? arg).isSome) then .unknownArgument
    else .unknownCommand
  else .unknownArgument

/-- An operand. One that takes a list stays in its place. -/
def operand (arg : String) (s : Scan) : Except UsageError Scan :=
  match s.current.operands with
  | [] => .error (s.strayFault arg)
  | slot :: rest => do
    let (current, before) ← match s.current.pending with
      | some (pending, values) =>
        -- a list goes on with the values it has
        if pending = slot then pure (s.current, values)
        else do pure (← s.current.resolve, [])
      | none => pure (s.current, [])
    let operands := if slot.isList then slot :: rest else rest
    return { s with
      current := { current with pending := some (slot, before ++ [arg]), operands }
      awaiting := false }

/-! ## All arguments -/

/-- An argument that is not the name of a command. -/
def argument (arg : String) (s : Scan) : Except UsageError Scan :=
  if s.trailing then operand arg s
  else match arg.toList with
    | ['-', '-'] => .ok { s with trailing := true }
    | '-' :: '-' :: name => longOption name s
    | '-' :: c :: rest => letters (c :: rest) s
    | _ => if s.awaiting then .ok (value arg s) else operand arg s

/-- Goes down to a command. -/
def descend (level : Level) (s : Scan) : Scan :=
  { current := { level }, outer := s.current :: s.outer }

/-- The command that an argument names here. A value that an option waits for names none, and
neither does an operand. -/
def child? (arg : String) (s : Scan) : Option Level :=
  if s.trailing || s.awaiting then none else s.current.level.child? arg

/-- Whether an argument asks for the help of a group. -/
def isHelp (arg : String) (s : Scan) : Bool :=
  !s.trailing && !s.awaiting && s.current.level.isGroup && arg == Level.helpName

/-- What becomes of a request for help about a command: names that lead to it follow. The last
of them may ask for help about the help command itself. -/
def helpFor : Level → List String → UsageError
  | _, [] => .help
  | level, name :: rest =>
    match level.child? name with
    | some child => helpFor child rest
    | none => if level.isGroup && name == Level.helpName && rest.isEmpty then .help
      else .unknownCommand

/-- Reads arguments up to the last one. -/
def all : List String → Scan → Except UsageError Scan
  | [], s => .ok s
  | arg :: rest, s =>
    if s.isHelp arg then .error (helpFor s.current.level rest)
    else match s.child? arg with
      | some level => all rest (s.descend level)
      | none => argument arg s >>= all rest

/-- The levels of a command line that is complete, the innermost one first. -/
def finish (s : Scan) : Except UsageError (List LevelState) := do
  -- the innermost level is complete before the levels above are looked at
  let last ← s.current.finish true
  let outer ← s.outer.mapM (·.finish false)
  return last :: outer

end Scan

/-! ## The command -/

/-- The arguments of a slot on the level furthest down that has any. -/
def argumentsOf (levels : List LevelState) (slot : Slot) : List Argument :=
  levels.flatMap fun l => (l.given.filter (·.1 = slot)).flatMap (·.2)

def pathOf (levels : List LevelState) (slot : Slot) : Option Path :=
  match argumentsOf levels slot with
  | .path p :: _ => some p
  | _ => none

def textOf (levels : List LevelState) (slot : Slot) : Option String :=
  match argumentsOf levels slot with
  | .text s :: _ => some s
  | _ => none

def textsOf (levels : List LevelState) (slot : Slot) : List String :=
  (argumentsOf levels slot).filterMap fun
    | .text s => some s
    | _ => none

def phaseOf (levels : List LevelState) (slot : Slot) : Option Phase :=
  match argumentsOf levels slot with
  | .phase p :: _ => some p
  | _ => none

/-- The output format; text if none is given. -/
def formatOf (levels : List LevelState) : ResultFormat :=
  match argumentsOf levels .format with
  | .format f :: _ => f
  | _ => .text

/-- The backend to set up; files if none is given. -/
def backendOf (levels : List LevelState) : StorageKind :=
  match argumentsOf levels .backend with
  | .backend k :: _ => k
  | _ => .file

def isSet (levels : List LevelState) (slot : Slot) : Bool :=
  levels.any fun l => (l.find? slot).isSome

/-- The command of a level with what was given for it; a group is no command. -/
def commandOf (levels : List LevelState) : Level → Option Command
  | .init => some (.init (backendOf levels) (isSet levels .force))
  | .status => some .status
  | .setKeys => do return .setKeys (← pathOf levels .privateKey) (← pathOf levels .publicKey)
  | .showKeys => some .showKeys
  | .deleteKeys => some .deleteKeys
  | .setDeployment => do return .setDeployment (← pathOf levels .file)
  | .getDeployment => some .getDeployment
  | .deleteDeployment => some .deleteDeployment
  | .saveState => do
    return .saveState ⟨← phaseOf levels .phase, ← textOf levels .artifactType⟩
  | .getState => some .getState
  | .deleteState => some .deleteState
  | .setProvides => some (.setProvides (textsOf levels .pairs))
  | .getProvides => some .getProvides
  | .deleteProvides => some .deleteProvides
  | .setArtifactName => do return .setArtifactName (← textOf levels .name)
  | .getArtifactName => some .getArtifactName
  | .top | .keys | .deployment | .state | .provides | .artifactName => none

/-- What a command line asks for; `arguments` are those after the program's name. -/
def parse (arguments : List String) : Except UsageError Invocation := do
  let levels ← (← Scan.all arguments { current := { level := .top } }).finish
  let command? := levels.head?.bind fun l => commandOf levels l.level
  match command? with
  | none => throw .missingArgument
  | some command =>
    return {
      root := pathOf levels .root
      format := formatOf levels
      logLevel := textOf levels .logLevel
      command }

end UpdateVault.CommandLine
