import UpdateVault.Config.Basic

/-!
The grammar of the command line: a tree of command names, and for each command its options
and its operands.

Options with a name may stand anywhere after the command they belong to; the global ones
belong to every command, and the one given furthest down the tree counts.
-/

namespace UpdateVault.CommandLine

/-- How results are shown. -/
inductive ResultFormat
  | text
  | json
  deriving DecidableEq, Repr

def ResultFormat.name : ResultFormat → String
  | text => "text"
  | json => "json"

def ResultFormat.ofName? (s : String) : Option ResultFormat := [text, json].find? (·.name == s)

/-- A command with its operands. -/
inductive Command
  | init (backend : StorageKind) (force : Bool)
  | status
  | setKeys (privateKey publicKey : Path)
  | showKeys
  | deleteKeys
  | setDeployment (file : Path)
  | getDeployment
  | deleteDeployment
  | saveState (checkpoint : Checkpoint)
  | getState
  | deleteState
  | setProvides (pairs : List String)
  | getProvides
  | deleteProvides
  | setArtifactName (name : String)
  | getArtifactName
  deriving DecidableEq, Repr

/-- A command line that was understood. -/
structure Invocation where
  root : Option Path
  format : ResultFormat
  logLevel : Option String
  command : Command
  deriving DecidableEq, Repr

/-- Why a command line is not carried out. -/
inductive UsageError
  /-- An option without its value, a value that is none of the possible ones, an empty path. -/
  | invalidValue
  /-- A phase that there is not. -/
  | unknownPhase
  | unknownArgument
  | unknownCommand
  | missingArgument
  | missingCommand
  /-- An option given twice. -/
  | repeatedOption
  /-- A value given to an option that takes none. -/
  | needlessValue
  /-- Help is asked for. -/
  | help
  | version
  /-- A group of commands without any argument. -/
  | nothingGiven
  deriving DecidableEq, Repr

/-! ## Options and operands -/

/-- The things that arguments can be given for. -/
inductive Slot
  | root
  | format
  | logLevel
  | help
  | version
  | backend
  | force
  | privateKey
  | publicKey
  | file
  | phase
  | artifactType
  | pairs
  | name
  deriving DecidableEq, Repr

/-- What an argument has to be. -/
inductive ValueRule
  | path
  | text
  | format
  | backend
  | phase
  deriving DecidableEq, Repr

/-- An argument that meets its rule. -/
inductive Argument
  | path (p : Path)
  | text (s : String)
  | format (f : ResultFormat)
  | backend (k : StorageKind)
  | phase (p : Phase)
  deriving DecidableEq, Repr

def ValueRule.read (rule : ValueRule) (s : String) : Except UsageError Argument :=
  match rule with
  | path => if s.isEmpty then .error .invalidValue else .ok (.path ⟨s⟩)
  | text => .ok (.text s)
  | format => match ResultFormat.ofName? s with
    | some f => .ok (.format f)
    | none => .error .invalidValue
  | backend => match StorageKind.ofName? s with
    | some k => .ok (.backend k)
    | none => .error .invalidValue
  | phase => match Phase.parse? s with
    | some p => .ok (.phase p)
    | none => .error .unknownPhase

/-- What an option does when it is met. -/
inductive Role
  | takesValue (rule : ValueRule)
  | switch
  | asksHelp
  | asksVersion
  deriving DecidableEq, Repr

namespace Slot

/-- The name of an option, which is written after two hyphens. -/
def long : Slot → Option String
  | root => some "root"
  | format => some "format"
  | logLevel => some "log-level"
  | help => some "help"
  | version => some "version"
  | backend => some "backend"
  | force => some "force"
  | privateKey => some "private"
  | publicKey => some "public"
  | _ => none

/-- The letter of an option, which is written after one hyphen. -/
def short : Slot → Option Char
  | root => some 'r'
  | format => some 'f'
  | help => some 'h'
  | version => some 'V'
  | backend => some 'b'
  | _ => none

def role : Slot → Role
  | root | privateKey | publicKey | file => .takesValue .path
  | format => .takesValue .format
  | backend => .takesValue .backend
  | phase => .takesValue .phase
  | logLevel | artifactType | pairs | name => .takesValue .text
  | force => .switch
  | help => .asksHelp
  | version => .asksVersion

/-- Whether an operand takes all arguments that are left. -/
def isList : Slot → Bool
  | pairs => true
  | _ => false

end Slot

/-! ## Levels -/

/-- The places in the tree of commands. -/
inductive Level
  | top
  | init
  | status
  | keys
  | setKeys
  | showKeys
  | deleteKeys
  | deployment
  | setDeployment
  | getDeployment
  | deleteDeployment
  | state
  | saveState
  | getState
  | deleteState
  | provides
  | setProvides
  | getProvides
  | deleteProvides
  | artifactName
  | setArtifactName
  | getArtifactName
  deriving DecidableEq, Repr

namespace Level

/-- The commands of a group, by name. -/
def children : Level → List (String × Level)
  | top => [("init", init), ("status", status), ("keys", keys), ("deployment", deployment),
      ("state", state), ("provides", provides), ("artifact-name", artifactName)]
  | keys => [("set", setKeys), ("show", showKeys), ("delete", deleteKeys)]
  | deployment => [("set", setDeployment), ("get", getDeployment), ("delete", deleteDeployment)]
  | state => [("save", saveState), ("get", getState), ("delete", deleteState)]
  | provides => [("set", setProvides), ("get", getProvides), ("delete", deleteProvides)]
  | artifactName => [("set", setArtifactName), ("get", getArtifactName)]
  | _ => []

def isGroup (l : Level) : Bool := !l.children.isEmpty

/-- The options that belong to every command. -/
def globals : List Slot := [.root, .format, .logLevel, .help]

def options : Level → List Slot
  | top => .version :: globals
  | init => .backend :: .force :: globals
  | setKeys => .privateKey :: .publicKey :: globals
  | _ => globals

def operands : Level → List Slot
  | setDeployment => [.file]
  | saveState => [.phase, .artifactType]
  | setProvides => [.pairs]
  | setArtifactName => [.name]
  | _ => []

def required : Level → List Slot
  | setKeys => [.privateKey, .publicKey]
  | l => l.operands

def long? (l : Level) (s : String) : Option Slot := l.options.find? (·.long == some s)

def short? (l : Level) (c : Char) : Option Slot := l.options.find? (·.short == some c)

/-- The name of the command that shows help, in every group. -/
def helpName : String := "help"

def child? (l : Level) (s : String) : Option Level := l.children.lookup s

end Level

end UpdateVault.CommandLine
