import UpdateVault.CommandLine.Parse
import UpdateVault.CommandLine.Run

/-!
The whole program: from arguments, environment and disk to output, exit code and disk.
-/

namespace UpdateVault.CommandLine

def programName : String := "ota-state"

def programVersion : String := "0.2.5"

/-- What the program takes from its surroundings. -/
structure Environment where
  home : Option String := none
  /-- Where a user's data is kept. -/
  dataHome : Option String := none
  colour : Option String := none
  noColour : Option String := none
  forceColour : Option String := none
  /-- Whether the output goes to a terminal. -/
  isTerminal : Bool := false

namespace Environment

/-- Whether output is coloured. Colour that is forced wins over colour that is refused; else
a terminal decides. A variable with the value `0` is set, but reads no. -/
def isColoured (e : Environment) : Bool :=
  let reads (v : Option String) : Option Bool := v.map (· != "0")
  if reads e.forceColour = some true then true
  else if e.noColour.isSome then false
  else (reads e.colour).getD true && e.isTerminal

/-- The directory for a user's data. -/
def dataDirectory (e : Environment) : Path :=
  match e.dataHome.map Path.mk, e.home.map Path.mk with
  | some p, home? =>
    if p.isAbsolute then p else (home?.map (·.join ⟨".local/share"⟩)).getD ⟨"."⟩
  | none, some home => home.join ⟨".local/share"⟩
  | none, none => ⟨"."⟩

/-- The root that is used when none is given. -/
def defaultRoot (e : Environment) : Path := e.dataDirectory.join ⟨programName⟩

end Environment

/-- What a run of the program leaves. -/
structure Outcome where
  disk : Disk
  code : Nat
  output : String := ""
  errors : String := ""

def UsageError.message : UsageError → String
  | invalidValue => "invalid value"
  | unknownPhase => "unknown update state"
  | unknownArgument => "unexpected argument"
  | unknownCommand => "unrecognized subcommand"
  | missingArgument => "a required argument is missing"
  | missingCommand => "a subcommand is required"
  | repeatedOption => "an argument cannot be used more than once"
  | needlessValue => "a value for an argument that takes none"
  | help | nothingGiven => "Usage: " ++ programName ++ " [OPTIONS] <COMMAND>"
  | version => programName ++ " " ++ programVersion

/-- The outcome of a command line that asks for no command. Help and version are results;
anything else is a failure. -/
def UsageError.outcome (e : UsageError) (d : Disk) : Outcome :=
  match e with
  | help | version => { disk := d, code := 0, output := e.message ++ "\n" }
  | _ => { disk := d, code := 2, errors := e.message ++ "\n" }

/-- The files that a command reads by their paths. -/
def Command.files : Command → List Path
  | setKeys privateKey publicKey => [privateKey, publicKey]
  | setDeployment file => [file]
  | _ => []

def Invocation.rootIn (i : Invocation) (e : Environment) : Path := i.root.getD e.defaultRoot

/-- Carries out what a command line asks for. -/
def Invocation.run (i : Invocation) (e : Environment) (d : Disk) : Outcome :=
  let root := i.rootIn e
  let colour := e.isColoured
  let warned (s : Desk) : List Line := s.warnings.map .warning
  match i.command.run i.format root { disk := d } with
  | .ok lines s =>
    { disk := s.disk, code := 0, output := renderLines colour lines
      errors := renderLines colour (warned s) }
  | .error f s =>
    { disk := s.disk, code := 1, errors := renderLines colour (warned s ++ [.error f.message]) }

def run (e : Environment) (arguments : List String) (d : Disk) : Outcome :=
  match parse arguments with
  | .error u => u.outcome d
  | .ok i => i.run e d

end UpdateVault.CommandLine
