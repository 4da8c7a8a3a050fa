import UpdateVault.Config.Text
import UpdateVault.Disk.Change

/-!
The configuration file of a storage root.

Writing takes any configuration; reading refuses one that does not meet the conditions.
-/

namespace UpdateVault.Config

/-- Why there is no configuration to be had from a file, or none could be written. -/
inductive FileError
  | notFound (path : Path)
  | io (cause : IoError)
  | unreadable (fault : Json.Fault)
  | invalid (violation : Violation)
  deriving DecidableEq, Repr

/-- What a fault says about the text of a configuration. -/
def faultText : Json.Fault → String
  | .malformed => "the text is not JSON"
  | .truncated => "the text ends too early"
  | .mismatched => "a field does not hold what it should"

def FileError.message : FileError → String
  | notFound path => "Config file not found: " ++ path.text
  | io cause => "Failed to read config: " ++ cause.message
  | unreadable fault => "Invalid config format: " ++ faultText fault
  | invalid violation => "Invalid config: " ++ violation.message

def filePath (dir : Path) : Path := dir.join ⟨fileName⟩

def check (text : String) : Except FileError Config := do
  let c ← (ofText text).mapError .unreadable
  match c.violation? with
  | some v => throw (.invalid v)
  | none => return c

def load (dir : Path) (d : Disk) : Except FileError Config :=
  let path := filePath dir
  if d.exists path then
    match d.readText path with
    | .error e => .error (.io e)
    | .ok text => check text
  else .error (.notFound path)

/-- Keeps a configuration in a directory, which is made if it is missing. -/
def save (c : Config) (dir : Path) : Update FileError Disk Unit := fun d =>
  match Disk.makePath dir d with
  | .error e d => .error (.io e) d
  | .ok () d =>
    match Disk.writeFile (filePath dir) (Utf8.encode c.text) d with
    | .error e d => .error (.io e) d
    | .ok () d => .ok () d

end UpdateVault.Config
