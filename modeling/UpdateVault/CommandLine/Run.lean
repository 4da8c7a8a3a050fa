import UpdateVault.Boot
import UpdateVault.CommandLine.Grammar
import UpdateVault.CommandLine.Output
import UpdateVault.Config.File
import UpdateVault.Json.Parse
import UpdateVault.Json.Records
import UpdateVault.Storage.Selected

/-!
The commands, as changes of a disk.

A command opens the vault at its root with the configuration that is kept there, or with the
default one, and reads or changes one record. What it prints is a list of lines; a command
that fails prints no results.
-/

namespace UpdateVault.CommandLine

/-! ## Failures -/

/-- Why a command fails. -/
inductive Failure
  | configExists (root : Path)
  /-- The configuration cannot be read. -/
  | loading (root : Path) (cause : Config.FileError)
  /-- The configuration cannot be written. -/
  | saving (cause : Config.FileError)
  /-- The vault cannot be opened for a command. -/
  | opening (kind : StorageKind) (root : Path) (cause : StorageError)
  | storage (cause : StorageError)
  /-- A file that the command was given cannot be read. -/
  | reading (path : Path) (cause : IoError)
  | notAPair (text : String)
  deriving DecidableEq, Repr

/-- A failure of the storage with what caused it, which is told again at the end. -/
def storageText (e : StorageError) : String :=
  match e with
  | .io cause => e.message ++ ": " ++ cause.message
  | _ => e.message

/-- A failure with a configuration and what caused it, which is told again at the end. -/
def configText (e : Config.FileError) : String :=
  match e with
  | .io cause => e.message ++ ": " ++ cause.message
  | .unreadable fault => e.message ++ ": " ++ Config.faultText fault
  | _ => e.message

def Failure.message : Failure → String
  | configExists root =>
    Config.fileName ++ " already exists in " ++ root.text ++ " (use --force to overwrite)"
  | loading root cause => "loading config from " ++ root.text ++ ": " ++ configText cause
  | saving cause => configText cause
  | opening kind root cause =>
    "opening " ++ kind.label ++ " store at " ++ root.text ++ ": " ++ storageText cause
  | storage cause => storageText cause
  | reading path cause => "reading " ++ path.text ++ ": " ++ cause.message
  | notAPair text => "expected key=value, got '" ++ text ++ "'"

/-! ## Steps -/

/-- What a command works on: the disk, and the warnings it has given. -/
structure Desk where
  disk : Disk
  warnings : List String := []

/-- A step of a command. -/
abbrev Step (α : Type) := Update Failure Desk α

/-- A change of the disk as a step. -/
def onDisk {ε α : Type} (failure : ε → Failure) (change : Update ε Disk α) : Step α :=
  fun s =>
  match change s.disk with
  | .ok a disk => .ok a { s with disk }
  | .error e disk => .error (failure e) { s with disk }

/-- What was looked up. -/
def expect {ε α : Type} (failure : ε → Failure) : Except ε α → Step α
  | .ok a => pure a
  | .error e => throw (failure e)

/-- What was looked up in a storage, if it is there. -/
def ifPresent {α : Type} : Except StorageError α → Step (Option α)
  | .ok a => pure (some a)
  | .error e => if e.isAbsence then pure none else throw (.storage e)

/-- A change of a storage, which leaves its disk. -/
def change (s : SelectedStorage) (u : Update StorageError SelectedStorage Unit) : Step Unit :=
  fun t =>
  match u s with
  | .ok () s => .ok () { t with disk := s.disk }
  | .error e s => .error (.storage e) { t with disk := s.disk }

/-- The content of a file that a command was given. -/
def readFile (path : Path) : Step Bytes := do
  expect (.reading path) ((← get).disk.readFile path)

/-- The configuration of a root; the default one if none is kept there. -/
def configOf (root : Path) (d : Disk) : Except Failure Config :=
  match Config.load root d with
  | .ok c => .ok c
  | .error (.notFound _) => .ok { root := root }
  | .error e => .error (.loading root e)

def openStorage (root : Path) : Step (Config × SelectedStorage) := do
  let c ← expect id (configOf root (← get).disk)
  let s ← onDisk (.opening c.backend root) (SelectedStorage.open c)
  return (c, s)

/-! ## Results -/

/-- The lines of a result: JSON, or lines for a reader. -/
def result (format : ResultFormat) (json : List (String × Json.Value)) (lines : List Line) :
    List Line :=
  match format with
  | .json => [.ofJson (.object json)]
  | .text => lines

def deleted (format : ResultFormat) (items : List Item) : List Line :=
  result format
    [("success", .bool true), ("deleted", .array (items.map fun i => .string i.name))]
    (items.map fun i => .success ("Deleted " ++ i.name))

def checkpointText (c : Checkpoint) : String := c.phase.name ++ " (" ++ c.artifactType ++ ")"

def decisionText : BootDecision → String
  | .freshStart => "fresh start"
  | .resume c => "resume from " ++ c.phase.name
  | .rollback reason => "rollback (" ++ reason ++ ")"

def pairText (e : String × String) : String := e.1 ++ "=" ++ e.2

/-- All records of a vault, as they are shown together. -/
structure Overview where
  root : Path
  backend : StorageKind
  artifactName : String
  /-- The checkpoint, or why it cannot be read. -/
  checkpoint : Except StorageError (Option Checkpoint)
  action : BootDecision
  keys : Option KeyPair
  deployment : Option Bytes
  provides : Provides

namespace Overview

/-- The checkpoint of an overview, if it can be read. -/
def checkpoint? (o : Overview) : Option Checkpoint :=
  match o.checkpoint with
  | .ok c => c
  | .error _ => none

def keysJson (k : KeyPair) : Json.Value :=
  .object [("private_key_len", .natural k.privateKey.length),
    ("public_key_fingerprint", .string (Digest.fingerprint k.publicKey))]

def json (o : Overview) : List (String × Json.Value) :=
  [("storage_root", .string o.root.text), ("backend", .string o.backend.name),
    ("artifact_name", .string o.artifactName),
    ("update_state", .ofOption Checkpoint.toJson o.checkpoint?),
    ("boot_action", o.action.toJson), ("keys", .ofOption keysJson o.keys),
    ("deployment_data_len", .ofOption (fun b : Bytes => .natural b.length) o.deployment),
    ("provides", o.provides.toJson)]

def checkpointLine (o : Overview) : String :=
  match o.checkpoint with
  | .ok (some c) => checkpointText c
  | .ok none => "(none)"
  | .error e => "unreadable: " ++ e.message

/-- What is shown for the keys, of which the private one leaves no trace. -/
def keysLine (o : Overview) : String :=
  match o.keys with
  | some k => "present, public " ++ Digest.fingerprint k.publicKey
  | none => "(none)"

/-- A line for every capability, below the line of their label. -/
def providesLines (o : Overview) : List Line :=
  if o.provides.isEmpty then [.labelled "Provides" "(none)"]
  else .labelled "Provides" "" :: o.provides.toList.map fun e => .item (pairText e)

def lines (o : Overview) : List Line :=
  [.heading "Update Store Status", .labelled "Root" o.root.text,
    .labelled "Backend" o.backend.label, .labelled "Artifact" o.artifactName,
    .labelled "State" o.checkpointLine, .labelled "On boot" (decisionText o.action),
    .labelled "Keys" o.keysLine,
    .labelled "Deployment" (lengthText (o.deployment.map List.length))] ++ o.providesLines

end Overview

/-! ## Commands -/

/-- Writes the default configuration into a root and opens the vault, which makes what is
missing of its storage. -/
def setUp (format : ResultFormat) (root : Path) (backend : StorageKind) (force : Bool) :
    Step (List Line) := do
  if (← get).disk.exists (Config.filePath root) && !force then throw (.configExists root)
  let c : Config := { root := root, backend }
  -- the configuration stays where it is when the vault cannot be opened
  onDisk .saving (Config.save c root)
  discard (onDisk .storage (SelectedStorage.open c))
  return result format
    [("success", .bool true), ("storage_root", .string root.text), ("config", c.toJson)]
    [.success ("Initialized " ++ backend.label ++ " store"), .labelled "Root" root.text]

/-- Shows all records and what would be done after a restart. A checkpoint that cannot be
read is part of the overview. -/
def status (format : ResultFormat) (root : Path) : Step (List Line) := do
  let c ← expect id (configOf root (← get).disk)
  let s ← onDisk .storage (SelectedStorage.open c)
  let artifactName ← expect .storage (Vault.artifactName s)
  let checkpoint := match Vault.checkpoint s with
    | .ok c => .ok (some c)
    | .error e => if e.isAbsence then .ok none else .error e
  let action ← expect .storage (Vault.bootDecision s)
  -- these three may be absent, and any other error ends the overview
  let keys ← ifPresent (Vault.keys s)
  let deployment ← ifPresent (Vault.deployment s)
  let provides ← ifPresent (Vault.provides c.duplicates s)
  let o : Overview := {
    root, backend := c.backend, artifactName, checkpoint, action, keys, deployment
    provides := provides.getD .empty }
  return result format o.json o.lines

def setKeys (format : ResultFormat) (root privateFile publicFile : Path) : Step (List Line) := do
  let (_, s) ← openStorage root
  let privateKey ← readFile privateFile
  let publicKey ← readFile publicFile
  change s (Vault.setKeys { privateKey, publicKey })
  let mark := Digest.fingerprint publicKey
  return result format [("success", .bool true), ("public_key_fingerprint", .string mark)]
    [.success "Stored authentication keys", .labelled "Public key" mark]

/-- Shows the lengths of the keys and the fingerprint of the public one. -/
def showKeys (format : ResultFormat) (root : Path) : Step (List Line) := do
  let (_, s) ← openStorage root
  let keys ← ifPresent (Vault.keys s)
  let mark (k : KeyPair) : String := Digest.fingerprint k.publicKey
  return result format
    [("present", .bool keys.isSome),
      ("private_key_len", .ofOption (fun k : KeyPair => .natural k.privateKey.length) keys),
      ("public_key_len", .ofOption (fun k : KeyPair => .natural k.publicKey.length) keys),
      ("public_key_fingerprint", .ofOption (fun k => .string (mark k)) keys)]
    (match keys with
      | some k =>
        [.heading "Authentication Keys",
          .labelled "Private key" (lengthText (some k.privateKey.length)),
          .labelled "Public key" (lengthText (some k.publicKey.length)),
          .labelled "Fingerprint" (mark k)]
      | none => [.info "No authentication keys stored"])

def deleteKeys (format : ResultFormat) (root : Path) : Step (List Line) := do
  let (_, s) ← openStorage root
  change s Vault.deleteKeys
  return deleted format [.privateKey, .publicKey]

def setDeployment (format : ResultFormat) (root file : Path) : Step (List Line) := do
  let (_, s) ← openStorage root
  let data ← readFile file
  change s (Vault.setDeployment data)
  return result format [("success", .bool true), ("len", .natural data.length)]
    [.success s!"Stored deployment data ({data.length} bytes)"]

/-- Deployment data as JSON: the value it is the text of, or that text. -/
def deploymentJson (data : Bytes) : Json.Value :=
  ((Utf8.decode? data).bind Json.Value.ofText?).getD (.string (Utf8.decodeLossy data))

def getDeployment (format : ResultFormat) (root : Path) : Step (List Line) := do
  let (_, s) ← openStorage root
  let data ← ifPresent (Vault.deployment s)
  return result format [("deployment_data", .ofOption deploymentJson data)]
    (match data with
      | some data => [.plain (Utf8.decodeLossy data)]
      | none => [.info "No deployment data stored"])

def deleteDeployment (format : ResultFormat) (root : Path) : Step (List Line) := do
  let (_, s) ← openStorage root
  change s Vault.deleteDeployment
  return deleted format [.deployment]

/-- Stores a checkpoint in the layout of the configuration. -/
def saveState (format : ResultFormat) (root : Path) (c : Checkpoint) : Step (List Line) := do
  let (config, s) ← openStorage root
  change s (Vault.saveCheckpoint config.layout c)
  return result format
    [("success", .bool true), ("state", c.phase.toJson), ("artifact_type", .string c.artifactType)]
    [.success ("Saved state " ++ checkpointText c)]

def getState (format : ResultFormat) (root : Path) : Step (List Line) := do
  let (_, s) ← openStorage root
  let c ← ifPresent (Vault.checkpoint s)
  return result format [("update_state", .ofOption Checkpoint.toJson c)]
    (match c with
      | some c =>
        [.labelled "State" s!"{c.phase.name} ({c.phase.value})",
          .labelled "Artifact type" c.artifactType]
      | none => [.info "No update in progress"])

def deleteState (format : ResultFormat) (root : Path) : Step (List Line) := do
  let (_, s) ← openStorage root
  change s Vault.deleteCheckpoint
  return deleted format [.checkpoint]

/-- The map of pairs `key=value`; a key that comes again takes its last value, with a
warning. -/
def collectPairs : List String → Provides → Step Provides
  | [], m => pure m
  | text :: rest, m => do
    match Text.splitPair text.toList with
    | none => throw (.notAPair text)
    | some (key, value) =>
      if m.contains key then
        modify fun s => { s with
          warnings := s.warnings ++ ["Duplicate key " ++ key ++ ", keeping the last value"] }
      collectPairs rest (m.insert key value)

/-- Replaces the capabilities by those of pairs `key=value`. -/
def setProvides (format : ResultFormat) (root : Path) (pairs : List String) : Step (List Line) := do
  let (_, s) ← openStorage root
  let m ← collectPairs pairs .empty
  change s (Vault.setProvides m)
  return result format [("success", .bool true), ("provides", m.toJson)]
    [.success s!"Stored {m.size} provides"]

def getProvides (format : ResultFormat) (root : Path) : Step (List Line) := do
  let (config, s) ← openStorage root
  let m := (← ifPresent (Vault.provides config.duplicates s)).getD .empty
  return result format [("provides", m.toJson)]
    (if m.isEmpty then [.info "No provides stored"]
      else m.toList.map fun e => .plain (pairText e))

def deleteProvides (format : ResultFormat) (root : Path) : Step (List Line) := do
  let (_, s) ← openStorage root
  change s Vault.deleteProvides
  return deleted format [.provides]

def setArtifactName (format : ResultFormat) (root : Path) (name : String) : Step (List Line) := do
  let (_, s) ← openStorage root
  change s (Vault.setArtifactName name)
  return result format [("success", .bool true), ("artifact_name", .string name)]
    [.success ("Artifact name set to " ++ name)]

def getArtifactName (format : ResultFormat) (root : Path) : Step (List Line) := do
  let (_, s) ← openStorage root
  let name ← expect .storage (Vault.artifactName s)
  return result format [("artifact_name", .string name)] [.plain name]

/-- Carries out a command on the vault at a root. -/
def Command.run (format : ResultFormat) (root : Path) : Command → Step (List Line)
  | init backend force => setUp format root backend force
  | status => CommandLine.status format root
  | setKeys privateKey publicKey => CommandLine.setKeys format root privateKey publicKey
  | showKeys => CommandLine.showKeys format root
  | deleteKeys => CommandLine.deleteKeys format root
  | setDeployment file => CommandLine.setDeployment format root file
  | getDeployment => CommandLine.getDeployment format root
  | deleteDeployment => CommandLine.deleteDeployment format root
  | saveState c => CommandLine.saveState format root c
  | getState => CommandLine.getState format root
  | deleteState => CommandLine.deleteState format root
  | setProvides pairs => CommandLine.setProvides format root pairs
  | getProvides => CommandLine.getProvides format root
  | deleteProvides => CommandLine.deleteProvides format root
  | setArtifactName name => CommandLine.setArtifactName format root name
  | getArtifactName => CommandLine.getArtifactName format root

end UpdateVault.CommandLine
