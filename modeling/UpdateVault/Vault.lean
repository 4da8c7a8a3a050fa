import UpdateVault.KeyPair
import UpdateVault.Storage.Basic

/-!
A vault: the five records an update client keeps across restarts, on any storage of
items.

Every look-up tells a record that is absent (`notFound`: there is nothing to resume) from
one that is there but cannot be used (any other error: do not trust it). Nothing is tried
a second time.
-/

namespace UpdateVault.Vault

variable {σ : Type} [ItemStorage σ]

def write (item : Item) (data : Bytes) : Update StorageError σ Unit :=
  ItemStorage.write item.name data

def read (s : σ) (item : Item) : Except StorageError Bytes :=
  ItemStorage.read s item.name

/-- Deletes an item; one that is absent counts as deleted. -/
def delete (item : Item) : Update StorageError σ Unit := fun s =>
  match ItemStorage.delete item.name s with
  | .ok () s' => .ok () s'
  | .error e s' => if e.isAbsence then .ok () s' else .error e s'

/-! ## Authentication keys -/

/-- Stores both keys, the private one first. After an error the keys are in an unknown
state, and the whole call has to be tried again. -/
def setKeys (k : KeyPair) : Update StorageError σ Unit := do
  if k.privateKey.isEmpty || k.publicKey.isEmpty then throw (.invalidInput .emptyKeys)
  -- a private key on its own reads as no key pair
  write .privateKey k.privateKey
  write .publicKey k.publicKey

/-- The key pair; a private key on its own is not one. -/
def keys (s : σ) : Except StorageError KeyPair := do
  let privateKey ← read s .privateKey
  let publicKey ← read s .publicKey
  return { privateKey, publicKey }

/-- Deletes both keys. Both deletions are tried; of two errors the first one is reported. -/
def deleteKeys : Update StorageError σ Unit := fun s =>
  match delete .privateKey s with
  | .ok () s' => delete .publicKey s'
  | .error e s' => match delete .publicKey s' with
    | .ok () s'' => .error e s''
    | .error _ s'' => .error e s''

/-! ## Deployment data -/

/-- Stores deployment data, which may not be empty. -/
def setDeployment (data : Bytes) : Update StorageError σ Unit := do
  if data.isEmpty then throw (.invalidInput .emptyDeployment)
  write .deployment data

def deployment (s : σ) : Except StorageError Bytes := read s .deployment

def deleteDeployment : Update StorageError σ Unit := delete .deployment

/-! ## Checkpoint -/

def checkpointBytes (layout : CheckpointLayout) (c : Checkpoint) : Except StorageError Bytes :=
  match c.encode? layout with
  | some bytes => .ok bytes
  | none => .error (.invalidInput (.shortArtifactType c.artifactType))

def checkpointOf (bytes : Bytes) : Except StorageError Checkpoint :=
  (Checkpoint.decode bytes).mapError .corrupt

/-- Stores phase and artifact type as one record. -/
def saveCheckpoint (layout : CheckpointLayout) (c : Checkpoint) : Update StorageError σ Unit :=
  match checkpointBytes layout c with
  | .ok bytes => write .checkpoint bytes
  | .error e => throw e

def checkpoint (s : σ) : Except StorageError Checkpoint := do
  checkpointOf (← read s .checkpoint)

def deleteCheckpoint : Update StorageError σ Unit := delete .checkpoint

/-! ## Provides -/

def providesText (m : Provides) : Except StorageError String :=
  m.encode.mapError fun f => .codec (.provides f)

def providesOf (policy : RepeatPolicy) (text : String) : Except StorageError Provides :=
  (Provides.decode policy text).mapError fun f => .codec (.provides f)

def deleteProvides : Update StorageError σ Unit := delete .provides

/-- Replaces the capabilities; a map without any deletes the record. -/
def setProvides (m : Provides) : Update StorageError σ Unit :=
  match providesText m with
  | .error e => throw e
  | .ok text => if text.isEmpty then deleteProvides else write .provides (Utf8.encode text)

/-- The capabilities; NUL characters at the end of the text do not count. -/
def provides (policy : RepeatPolicy) (s : σ) : Except StorageError Provides := do
  match Utf8.decode? (← read s .provides) with
  | none => throw (.codec (.provides .notUtf8))
  | some text => providesOf policy (Text.withoutTerminator text)

/-! ## Artifact name -/

/-- The name of an artifact when none was ever stored. -/
def unknownArtifact : String := "unknown"

/-- Stores the name of the installed artifact, which may not be empty. -/
def setArtifactName (name : String) : Update StorageError σ Unit := do
  if name.isEmpty then throw (.invalidInput .emptyArtifactName)
  write .artifactName (Utf8.encode name)

/-- The name of the installed artifact; NUL characters at its end do not count. -/
def artifactName (s : σ) : Except StorageError String :=
  match read s .artifactName with
  | .ok bytes => match Utf8.decode? bytes with
    | some name => .ok (Text.withoutTerminator name)
    | none => .error (.codec .artifactNameNotUtf8)
  | .error e => if e.isAbsence then .ok unknownArtifact else .error e

end UpdateVault.Vault
