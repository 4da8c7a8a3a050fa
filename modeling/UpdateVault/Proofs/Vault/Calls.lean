import UpdateVault.Proofs.Update
import UpdateVault.Proofs.Vault.Records

/-!
# Calls and their effects

A call that succeeds has its effect on one record, and a call that fails has none, but for keys of
which only the private one could be written. `leaves` says so of every call, on a storage that keeps
its items.
-/

namespace UpdateVault.Vault

/-- A call that changes a vault. -/
inductive Call
  | setKeys (k : KeyPair)
  | deleteKeys
  | setDeployment (data : Bytes)
  | deleteDeployment
  | saveCheckpoint (layout : CheckpointLayout) (c : Checkpoint)
  | deleteCheckpoint
  | setProvides (m : Provides)
  | deleteProvides
  | setArtifactName (name : String)
  | finishUpdate

section

variable {σ : Type} [ItemStorage σ]

def Call.run : Call → Update StorageError σ Unit
  | setKeys k => Vault.setKeys k
  | deleteKeys => Vault.deleteKeys
  | setDeployment data => Vault.setDeployment data
  | deleteDeployment => Vault.deleteDeployment
  | saveCheckpoint layout c => Vault.saveCheckpoint layout c
  | deleteCheckpoint => Vault.deleteCheckpoint
  | setProvides m => Vault.setProvides m
  | deleteProvides => Vault.deleteProvides
  | setArtifactName name => Vault.setArtifactName name
  | finishUpdate => Vault.finishUpdate

/-- What a call that succeeds does to the records. -/
def Call.effect : Call → Records → Records
  | setKeys k, r => { r with privateKey := some k.privateKey, publicKey := some k.publicKey }
  | deleteKeys, r => { r with privateKey := none, publicKey := none }
  | setDeployment data, r => { r with deployment := some data }
  | deleteDeployment, r => { r with deployment := none }
  | saveCheckpoint layout c, r => { r with checkpoint := some (layout, c) }
  | deleteCheckpoint, r => { r with checkpoint := none }
  | setProvides m, r => { r with provides := if m.isEmpty then none else some m }
  | deleteProvides, r => { r with provides := none }
  | setArtifactName name, r => { r with artifactName := some name }
  | finishUpdate, r => { r with checkpoint := none, deployment := none }

/-- What a call that fails does to the records: nothing, unless it wrote the first of two keys. -/
def Call.failure (s : σ) : Call → Records → Records
  | setKeys k, r =>
    if k.privateKey.isEmpty || k.publicKey.isEmpty then r
    else match Vault.write .privateKey k.privateKey s with
      | .ok () _ => { r with privateKey := some k.privateKey }
      | .error _ _ => r
  | _, r => r

end

variable {σ : Type} [ItemStorage σ] {reopen : σ → Except StorageError σ}
  {K : KeptItems σ reopen} {s : σ}

/-! ## What calls leave -/

theorem setKeys_eq (k : KeyPair) :
    (Vault.setKeys k : Update StorageError σ Unit) =
      if k.privateKey.isEmpty || k.publicKey.isEmpty then throw (.invalidInput .emptyKeys)
      else Vault.write .privateKey k.privateKey >>= fun _ =>
        Vault.write .publicKey k.publicKey := by
  unfold Vault.setKeys
  split
  · rfl
  · rfl

/-- What a call leaves in the storage: what it is to leave if it succeeds, and what was there if
it fails, or a private key on its own. -/
structure Leaves (K : KeptItems σ reopen) (call : Call) (s : σ) : Prop where
  ok : ∀ {s'}, call.run s = .ok () s' → K.Valid s' ∧
    ∀ {r}, Held r (K.stored? s) → Held (call.effect r) (K.stored? s')
  error : ∀ {e s'}, call.run s = .error e s' → K.Valid s' ∧
    ∀ {r}, Held r (K.stored? s) → Held (call.failure s r) (K.stored? s')

section

variable {call : Call} {item : Item} {s' : σ}

theorem leaves_of_ok (hrun : call.run s = .ok () s') (hs' : K.Valid s')
    (heffect : ∀ {r}, Held r (K.stored? s) → Held (call.effect r) (K.stored? s')) :
    Leaves K call s := by
  constructor
  · intro t hok
    rw [hrun] at hok
    cases hok
    exact ⟨hs', heffect⟩
  · intro e t herror
    rw [hrun] at herror
    cases herror

theorem leaves_of_error {e : StorageError} (hrun : call.run s = .error e s') (hs' : K.Valid s')
    (hfailure : ∀ {r}, Held r (K.stored? s) → Held (call.failure s r) (K.stored? s')) :
    Leaves K call s := by
  constructor
  · intro t hok
    rw [hrun] at hok
    cases hok
  · intro e' t herror
    rw [hrun] at herror
    cases herror
    exact ⟨hs', hfailure⟩

theorem leaves_of_refusal (hs : K.Valid s) (hfailure : ∀ {r}, call.failure s r = r)
    {e : StorageError} (hrun : call.run s = .error e s) : Leaves K call s :=
  leaves_of_error hrun hs fun h => hfailure ▸ h

theorem leaves_of_write (hs : K.Valid s) (hfailure : ∀ {r}, call.failure s r = r)
    {bytes : Bytes} (hrun : call.run s = Vault.write item bytes s)
    (heffect : ∀ {r}, Held r (K.stored? s) →
      Held (call.effect r) (Function.update (K.stored? s) item (some bytes))) :
    Leaves K call s := by
  rcases K.write_cases item bytes hs with ⟨t, ht, hvalid, hstored⟩ | ⟨e, t, ht, hvalid, hstored⟩
  · exact leaves_of_ok (hrun.trans ht) hvalid fun h => hstored ▸ heffect h
  · exact leaves_of_error (hrun.trans ht) hvalid fun h => by rwa [hfailure, hstored]

theorem leaves_of_delete (hs : K.Valid s) (hrun : call.run s = Vault.delete item s)
    (heffect : ∀ {r}, Held r (K.stored? s) →
      Held (call.effect r) (Function.update (K.stored? s) item none)) :
    Leaves K call s := by
  obtain ⟨t, ht, hvalid, hstored⟩ := K.delete_eq item hs
  exact leaves_of_ok (hrun.trans ht) hvalid fun h => hstored ▸ heffect h

end

theorem leaves_setKeys (hs : K.Valid s) (k : KeyPair) : Leaves K (.setKeys k) s := by
  have hrun : Call.run (.setKeys k) s = Vault.setKeys k s := rfl
  rw [setKeys_eq] at hrun
  by_cases hempty : (k.privateKey.isEmpty || k.publicKey.isEmpty) = true
  · rw [if_pos hempty] at hrun
    exact leaves_of_refusal hs (if_pos hempty) hrun
  rw [if_neg hempty] at hrun
  have hne : k.privateKey ≠ [] ∧ k.publicKey ≠ [] := by
    simpa only [Bool.or_eq_true, List.isEmpty_iff, not_or] using hempty
  rcases K.write_cases .privateKey k.privateKey hs with
    ⟨t, hprivate, ht, hstored⟩ | ⟨e, t, hprivate, ht, hstored⟩
  · rw [Update.bind_ok hprivate] at hrun
    rcases K.write_cases .publicKey k.publicKey ht with
      ⟨u, hpublic, hu, hstored'⟩ | ⟨e, u, hpublic, hu, hstored'⟩
    · refine leaves_of_ok (hrun.trans hpublic) hu fun h => ?_
      rw [hstored', hstored]
      exact ⟨.present rfl hne.1, .present rfl hne.2, h.deployment, h.checkpoint, h.provides,
        h.artifactName⟩
    · -- the private key is written, and it is all that changes
      refine leaves_of_error (hrun.trans hpublic) hu fun {r} h => ?_
      have hfailure : Call.failure s (.setKeys k) r
          = { r with privateKey := some k.privateKey } := by
        simp only [Call.failure, hempty, hprivate]
        rfl
      rw [hstored', hstored, hfailure]
      exact ⟨.present rfl hne.1, h.publicKey, h.deployment, h.checkpoint, h.provides,
        h.artifactName⟩
  · rw [Update.bind_error hprivate] at hrun
    refine leaves_of_error hrun ht fun {r} h => ?_
    have hfailure : Call.failure s (.setKeys k) r = r := by
      simp only [Call.failure, hempty, hprivate, ite_self]
    rwa [hfailure, hstored]

theorem leaves_deleteKeys (hs : K.Valid s) : Leaves K .deleteKeys s := by
  obtain ⟨t, hprivate, ht, hstored⟩ := K.delete_eq .privateKey hs
  obtain ⟨u, hpublic, hu, hstored'⟩ := K.delete_eq .publicKey ht
  have hrun : Call.run .deleteKeys s = .ok () u := by
    simp only [Call.run, Vault.deleteKeys, hprivate, hpublic]
  refine leaves_of_ok hrun hu fun h => ?_
  rw [hstored', hstored]
  exact ⟨.absent, .absent, h.deployment, h.checkpoint, h.provides, h.artifactName⟩

theorem leaves_finishUpdate (hs : K.Valid s) : Leaves K .finishUpdate s := by
  obtain ⟨t, hcheckpoint, ht, hstored⟩ := K.delete_eq .checkpoint hs
  obtain ⟨u, hdeployment, hu, hstored'⟩ := K.delete_eq .deployment ht
  have hrun : Call.run .finishUpdate s = .ok () u := (Update.bind_ok hcheckpoint).trans hdeployment
  refine leaves_of_ok hrun hu fun h => ?_
  rw [hstored', hstored]
  exact ⟨h.privateKey, h.publicKey, .absent, .absent, h.provides, h.artifactName⟩

theorem leaves_setDeployment (hs : K.Valid s) (data : Bytes) :
    Leaves K (.setDeployment data) s := by
  cases data with
  | nil => exact leaves_of_refusal hs rfl rfl
  | cons b rest =>
    exact leaves_of_write hs rfl rfl fun h => ⟨h.privateKey, h.publicKey,
      .present rfl (List.cons_ne_nil _ _), h.checkpoint, h.provides, h.artifactName⟩

theorem leaves_saveCheckpoint (hs : K.Valid s) (layout : CheckpointLayout) (c : Checkpoint) :
    Leaves K (.saveCheckpoint layout c) s := by
  cases hencode : c.encode? layout with
  | none =>
    have hrun : Call.run (.saveCheckpoint layout c) s
        = .error (.invalidInput (.shortArtifactType c.artifactType)) s := by
      simp only [Call.run, Vault.saveCheckpoint, checkpointBytes, hencode]
      rfl
    exact leaves_of_refusal hs rfl hrun
  | some bytes =>
    have hrun : Call.run (.saveCheckpoint layout c) s = Vault.write .checkpoint bytes s := by
      simp only [Call.run, Vault.saveCheckpoint, checkpointBytes, hencode]
    exact leaves_of_write hs rfl hrun fun h => ⟨h.privateKey, h.publicKey, h.deployment,
      .present hencode (Checkpoint.ne_nil_of_encode? hencode), h.provides, h.artifactName⟩

/-- Text that is not empty has bytes. -/
theorem encode_ne_nil {text : String} (h : text.isEmpty = false) : Utf8.encode text ≠ [] := by
  intro hnil
  have hempty : Utf8.decode? [] = some text := hnil ▸ Utf8.decode?_encode text
  have : text = "" := Option.some.inj (hempty.symm.trans (Utf8.decode?_encode ""))
  rw [this] at h
  exact absurd h (by decide)

/-! ## Setting texts -/

theorem setProvides_of_error {p : Provides} {f : Provides.Fault} (h : p.encode = .error f)
    (s : σ) : Vault.setProvides p s = .error (.codec (.provides f)) s := by
  simp only [Vault.setProvides, providesText, h]
  rfl

/-- For capabilities that can be written the storage is asked for one change. -/
theorem setProvides_of_encode {p : Provides} {text : String} (h : p.encode = .ok text) (s : σ) :
    Vault.setProvides p s = if p.isEmpty then Vault.delete .provides s
      else Vault.write .provides (Utf8.encode text) s := by
  simp only [Vault.setProvides, providesText, h, Except.mapError, Provides.isEmpty_text h]
  split <;> rfl

theorem setArtifactName_eq (name : String) (s : σ) :
    Vault.setArtifactName name s
      = if name.isEmpty then .error (.invalidInput .emptyArtifactName) s
        else Vault.write .artifactName (Utf8.encode name) s := by
  rw [Vault.setArtifactName]
  split <;> rfl

theorem leaves_setProvides (hs : K.Valid s) (p : Provides) : Leaves K (.setProvides p) s := by
  cases hencode : p.encode with
  | error f => exact leaves_of_refusal hs rfl (setProvides_of_error hencode s)
  | ok text =>
    have hrun : Call.run (.setProvides p) s = _ := setProvides_of_encode hencode s
    have htext := Provides.isEmpty_text hencode
    cases hempty : p.isEmpty with
    | true =>
      rw [if_pos hempty] at hrun
      refine leaves_of_delete hs hrun fun h => ?_
      rw [Call.effect, if_pos hempty]
      exact ⟨h.privateKey, h.publicKey, h.deployment, h.checkpoint, .absent, h.artifactName⟩
    | false =>
      have hne : ¬ p.isEmpty = true := by rw [hempty]; nofun
      rw [if_neg hne] at hrun
      refine leaves_of_write hs rfl hrun fun h => ?_
      rw [Call.effect, if_neg hne]
      exact ⟨h.privateKey, h.publicKey, h.deployment, h.checkpoint,
        .present (by rw [hencode]; rfl) (encode_ne_nil (htext.trans hempty)), h.artifactName⟩

theorem leaves_setArtifactName (hs : K.Valid s) (name : String) :
    Leaves K (.setArtifactName name) s := by
  have hrun : Call.run (.setArtifactName name) s = _ := setArtifactName_eq name s
  cases hempty : name.isEmpty with
  | true =>
    rw [if_pos hempty] at hrun
    exact leaves_of_refusal hs rfl hrun
  | false =>
    rw [if_neg (by rw [hempty]; nofun)] at hrun
    exact leaves_of_write hs rfl hrun fun h => ⟨h.privateKey, h.publicKey, h.deployment,
      h.checkpoint, h.provides, .present rfl (encode_ne_nil hempty)⟩

theorem leaves (hs : K.Valid s) (call : Call) : Leaves K call s := by
  cases call with
  | setKeys k => exact leaves_setKeys hs k
  | deleteKeys => exact leaves_deleteKeys hs
  | setDeployment data => exact leaves_setDeployment hs data
  | deleteDeployment =>
    exact leaves_of_delete hs rfl fun h =>
      ⟨h.privateKey, h.publicKey, .absent, h.checkpoint, h.provides, h.artifactName⟩
  | saveCheckpoint layout c => exact leaves_saveCheckpoint hs layout c
  | deleteCheckpoint =>
    exact leaves_of_delete hs rfl fun h =>
      ⟨h.privateKey, h.publicKey, h.deployment, .absent, h.provides, h.artifactName⟩
  | setProvides p => exact leaves_setProvides hs p
  | deleteProvides =>
    exact leaves_of_delete hs rfl fun h =>
      ⟨h.privateKey, h.publicKey, h.deployment, h.checkpoint, .absent, h.artifactName⟩
  | setArtifactName name => exact leaves_setArtifactName hs name
  | finishUpdate => exact leaves_finishUpdate hs

end UpdateVault.Vault
