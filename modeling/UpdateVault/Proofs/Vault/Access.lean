import UpdateVault.Proofs.Vault.Calls

/-!
# The items behind a call

Each call is about a few items (`Call.items`). It refuses its argument, or it writes and deletes
those items one after the other up to the first failure (`Call.run_eq`); only the deletion of the
keys goes on after one. So a call keeps whatever the changes of its own items keep
(`Call.preserves`).
-/

namespace UpdateVault.Vault

/-- A change of one item. -/
inductive Access
  | write (item : Item) (data : Bytes)
  | delete (item : Item)

namespace Access

def item : Access → Item
  | write item _ => item
  | delete item => item

def run {σ : Type} [ItemStorage σ] : Access → Update StorageError σ Unit
  | write item data => Vault.write item data
  | delete item => Vault.delete item

end Access

section

variable {σ : Type} [ItemStorage σ]

/-- Makes changes one after the other, up to the first that fails. -/
def perform : List Access → Update StorageError σ Unit
  | [] => pure ()
  | access :: rest => access.run >>= fun _ => perform rest

end

namespace Call

/-- The items of the records that a call is about. -/
def items : Call → List Item
  | setKeys _ => [.privateKey, .publicKey]
  | deleteKeys => [.privateKey, .publicKey]
  | setDeployment _ => [.deployment]
  | deleteDeployment => [.deployment]
  | saveCheckpoint _ _ => [.checkpoint]
  | deleteCheckpoint => [.checkpoint]
  | setProvides _ => [.provides]
  | deleteProvides => [.provides]
  | setArtifactName _ => [.artifactName]
  | finishUpdate => [.checkpoint, .deployment]

/-- The changes that a call makes, in their order, unless it refuses its argument. -/
def plan : Call → Except StorageError (List Access)
  | setKeys k =>
    if k.privateKey.isEmpty || k.publicKey.isEmpty then .error (.invalidInput .emptyKeys)
    else .ok [.write .privateKey k.privateKey, .write .publicKey k.publicKey]
  | deleteKeys => .ok [.delete .privateKey, .delete .publicKey]
  | setDeployment data =>
    if data.isEmpty then .error (.invalidInput .emptyDeployment) else .ok [.write .deployment data]
  | deleteDeployment => .ok [.delete .deployment]
  | saveCheckpoint layout c =>
    (checkpointBytes layout c).map fun bytes => [.write .checkpoint bytes]
  | deleteCheckpoint => .ok [.delete .checkpoint]
  | setProvides m => (providesText m).map fun text =>
    -- no text is no record
    if text.isEmpty then [.delete .provides] else [.write .provides (Utf8.encode text)]
  | deleteProvides => .ok [.delete .provides]
  | setArtifactName name =>
    if name.isEmpty then .error (.invalidInput .emptyArtifactName)
    else .ok [.write .artifactName (Utf8.encode name)]
  | finishUpdate => .ok [.delete .checkpoint, .delete .deployment]

variable {call : Call} {accesses : List Access} {access : Access}

/-- A call changes the items it is about, each of them once. -/
theorem map_item_plan (h : call.plan = .ok accesses) : accesses.map Access.item = call.items := by
  cases call with
  | setKeys k =>
    rw [plan] at h
    split at h
    · cases h
    · cases h
      rfl
  | setDeployment data =>
    rw [plan] at h
    split at h
    · cases h
    · cases h
      rfl
  | saveCheckpoint layout c =>
    rw [plan] at h
    cases hbytes : checkpointBytes layout c with
    | error e =>
      rw [hbytes] at h
      cases h
    | ok bytes =>
      rw [hbytes] at h
      cases h
      rfl
  | setProvides m =>
    rw [plan] at h
    cases htext : providesText m with
    | error e =>
      rw [htext] at h
      cases h
    | ok text =>
      rw [htext] at h
      cases h
      cases hempty : text.isEmpty <;> simp [hempty, items, Access.item]
  | setArtifactName name =>
    rw [plan] at h
    split at h
    · cases h
    · cases h
      rfl
  | deleteKeys | deleteDeployment | deleteCheckpoint | deleteProvides | finishUpdate =>
    cases h
    rfl

theorem item_mem_items (h : call.plan = .ok accesses) (ha : access ∈ accesses) :
    access.item ∈ call.items :=
  map_item_plan h ▸ List.mem_map_of_mem ha

variable {σ : Type} [ItemStorage σ] {s : σ}

theorem perform_singleton (access : Access) :
    (perform [access] : Update StorageError σ Unit) = access.run :=
  bind_pure_unit

theorem perform_pair (first second : Access) :
    (perform [first, second] : Update StorageError σ Unit)
      = first.run >>= fun _ => second.run := by
  rw [perform, perform_singleton]

/-- **A call refuses its argument or makes its changes up to the first that fails.** -/
theorem run_eq (hcall : call ≠ .deleteKeys) (s : σ) :
    call.run s = match call.plan with
      | .error e => .error e s
      | .ok accesses => perform accesses s := by
  cases call with
  | deleteKeys => exact absurd rfl hcall
  | setKeys k =>
    show Vault.setKeys k s = _
    rw [setKeys_eq, plan]
    by_cases hempty : (k.privateKey.isEmpty || k.publicKey.isEmpty) = true
    · rw [if_pos hempty, if_pos hempty]
      rfl
    · rw [if_neg hempty, if_neg hempty]
      simp only [perform_pair]
      rfl
  | finishUpdate =>
    simp only [plan, perform_pair]
    rfl
  | setDeployment data =>
    cases data with
    | nil => rfl
    | cons b rest =>
      simp only [plan, List.isEmpty_cons, Bool.false_eq_true, if_false, perform_singleton]
      rfl
  | saveCheckpoint layout c =>
    show Vault.saveCheckpoint layout c s = _
    rw [Vault.saveCheckpoint, plan]
    cases checkpointBytes layout c with
    | error e => rfl
    | ok bytes =>
      simp only [Except.map, perform_singleton]
      rfl
  | setProvides m =>
    show Vault.setProvides m s = _
    rw [Vault.setProvides, plan]
    cases providesText m with
    | error e => rfl
    | ok text =>
      cases hempty : text.isEmpty <;> simp only [Except.map, hempty, Bool.false_eq_true,
        if_false, if_true, perform_singleton] <;> rfl
  | setArtifactName name =>
    show Vault.setArtifactName name s = _
    rw [plan]
    cases hempty : name.isEmpty <;> simp only [Vault.setArtifactName, hempty, Bool.false_eq_true,
      if_false, if_true, perform_singleton] <;> rfl
  | deleteDeployment | deleteCheckpoint | deleteProvides =>
    simp only [plan, perform_singleton]
    rfl

/-- Of the keys both are deleted, also if the first deletion fails. -/
theorem after_deleteKeys (s : σ) :
    (Call.run .deleteKeys).after s
      = (Vault.delete .publicKey).after ((Vault.delete .privateKey).after s) := by
  show Update.after Vault.deleteKeys s = _
  rw [Update.after, Vault.deleteKeys]
  cases hprivate : Vault.delete .privateKey s with
  | ok _ s' => rw [Update.after_of_ok hprivate, Update.after]
  | error e s' =>
    rw [Update.after_of_error hprivate, Update.after]
    dsimp only
    cases Vault.delete .publicKey s' <;> rfl

/-! ## What calls keep -/

variable {P : σ → Prop}

theorem after_perform (hP : ∀ access ∈ accesses, ∀ s, P s → P (access.run.after s)) (h : P s) :
    P ((perform accesses).after s) := by
  induction accesses generalizing s with
  | nil => exact h
  | cons access rest ih =>
    refine Update.after_bind (hP access List.mem_cons_self s h) fun _ s' hs' => ?_
    exact ih (fun a ha => hP a (List.mem_cons_of_mem _ ha)) hs'

/-- **A call keeps what all changes of its own items keep.** -/
theorem preserves (hP : ∀ access : Access, access.item ∈ call.items → ∀ s, P s →
    P (access.run.after s)) (h : P s) : P (call.run.after s) := by
  by_cases hcall : call = .deleteKeys
  · subst hcall
    rw [after_deleteKeys]
    have hprivate : P ((Vault.delete .privateKey).after s) :=
      hP (.delete .privateKey) (by decide) s h
    exact hP (.delete .publicKey) (by decide) _ hprivate
  · have hrun := run_eq hcall s
    cases hplan : call.plan with
    | error e =>
      rw [hplan] at hrun
      rwa [Update.after_of_error hrun]
    | ok accesses =>
      rw [hplan] at hrun
      have hafter : call.run.after s = (perform accesses).after s := by
        rw [Update.after, Update.after, hrun]
      rw [hafter]
      exact after_perform (fun access ha => hP access (item_mem_items hplan ha)) h

end Call

end UpdateVault.Vault
