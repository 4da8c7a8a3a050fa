import UpdateVault.Proofs.CommandLine.Step
import UpdateVault.Proofs.Config.Secrecy

/-!
# The private key at the command line

What a command prints, its exit code, and the descriptions of the key pair are the same on two disks
whose vaults differ in nothing but the bytes of the private key (`run_eq_of_sameButKey`). A command
opens the vault and goes on from the storage it gets (`onVault`), so it is enough that the rest of
it agrees on two storages that differ in the key (`Agree`).
-/

namespace UpdateVault.CommandLine

open Update (Same)
open Vault (Call)

variable {α β ε : Type} {x y : Step α} {f g : α → Step β} {root : Path} {d d' : Disk}
  {s t : SelectedStorage} {format : ResultFormat}

/-! ## Steps that go the same way -/

/-- The same warnings have been given; the disks may differ. -/
def SameWarnings (desk desk' : Desk) : Prop := desk.warnings = desk'.warnings

/-- Steps with the same results, failures and warnings, whatever is on the disks. -/
def Agree (x y : Step α) : Prop :=
  ∀ desk desk', SameWarnings desk desk' → Same SameWarnings (x desk) (y desk')

namespace Agree

theorem pure (a : α) : Agree (Pure.pure a : Step α) (Pure.pure a) := fun _ _ h => .ok h

theorem pure_congr {a b : α} (h : a = b) : Agree (Pure.pure a : Step α) (Pure.pure b) := h ▸ .pure a

theorem throw (e : Failure) : Agree (MonadExcept.throw e : Step α) (MonadExcept.throw e) :=
  fun _ _ h => .error h

theorem bind (h : Agree x y) (hnext : ∀ a, Agree (f a) (g a)) : Agree (x >>= f) (y >>= g) :=
  fun desk desk' hdesk => (h desk desk' hdesk).bind fun a {_ _} hdesk' => hnext a _ _ hdesk'

theorem expect (failure : ε → Failure) (a : Except ε α) :
    Agree (CommandLine.expect failure a) (CommandLine.expect failure a) := by
  cases a with
  | ok a => exact .pure a
  | error e => exact .throw _

/-- Where two look-ups differ in what `blur` takes away only, so do the steps after them. -/
theorem expect_bind {γ : Type} {a b : Except ε α} {f g : α → Step β} (failure : ε → Failure)
    {blur : α → γ} (h : a.map blur = b.map blur)
    (hnext : ∀ a b, blur a = blur b → Agree (f a) (g b)) :
    Agree (CommandLine.expect failure a >>= f) (CommandLine.expect failure b >>= g) := by
  rcases Update.except_map_eq_cases h with ⟨e, rfl, rfl⟩ | ⟨a, b, rfl, rfl, hblur⟩
  · exact .throw _
  · exact hnext a b hblur

theorem ifPresent_bind {γ : Type} {a b : Except StorageError α} {f g : Option α → Step β}
    {blur : α → γ} (h : a.map blur = b.map blur)
    (hnext : ∀ a? b?, a?.map blur = b?.map blur → Agree (f a?) (g b?)) :
    Agree (ifPresent a >>= f) (ifPresent b >>= g) := by
  rcases Update.except_map_eq_cases h with ⟨e, rfl, rfl⟩ | ⟨a, b, rfl, rfl, hblur⟩
  · simp only [ifPresent]
    cases e.isAbsence
    · exact .throw _
    · exact hnext none none rfl
  · exact hnext (some a) (some b) (congrArg some hblur)

theorem ifPresent (a : Except StorageError α) :
    Agree (CommandLine.ifPresent a) (CommandLine.ifPresent a) := by
  cases a with
  | ok a => exact .pure _
  | error e =>
    simp only [CommandLine.ifPresent]
    cases e.isAbsence
    · exact .throw _
    · exact .pure _

/-- Calls on storages that differ in the private key go the same way, unless they store keys. -/
theorem change (h : s.SameButKey t) (call : Call) (hcall : ∀ k, call ≠ .setKeys k) :
    Agree (CommandLine.change s call.run) (CommandLine.change t call.run) := by
  intro desk desk' hdesk
  have hsame := SelectedStorage.hidesKey.call_same hcall h
  unfold CommandLine.change
  generalize call.run s = left at hsame ⊢
  generalize call.run t = right at hsame ⊢
  cases hsame with
  | ok _ => exact .ok hdesk
  | error _ => exact .error hdesk

theorem collectPairs (pairs : List String) (m : Provides) :
    Agree (CommandLine.collectPairs pairs m) (CommandLine.collectPairs pairs m) := by
  induction pairs generalizing m with
  | nil => exact .pure m
  | cons text rest ih =>
    rw [CommandLine.collectPairs]
    cases Text.splitPair text.toList with
    | none => exact .throw _
    | some pair =>
      obtain ⟨key, value⟩ := pair
      dsimp only
      split
      · refine .bind ?_ fun _ => ih _
        intro desk desk' hdesk
        refine .ok ?_
        show desk.warnings ++ _ = desk'.warnings ++ _
        rw [hdesk]
      · exact ih _

end Agree

/-! ## Two vaults -/

/-- The vault at a root is the same on two disks but for the bytes of a private key of one
length. -/
structure SameButKey (root : Path) (d d' : Disk) : Prop where
  config_eq : configOf root d = configOf root d'
  stored : ∀ c, configOf root d = .ok c → c.SameButKey d d'

/-- **What agrees on two storages that differ in the private key agrees on the two vaults.** -/
theorem onVault_same {failure : Config → StorageError → Failure}
    {next : Config → SelectedStorage → Step α} (h : SameButKey root d d')
    (hnext : ∀ c {s t}, SelectedStorage.SameButKey s t → Agree (next c s) (next c t)) :
    Same SameWarnings (onVault failure root next { disk := d })
      (onVault failure root next { disk := d' }) := by
  have hstored := h.stored
  cases hconfig : configOf root d with
  | error f =>
    have hconfig' := h.config_eq.symm.trans hconfig
    rw [onVault_unconfigured hconfig, onVault_unconfigured hconfig']
    exact .error rfl
  | ok c =>
    have hconfig' := h.config_eq.symm.trans hconfig
    rcases (hstored c hconfig).open_cases with ⟨s, t, d₁, d₁', hopen, hopen', hsame⟩ |
      ⟨e, hopen, hopen'⟩
    · rw [onVault_ok hconfig hopen, onVault_ok hconfig' hopen']
      exact hnext c hsame _ _ rfl
    · rw [onVault_error hconfig hopen, onVault_error hconfig' hopen']
      exact .error rfl

/-! ## Commands -/

namespace Overview

/-- An overview without the bytes of the private key. -/
def masked (o : Overview) : Overview := { o with keys := o.keys.map KeyPair.masked }

/-- An overview shows no more of the private key than its length. -/
theorem json_masked (o : Overview) : o.masked.json = o.json := by
  have hkeys : Json.Value.ofOption keysJson (o.keys.map KeyPair.masked)
      = Json.Value.ofOption keysJson o.keys := by
    cases o.keys with
    | none => rfl
    | some k =>
      simp only [Option.map_some, Json.Value.ofOption, keysJson, KeyPair.length_privateKey_masked,
        KeyPair.publicKey_masked]
  unfold json masked
  rw [hkeys]
  rfl

theorem lines_masked (o : Overview) : o.masked.lines = o.lines := by
  have hkeys : o.masked.keysLine = o.keysLine := by
    unfold keysLine masked
    cases o.keys <;> rfl
  rw [lines, lines, hkeys]
  rfl

theorem result_eq {o o' : Overview} (h : o.masked = o'.masked) :
    result format o.json o.lines = result format o'.json o'.lines := by
  rw [← o.json_masked, ← o.lines_masked, h, json_masked, lines_masked]

end Overview

/-- A command that makes one change. -/
theorem changing_same (h : SameButKey root d d') (call : Config → Call)
    (hcall : ∀ c k, call c ≠ .setKeys k) (lines : List Line) :
    Same SameWarnings
      ((openStorage root >>= fun opened => change opened.2 (call opened.1).run >>= fun _ =>
        pure lines) { disk := d })
      ((openStorage root >>= fun opened => change opened.2 (call opened.1).run >>= fun _ =>
        pure lines) { disk := d' }) := by
  rw [openStorage_bind]
  refine onVault_same h fun c {_ _} hst => ?_
  exact (Agree.change hst (call c) (hcall c)).bind fun _ => .pure lines

/-- A command that looks something up and shows what `blur` leaves of it. -/
theorem looking_same (h : SameButKey root d d')
    (look : Config → SelectedStorage → Except StorageError α) (blur : α → α)
    (hlook : ∀ c {s t}, SelectedStorage.SameButKey s t →
      (look c s).map blur = (look c t).map blur)
    (lines : Option α → List Line) (hlines : ∀ a?, lines (a?.map blur) = lines a?) :
    Same SameWarnings
      ((openStorage root >>= fun opened => ifPresent (look opened.1 opened.2) >>= fun a? =>
        pure (lines a?)) { disk := d })
      ((openStorage root >>= fun opened => ifPresent (look opened.1 opened.2) >>= fun a? =>
        pure (lines a?)) { disk := d' }) := by
  rw [openStorage_bind]
  refine onVault_same h fun c {_ _} hst => .ifPresent_bind (hlook c hst) fun a? b? hblur => ?_
  exact .pure_congr (by rw [← hlines a?, hblur, hlines b?])

theorem looking_same_of_eq (h : SameButKey root d d')
    (look : Config → SelectedStorage → Except StorageError α)
    (hlook : ∀ c {s t}, SelectedStorage.SameButKey s t → look c s = look c t)
    (lines : Option α → List Line) :
    Same SameWarnings
      ((openStorage root >>= fun opened => ifPresent (look opened.1 opened.2) >>= fun a? =>
        pure (lines a?)) { disk := d })
      ((openStorage root >>= fun opened => ifPresent (look opened.1 opened.2) >>= fun a? =>
        pure (lines a?)) { disk := d' }) :=
  looking_same h look id (fun c {_ _} hst => congrArg _ (hlook c hst)) lines
    fun _ => congrArg lines Option.map_id_apply

theorem status_same (h : SameButKey root d d') (format : ResultFormat) :
    Same SameWarnings (status format root { disk := d }) (status format root { disk := d' }) := by
  refine onVault_same h fun c {s t} hst => ?_
  have hides := SelectedStorage.hidesKey
  rw [hides.artifactName_eq hst, hides.checkpoint_eq hst, hides.bootDecision_eq hst,
    hides.deployment_eq hst, hides.provides_eq hst]
  refine (Agree.expect _ _).bind fun artifactName => ?_
  refine (Agree.expect _ _).bind fun action => ?_
  refine .ifPresent_bind (hides.keys_eq hst) fun keys keys' hkeys => ?_
  refine (Agree.ifPresent _).bind fun deployment => ?_
  refine (Agree.ifPresent _).bind fun provides => ?_
  exact .pure_congr (Overview.result_eq (by simp only [Overview.masked, hkeys]))

theorem showKeys_same (h : SameButKey root d d') (format : ResultFormat) :
    Same SameWarnings (showKeys format root { disk := d })
      (showKeys format root { disk := d' }) := by
  refine looking_same h (fun _ s => Vault.keys s) KeyPair.masked
    (fun _ {_ _} hst => SelectedStorage.hidesKey.keys_eq hst) _ fun keys => ?_
  cases keys with
  | none => rfl
  | some k =>
    simp only [Option.map_some, Option.isSome_some, Json.Value.ofOption,
      KeyPair.length_privateKey_masked, KeyPair.publicKey_masked]

theorem getArtifactName_same (h : SameButKey root d d') (format : ResultFormat) :
    Same SameWarnings (getArtifactName format root { disk := d })
      (getArtifactName format root { disk := d' }) := by
  rw [getArtifactName, openStorage_bind]
  refine onVault_same h fun c {s t} hst => ?_
  dsimp only
  rw [SelectedStorage.hidesKey.artifactName_eq hst]
  exact (Agree.expect _ _).bind fun name => .pure _

theorem setProvides_same (h : SameButKey root d d') (format : ResultFormat) (pairs : List String) :
    Same SameWarnings (setProvides format root pairs { disk := d })
      (setProvides format root pairs { disk := d' }) := by
  rw [setProvides, openStorage_bind]
  refine onVault_same h fun c {s t} hst => ?_
  refine (Agree.collectPairs pairs _).bind fun m => ?_
  exact (Agree.change hst (.setProvides m) nofun).bind fun _ => .pure _

/-- Whether a command works on the vault alone: it does not make one, and is given no file. -/
def Command.staysInVault : Command → Bool
  | init .. | setKeys .. | setDeployment _ => false
  | _ => true

/-- **Every command that works on the vault alone goes the same way on both.** -/
theorem Command.run_same (h : SameButKey root d d') {command : Command}
    (hstays : command.staysInVault = true) (format : ResultFormat) :
    Same SameWarnings (command.run format root { disk := d })
      (command.run format root { disk := d' }) := by
  have hides := SelectedStorage.hidesKey
  cases command with
  | init | setKeys | setDeployment => cases hstays
  | status => exact status_same h format
  | showKeys => exact showKeys_same h format
  | getDeployment =>
    exact looking_same_of_eq h (fun _ s => Vault.deployment s)
      (fun _ {_ _} hst => hides.deployment_eq hst) _
  | getState =>
    exact looking_same_of_eq h (fun _ s => Vault.checkpoint s)
      (fun _ {_ _} hst => hides.checkpoint_eq hst) _
  | getProvides =>
    exact looking_same_of_eq h (fun c s => Vault.provides c.duplicates s)
      (fun c {_ _} hst => hides.provides_eq hst c.duplicates) _
  | getArtifactName => exact getArtifactName_same h format
  | setProvides pairs => exact setProvides_same h format pairs
  | deleteKeys => exact changing_same h (fun _ => .deleteKeys) nofun _
  | deleteDeployment => exact changing_same h (fun _ => .deleteDeployment) nofun _
  | saveState checkpoint =>
    exact changing_same h (fun c => .saveCheckpoint c.layout checkpoint) nofun _
  | deleteState => exact changing_same h (fun _ => .deleteCheckpoint) nofun _
  | deleteProvides => exact changing_same h (fun _ => .deleteProvides) nofun _
  | setArtifactName name => exact changing_same h (fun _ => .setArtifactName name) nofun _

/-! ## Runs of the program -/

/-- Both descriptions of the key pair of the vault at a root. -/
def describeKeys (root : Path) : Step (String × String) := do
  let (_, s) ← openStorage root
  let k ← expect .storage (Vault.keys s)
  return (k.describe, k.describeLines)

theorem describeKeys_same (h : SameButKey root d d') :
    Same SameWarnings (describeKeys root { disk := d }) (describeKeys root { disk := d' }) := by
  rw [describeKeys, openStorage_bind]
  refine onVault_same h fun c {s t} hst => ?_
  refine .expect_bind _ (SelectedStorage.hidesKey.keys_eq hst) fun k k' hmasked => .pure_congr ?_
  rw [← k.describe_masked.1, ← k.describe_masked.2, hmasked, k'.describe_masked.1,
    k'.describe_masked.2]

theorem Invocation.shown_eq {i : Invocation} {e : Environment}
    (h : SameButKey (i.rootIn e) d d') (hstays : i.command.staysInVault = true) :
    (i.run e d).shown = (i.run e d').shown := by
  have hsame := Command.run_same h hstays i.format
  rw [shown_run, shown_run]
  generalize i.command.run i.format (i.rootIn e) { disk := d } = left at hsame ⊢
  generalize i.command.run i.format (i.rootIn e) { disk := d' } = right at hsame ⊢
  cases hsame with
  | @ok _ desk desk' hwarnings =>
    replace hwarnings : desk.warnings = desk'.warnings := hwarnings
    simp only [hwarnings]
  | @error _ desk desk' hwarnings =>
    replace hwarnings : desk.warnings = desk'.warnings := hwarnings
    simp only [hwarnings]

/-- **The program shows no more of the private key than its length.** Where vaults differ in the
bytes of the private key only, every command that works on the vault alone prints the same on both,
in either format, and ends with the same exit code; and whatever keys are loaded have the same
descriptions. -/
theorem run_eq_of_sameButKey (h : SameButKey root d d') :
    (∀ (e : Environment) (arguments : List String),
      (∀ i, parse arguments = .ok i → i.rootIn e = root ∧ i.command.staysInVault = true) →
      (run e arguments d).shown = (run e arguments d').shown) ∧
    Same SameWarnings (describeKeys root { disk := d }) (describeKeys root { disk := d' }) := by
  refine ⟨fun e arguments harguments => ?_, describeKeys_same h⟩
  rw [run, run]
  cases hparse : parse arguments with
  | error u => cases u <;> rfl
  | ok i =>
    obtain ⟨rfl, hstays⟩ := harguments i hparse
    exact Invocation.shown_eq h hstays

/-- A disk whose top is a vault with a key pair and nothing else. -/
def vaultWith (privateKey : Bytes) : Disk :=
  ⟨.ofList [([Item.privateKey.name], .file privateKey), ([Item.publicKey.name], .file [5])], []⟩

theorem sameButKey_vaultWith {key key' : Bytes} (hlength : key.length = key'.length) :
    SameButKey ⟨"/"⟩ (vaultWith key) (vaultWith key') := by
  refine ⟨rfl, fun c hconfig => ?_⟩
  have hdefault : configOf ⟨"/"⟩ (vaultWith key) = .ok { root := ⟨"/"⟩ } := rfl
  cases hdefault.symm.trans hconfig
  refine ⟨[], [], rfl, rfl, rfl, fun item => ?_, fun item => ?_⟩
  · cases item with
    | privateKey => exact .inr ⟨rfl, key, key', hlength, rfl, rfl⟩
    | _ => exact .inl rfl
  · cases item <;> exact Iff.rfl

theorem run_eq_of_sameButKey_showKeys :
    vaultWith [1, 2] ≠ vaultWith [3, 4] ∧
    (run {} ["--root", "/", "keys", "show"] (vaultWith [1, 2])).shown
      = (run {} ["--root", "/", "keys", "show"] (vaultWith [3, 4])).shown ∧
    Same SameWarnings (describeKeys ⟨"/"⟩ { disk := vaultWith [1, 2] })
      (describeKeys ⟨"/"⟩ { disk := vaultWith [3, 4] }) := by
  have hlength : ([1, 2] : Bytes).length = ([3, 4] : Bytes).length := rfl
  obtain ⟨hrun, hdescribe⟩ := run_eq_of_sameButKey (sameButKey_vaultWith hlength)
  refine ⟨by decide, hrun {} _ fun i hparse => ?_, hdescribe⟩
  have hshow : parse ["--root", "/", "keys", "show"]
      = .ok ⟨some ⟨"/"⟩, .text, none, .showKeys⟩ := rfl
  cases hshow.symm.trans hparse
  exact ⟨rfl, rfl⟩

end UpdateVault.CommandLine
