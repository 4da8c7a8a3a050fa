import UpdateVault.Proofs.CommandLine.Parsing
import UpdateVault.Proofs.CommandLine.Step
import UpdateVault.Proofs.CommandLine.Vault
import UpdateVault.Proofs.Json.Sorting
import UpdateVault.Proofs.Vault.Boot

/-!
# The overview of a vault

A run that shows the status looks at the checkpoint twice: once for the record itself, where an
error is part of the overview, and once for the decision at boot, which an error may settle. Both
follow from the thing in the place of the checkpoint's file (`Reported`), whatever it is, so nothing
there keeps the overview from being shown as long as the other records can be (`status_reports`).
-/

namespace UpdateVault

open Vault (WritingOf interruption)

variable {σ τ α : Type} [ItemStorage σ] [ItemStorage τ] {s : σ} {t : τ} {policy : RepeatPolicy}
  {root : Path} {c : Config} {d d₀ d₁ : Disk} {top : Location}

/-! ## The other records -/

/-- What was looked up was found, or is absent. -/
def FoundOrAbsent (found : Except StorageError α) : Prop :=
  ∀ e, found = .error e → e.isAbsence = true

/-- All records but the checkpoint can be shown. -/
structure OthersReadable (policy : RepeatPolicy) (s : σ) : Prop where
  artifactName : ∃ name, Vault.artifactName s = .ok name
  keys : FoundOrAbsent (Vault.keys s)
  deployment : FoundOrAbsent (Vault.deployment s)
  provides : FoundOrAbsent (Vault.provides policy s)

theorem FoundOrAbsent.bind {β : Type} {found : Except StorageError α}
    {next : α → Except StorageError β} (h : FoundOrAbsent found)
    (hnext : ∀ a, found = .ok a → FoundOrAbsent (next a)) : FoundOrAbsent (found >>= next) := by
  cases found with
  | ok a => exact hnext a rfl
  | error e =>
    intro e' he'
    cases he'
    exact h e rfl

/-- It is enough that the other items can be read or are absent, that the name of the artifact is
UTF-8 and that the text of the capabilities can be decoded. -/
theorem othersReadable_of_items
    (hread : ∀ item, item ≠ .checkpoint → FoundOrAbsent (Vault.read s item))
    (hname : ∀ bytes, Vault.read s .artifactName = .ok bytes →
      ∃ name, Utf8.decode? bytes = some name)
    (hprovides : ∀ bytes, Vault.read s .provides = .ok bytes → ∃ text m,
      Utf8.decode? bytes = some text ∧
        Vault.providesOf policy (Text.withoutTerminator text) = .ok m) :
    OthersReadable policy s := by
  refine ⟨?_, ?_, hread .deployment (by decide), ?_⟩
  · rw [Vault.artifactName]
    cases hartifact : Vault.read s .artifactName with
    | ok bytes =>
      obtain ⟨name, hdecode⟩ := hname bytes hartifact
      simp only [hdecode]
      exact ⟨_, rfl⟩
    | error e =>
      simp only [hread .artifactName (by decide) e hartifact, if_true]
      exact ⟨_, rfl⟩
  · refine (hread .privateKey (by decide)).bind fun _ _ => ?_
    refine (hread .publicKey (by decide)).bind fun _ _ => ?_
    rintro e ⟨⟩
  · refine (hread .provides (by decide)).bind fun bytes hbytes => ?_
    obtain ⟨text, m, hdecode, hm⟩ := hprovides bytes hbytes
    simp only [hdecode, hm]
    rintro e ⟨⟩

/-- What can be shown depends on what is read of the items only. -/
theorem OthersReadable.congr (hread : ∀ item, Vault.read t item = Vault.read s item)
    (h : OthersReadable policy s) : OthersReadable policy t := by
  have hname : Vault.artifactName t = Vault.artifactName s := by
    simp only [Vault.artifactName, hread]
  have hkeys : Vault.keys t = Vault.keys s := by simp only [Vault.keys, hread]
  have hdeployment : Vault.deployment t = Vault.deployment s := hread .deployment
  have hprovides : Vault.provides policy t = Vault.provides policy s := by
    simp only [Vault.provides, hread]
  exact ⟨hname ▸ h.artifactName, hkeys ▸ h.keys, hdeployment ▸ h.deployment,
    hprovides ▸ h.provides⟩

/-- Where the artifact's name can be read, the checkpoint is in reach: its file has the shorter
path. -/
theorem ItemDirectory.reach_of_artifactName {s : ItemDirectory}
    (h : ∃ name, Vault.artifactName s = .ok name) :
    reachFault? s.root Item.checkpoint.name = none := by
  have hlonger : reachFault? s.root Item.artifactName.name = none := by
    obtain ⟨name, hname⟩ := h
    cases hreach : reachFault? s.root Item.artifactName.name with
    | none => rfl
    | some e =>
      have hread : Vault.read s .artifactName = .error (.io e) := by
        show s.read Item.artifactName.name = _
        rw [read, if_pos (isItemName_name .artifactName), hreach]
      rw [Vault.artifactName, hread] at hname
      cases hname
  exact reach_of_longer (by decide) (by decide) (by decide) (by decide) hlonger

/-! ## The checkpoint and the decision -/

/-- What is reported of the thing in the place of the checkpoint's file: the checkpoint, if it is
one, and what is to be done at boot. -/
inductive Reported : Option Node → Option Checkpoint → BootDecision → Prop
  | absent : Reported none none .freshStart
  | empty : Reported (some (.file [])) none .freshStart
  | unreadable :
      Reported (some .directory) none (.rollback (StorageError.io .isDirectory).message)
  | invalid {bytes : Bytes} {fault : Checkpoint.Fault} :
      bytes ≠ [] → (∀ c, ¬ WritingOf c bytes) →
      Vault.checkpointOf bytes = .error (.corrupt fault) →
      Reported (some (.file bytes)) none (.rollback (StorageError.corrupt fault).message)
  | interrupted {bytes : Bytes} {c : Checkpoint} :
      WritingOf c bytes → c.phase = .download ∨ c.phase = .install →
      Reported (some (.file bytes)) (some c) (.rollback (interruption c.phase))
  | resumed {bytes : Bytes} {c : Checkpoint} :
      WritingOf c bytes → c.phase ≠ .download → c.phase ≠ .install →
      Reported (some (.file bytes)) (some c) (.resume c)

namespace ItemDirectory

variable {s : ItemDirectory}

/-- **The checkpoint and the decision at boot are of one mind**, whatever is in the place of the
checkpoint's file. -/
theorem reported_of_reach (hreach : reachFault? s.root Item.checkpoint.name = none) :
    ∃ action, Vault.bootDecision s = .ok action ∧
      Reported (s.disk.node? (fileOf s.place Item.checkpoint.name)) (Vault.checkpoint s).toOption
        action := by
  have hread : Vault.read s .checkpoint = _ := read_of_reach hreach
  have hcheckpoint : Vault.checkpoint s = Vault.read s .checkpoint >>= Vault.checkpointOf := rfl
  cases hnode : s.disk.node? (fileOf s.place Item.checkpoint.name) with
  | none =>
    simp only [hnode] at hread
    rw [hcheckpoint, hread]
    exact ⟨_, (Vault.Decided.absent hread).eq, .absent⟩
  | some node =>
    rcases node with _ | (_ | ⟨b, rest⟩)
    · simp only [hnode] at hread
      rw [hcheckpoint, hread]
      exact ⟨_, (Vault.Decided.unusable hread nofun nofun).eq, .unreadable⟩
    · simp only [hnode] at hread
      rw [hcheckpoint, hread]
      exact ⟨_, (Vault.Decided.absent hread).eq, .empty⟩
    · simp only [hnode] at hread
      have hvalue : Vault.checkpoint s = Vault.checkpointOf (b :: rest) := by
        rw [hcheckpoint, hread]
        rfl
      rcases Vault.checkpointOf_ok_or_corrupt (b :: rest) with ⟨c, hc⟩ | ⟨fault, hfault⟩
      · have hwriting := Vault.checkpointOf_eq_ok_iff_writingOf.1 hc
        refine ⟨_, (Vault.Decided.checkpoint hread hwriting).eq, ?_⟩
        rw [hvalue, hc, Vault.decisionOf]
        split
        · rename_i hphase
          exact .interrupted hwriting hphase
        · rename_i hphase
          exact .resumed hwriting (not_or.1 hphase).1 (not_or.1 hphase).2
      · have hnone := Vault.not_writingOf_of_error hfault
        refine ⟨_, (Vault.Decided.corrupt hread hnone hfault).eq, ?_⟩
        rw [hvalue, hfault]
        exact .invalid (List.cons_ne_nil b rest) hnone hfault

end ItemDirectory

namespace CommandLine

/-! ## The overview -/

theorem ifPresent_eq {found : Except StorageError α} (h : FoundOrAbsent found) :
    ifPresent found = pure found.toOption := by
  cases found with
  | ok a => rfl
  | error e => rw [ifPresent, h e rfl, if_pos rfl]; rfl

/-- An overview has no checkpoint where an error is shown in its place. -/
theorem Overview.checkpoint?_eq {o : Overview} {found : Except StorageError Checkpoint}
    (h : o.checkpoint = match found with
      | .ok c => .ok (some c)
      | .error e => if e.isAbsence then .ok none else .error e) :
    o.checkpoint? = found.toOption := by
  rw [checkpoint?, h]
  cases found with
  | ok c => rfl
  | error e => cases hkind : e.isAbsence <;> simp only [hkind] <;> rfl

/-- An overview is shown where all other records can be, with the checkpoint if it can be read. -/
theorem status_ok {s : SelectedStorage} (hconfig : configOf root d = .ok c)
    (hopen : SelectedStorage.open c d = .ok s d₁) (hothers : OthersReadable c.duplicates s)
    {action : BootDecision} (haction : Vault.bootDecision s = .ok action) (format : ResultFormat) :
    ∃ o : Overview, o.checkpoint? = (Vault.checkpoint s).toOption ∧ o.action = action ∧
      status format root { disk := d } = .ok (result format o.json o.lines) { disk := d₁ } := by
  obtain ⟨name, hname⟩ := hothers.artifactName
  let o : Overview := {
    root, backend := c.backend, artifactName := name
    checkpoint := match Vault.checkpoint s with
      | .ok c => .ok (some c)
      | .error e => if e.isAbsence then .ok none else .error e
    action, keys := (Vault.keys s).toOption, deployment := (Vault.deployment s).toOption
    provides := (Vault.provides c.duplicates s).toOption.getD .empty }
  refine ⟨o, Overview.checkpoint?_eq rfl, rfl, ?_⟩
  have hstatus : status format root { disk := d } = onVault (fun _ => .storage) root _ _ := rfl
  rw [hstatus, onVault_ok hconfig hopen, hname, haction, ifPresent_eq hothers.keys,
    ifPresent_eq hothers.deployment, ifPresent_eq hothers.provides]
  rfl

/-! ## What is printed -/

theorem sortKeys_decision (action : BootDecision) : action.toJson.sortKeys = action.toJson := by
  cases action <;>
    exact Json.Value.sortKeys_sorted (by simp [Phase.toJson, Json.Value.sortKeys])

theorem sortKeys_checkpoint (checkpoint? : Option Checkpoint) :
    (Json.Value.ofOption Checkpoint.toJson checkpoint?).sortKeys
      = .ofOption Checkpoint.toJson checkpoint? := by
  cases checkpoint? with
  | none => simp only [Json.Value.ofOption, Json.Value.sortKeys]
  | some c => exact Json.Value.sortKeys_sorted (by simp [Phase.toJson, Json.Value.sortKeys])

/-- The checkpoint and the decision are printed as members of the overview. -/
theorem Overview.members_json (o : Overview) : ∃ members,
    (Json.Value.object o.json).sortKeys = .object members ∧
      members.lookup "update_state" = some (.ofOption Checkpoint.toJson o.checkpoint?) ∧
      members.lookup "boot_action" = some o.action.toJson := by
  refine ⟨_, by rw [Json.Value.sortKeys, Json.Value.sorted], ?_, ?_⟩
  · rw [Json.Value.lookup_sorted]
    simp [Overview.json, Json.Value.sortMembers, List.lookup_cons, sortKeys_checkpoint]
  · rw [Json.Value.lookup_sorted]
    simp [Overview.json, Json.Value.sortMembers, List.lookup_cons, sortKeys_decision]

/-- A run has shown, as JSON, what is reported of the thing in the place of the checkpoint. -/
structure ShowsStatus (thing : Option Node) (o : Outcome) : Prop where
  code_eq : o.code = 0
  shows : ∃ members checkpoint? action,
    o.output = (Json.Value.object members).pretty ++ "\n" ∧
      members.lookup "update_state" = some (.ofOption Checkpoint.toJson checkpoint?) ∧
      members.lookup "boot_action" = some action.toJson ∧ Reported thing checkpoint? action

/-- A run that shows the status of a directory leaves it as opening does. -/
theorem showsStatus_of_open {i : Invocation} {e : Environment} {s : ItemDirectory}
    (hcommand : i.command = .status) (hformat : i.format = .json)
    (hconfig : configOf (i.rootIn e) d = .ok c)
    (hopen : SelectedStorage.open c d = .ok (.directory s) d₁)
    (hothers : OthersReadable c.duplicates s) :
    ShowsStatus (s.disk.node? (ItemDirectory.fileOf s.place Item.checkpoint.name)) (i.run e d) ∧
      (i.run e d).disk = d₁ := by
  obtain ⟨action, haction, hreported⟩ := ItemDirectory.reported_of_reach
    (ItemDirectory.reach_of_artifactName hothers.artifactName)
  have hothers' : OthersReadable c.duplicates (SelectedStorage.directory s) :=
    OthersReadable.congr (s := s) (fun _ => rfl) hothers
  obtain ⟨o, hcheckpoint, hboot, hstatus⟩ := status_ok hconfig hopen hothers' haction .json
  have hrun : i.command.run i.format (i.rootIn e) { disk := d }
      = .ok (result .json o.json o.lines) { disk := d₁ } := by
    rw [hcommand, hformat]
    exact hstatus
  obtain ⟨members, hmembers, hstate, hdecision⟩ := o.members_json
  rw [Invocation.run_ok hrun]
  refine ⟨⟨rfl, members, o.checkpoint?, o.action, ?_, hstate, hdecision, ?_⟩, rfl⟩
  · simp only [result, renderLines, Line.ofJson, hmembers, List.map_cons, List.map_nil]
    rfl
  · rw [hcheckpoint, hboot]
    exact hreported

/-- **The status is shown whatever is in the place of the checkpoint**, and shows what is to be made
of it. For every command line that asks for it as JSON, at every root whose configuration names a
directory that is there or can be made: if the other records can be read or are absent, the run
succeeds, the checkpoint and the decision at boot are reported as the thing in that place has it,
and no item changes, nor anything else but temporary files that were left over. -/
theorem status_reports {arguments : List String} {i : Invocation} {e : Environment}
    (hparse : parse arguments = .ok i) (hcommand : i.command = .status)
    (hformat : i.format = .json) (hconfig : configOf (i.rootIn e) d = .ok c)
    (hbackend : c.backend = .file) (hroot : Disk.makePath c.root d = .ok () d₀)
    (hfound : d₀.find c.root = .ok (top, .directory))
    (hothers : OthersReadable c.duplicates (⟨c.root, top, d₀⟩ : ItemDirectory)) :
    ShowsStatus (d₀.node? (ItemDirectory.fileOf top Item.checkpoint.name)) (run e arguments d) ∧
      (∀ item : Item, (run e arguments d).disk.node? (ItemDirectory.fileOf top item.name)
        = d₀.node? (ItemDirectory.fileOf top item.name)) ∧
      (∀ place, ¬ ItemDirectory.Leftover c.root top d₀ place →
        (run e arguments d).disk.node? place = d₀.node? place) ∧
      d.OnlyAddsDirectories d₀ ∧ (∀ place, d.find c.root = .ok (place, .directory) → d₀ = d) := by
  let s : ItemDirectory := ⟨c.root, top, ItemDirectory.sweep d₀ c.root top⟩
  have hitems : ItemDirectory.open c.root d = .ok s s.disk := by
    simp only [ItemDirectory.open, hroot, hfound]
    rfl
  have hopen : SelectedStorage.open c d = .ok (.directory s) s.disk :=
    SelectedStorage.open_eq_ok_iff.2
      ⟨valid_of_configOf (nonempty_rootIn hparse e) hconfig, .directory hbackend hitems⟩
  have hread (item : Item) :
      Vault.read s item = Vault.read (⟨c.root, top, d₀⟩ : ItemDirectory) item :=
    ItemDirectory.read_congr (s := ⟨c.root, top, d₀⟩) (t := s) rfl
      (ItemDirectory.node?_sweep_fileOf top item)
  have hothers' : OthersReadable c.duplicates s := hothers.congr hread
  obtain ⟨hshows, hdisk⟩ := showsStatus_of_open hcommand hformat hconfig hopen hothers'
  have hrun : run e arguments d = i.run e d := by rw [run, hparse]
  rw [hrun, hdisk]
  refine ⟨?_, ?_, ?_, Disk.onlyAdds_of_makePath hroot, fun place hplace => ?_⟩
  · rwa [← ItemDirectory.node?_sweep_fileOf top .checkpoint]
  · exact fun item => ItemDirectory.node?_sweep_fileOf top item
  · exact fun place hplace => ItemDirectory.node?_sweep_of_not_leftover hplace
  · have hsame := (Disk.makePath_eq hplace).symm.trans hroot
    cases hsame
    rfl

/-- A disk with a directory in the place of the checkpoint, and nothing else. -/
def blocked : Disk := ⟨.ofList [([Item.checkpoint.name], .directory)], []⟩

theorem status_reports_blocked : ∃ members reason,
    (run {} ["--root", "/", "--format", "json", "status"] blocked).code = 0 ∧
      (run {} ["--root", "/", "--format", "json", "status"] blocked).output
        = (Json.Value.object members).pretty ++ "\n" ∧
      members.lookup "update_state" = some .null ∧
      members.lookup "boot_action" = some (BootDecision.rollback reason).toJson := by
  have hfound : blocked.find ⟨"/"⟩ = .ok ([], .directory) := by decide +kernel
  let s : ItemDirectory := ⟨⟨"/"⟩, [], blocked⟩
  have habsent : ∀ item, item ≠ .checkpoint →
      Vault.read s item = .error (.notFound item.name) := by
    intro item hne
    cases item <;> first | exact absurd rfl hne | decide +kernel
  have hothers : OthersReadable .lastWins s := by
    refine othersReadable_of_items (fun item hne e he => ?_) (fun bytes hbytes => ?_)
      fun bytes hbytes => ?_
    · rw [habsent item hne] at he
      cases he
      rfl
    · rw [habsent .artifactName (by decide)] at hbytes
      cases hbytes
    · rw [habsent .provides (by decide)] at hbytes
      cases hbytes
  have hparse : parse ["--root", "/", "--format", "json", "status"]
      = .ok ⟨some ⟨"/"⟩, .json, none, .status⟩ := rfl
  obtain ⟨⟨hcode, members, checkpoint?, action, houtput, hstate, hdecision, hreported⟩, -⟩ :=
    status_reports (e := {}) (c := { root := ⟨"/"⟩ }) hparse rfl rfl (by decide +kernel) rfl
      (Disk.makePath_eq hfound) hfound hothers
  have hthing : blocked.node? (ItemDirectory.fileOf [] Item.checkpoint.name) = some .directory := by
    decide +kernel
  rw [hthing] at hreported
  cases hreported
  exact ⟨members, _, hcode, houtput, hstate, hdecision⟩

end CommandLine

end UpdateVault
