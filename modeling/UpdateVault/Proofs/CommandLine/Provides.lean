import UpdateVault.Proofs.CommandLine.Pairs
import UpdateVault.Proofs.CommandLine.Parsing
import UpdateVault.Proofs.CommandLine.Vault
import UpdateVault.Proofs.Json.Sorting
import UpdateVault.Proofs.Vault.Texts

/-!
# Setting and showing capabilities

A command line that sets capabilities either fails and changes no more than one that shows them, or
stores what its pairs mean, and then a command line that shows them shows just that, whatever the
policy for repeated keys (`provides_shown_after_set`). Between the two the vault is closed and
opened again, with the same configuration (`VaultAt.configOf_after_write`).
-/

namespace UpdateVault.CommandLine

variable {root : Path} {format : ResultFormat} {args : List String} {c : Config}
  {s s' : SelectedStorage} {d d' d₁ : Disk} {m : Provides}

/-! ## Showing -/

/-- How entries are shown: a line for each, or a JSON object. -/
def shownProvides (format : ResultFormat) (es : List (String × String)) : String :=
  match format with
  | .text => String.join (es.map fun e => e.1 ++ "=" ++ e.2 ++ "\n")
  | .json =>
    let members := es.map fun e => (e.1, Json.Value.string e.2)
    (Json.Value.object [("provides", .object members)]).pretty ++ "\n"

/-- The lines of a result with capabilities. -/
def providesResult (format : ResultFormat) (m : Provides) : List Line :=
  result format [("provides", m.toJson)]
    (if m.isEmpty then [.info "No provides stored"] else m.toList.map fun e => .plain (pairText e))

theorem render_providesResult (colour : Bool) (hne : m.toList ≠ []) :
    renderLines colour (providesResult format m) = shownProvides format m.toList := by
  cases format with
  | text =>
    have hempty : m.isEmpty = false := by rwa [SortedMap.isEmpty, List.isEmpty_eq_false_iff]
    simp only [providesResult, result, hempty, Bool.false_eq_true, if_false, renderLines,
      List.map_map]
    rfl
  | json =>
    have hsorted : (Json.Value.object [("provides", m.toJson)]).sortKeys
        = .object [("provides", m.toJson)] := by
      have hmap : m.toJson.sortKeys = m.toJson := Json.Value.sortKeys_ofMap m
      simp only [Json.Value.sortKeys, Json.Value.sortMembers, hmap]
      rfl
    simp only [providesResult, result, renderLines, Line.ofJson, hsorted, List.map_cons,
      List.map_nil]
    rfl

section

variable (hconfig : configOf root d = .ok c) (hopen : SelectedStorage.open c d = .ok s d₁)

include hconfig hopen

theorem getProvides_ok (hread : Vault.provides c.duplicates s = .ok m) (format : ResultFormat) :
    getProvides format root { disk := d } = .ok (providesResult format m) { disk := d₁ } := by
  rw [getProvides, openStorage_bind, onVault_ok hconfig hopen]
  simp only [hread, ifPresent]
  rfl

/-- Where no capabilities are stored, it is said so. -/
theorem getProvides_absent {name : String}
    (hread : Vault.provides c.duplicates s = .error (.notFound name)) (format : ResultFormat) :
    getProvides format root { disk := d } = .ok (providesResult format .empty) { disk := d₁ } := by
  rw [getProvides, openStorage_bind, onVault_ok hconfig hopen]
  simp only [hread, ifPresent]
  rfl

/-- Showing changes no more than opening does. -/
theorem after_getProvides (format : ResultFormat) :
    (getProvides format root).after { disk := d } = { disk := d₁ } := by
  rw [Update.after, getProvides, openStorage_bind, onVault_ok hconfig hopen]
  cases hread : Vault.provides c.duplicates s with
  | ok m =>
    simp only [hread, ifPresent]
    rfl
  | error e =>
    simp only [hread, ifPresent]
    cases e.isAbsence <;> rfl

/-! ## Setting -/

theorem setProvides_ok (hpairs : ∀ a ∈ args, ∃ key, Provides.KeyLine a.toList key)
    (hcollect : Provides.collect .lastWins 1 .empty ((linesOf args).map .of) = .ok m)
    (hset : Vault.setProvides m s = .ok () s') (format : ResultFormat) : ∃ lines warnings,
      setProvides format root args { disk := d } = .ok lines { disk := s'.disk, warnings } := by
  obtain ⟨warnings, hcollected⟩ := collectPairs_ok hpairs hcollect { disk := d₁ }
  have hchange : change s (Vault.setProvides m) { disk := d₁, warnings }
      = .ok () { disk := s'.disk, warnings } := by
    simp only [change, hset]
  rw [setProvides, openStorage_bind, onVault_ok hconfig hopen]
  dsimp only
  rw [Update.bind_ok hcollected, Update.bind_ok hchange]
  exact ⟨_, warnings, rfl⟩

/-- What is refused is not stored. -/
theorem setProvides_of_refused (hrefused : Refused args) (format : ResultFormat) :
    ∃ f warnings,
      setProvides format root args { disk := d } = .error f { disk := d₁, warnings } := by
  rw [setProvides, openStorage_bind, onVault_ok hconfig hopen]
  dsimp only
  by_cases hpairs : ∀ a ∈ args, ∃ key, Provides.KeyLine a.toList key
  · obtain ⟨m, hcollect⟩ := exists_collect args
    obtain ⟨warnings, hcollected⟩ := collectPairs_ok hpairs hcollect { disk := d₁ }
    cases hencode : m.encode with
    | ok text =>
      have hmeans := means_of_collect hcollect
      exact absurd hrefused ((exists_encode_iff_not_refused hpairs hmeans).1 ⟨text, hencode⟩)
    | error fault =>
      have hchange : change s (Vault.setProvides m) { disk := d₁, warnings }
          = .error (.storage (.codec (.provides fault))) { disk := d₁, warnings } := by
        simp only [change, Vault.setProvides_of_error hencode, SelectedStorage.disk_of_open hopen]
      rw [Update.bind_ok hcollected, Update.bind_error hchange]
      exact ⟨_, warnings, rfl⟩
  · have hother : ∃ a ∈ args, ∀ key, ¬ Provides.KeyLine a.toList key := by
      simpa using hpairs
    obtain ⟨text, warnings, herror⟩ := collectPairs_error hother .empty { disk := d₁ }
    rw [Update.bind_error herror]
    exact ⟨_, warnings, rfl⟩

end

/-- Refused pairs leave the disk as showing leaves it, whether there is a vault or not. -/
theorem setProvides_error (hrefused : Refused args) (root : Path) (format : ResultFormat)
    (d : Disk) : ∃ f warnings, ∀ format', setProvides format root args { disk := d }
      = .error f { disk := ((getProvides format' root).after { disk := d }).disk, warnings } := by
  cases hconfig : configOf root d with
  | error f =>
    refine ⟨f, [], fun format' => ?_⟩
    rw [setProvides, getProvides, openStorage_bind, openStorage_bind,
      Update.after_of_error (onVault_unconfigured hconfig), onVault_unconfigured hconfig]
  | ok c =>
    cases hopen : SelectedStorage.open c d with
    | error e d₁ =>
      refine ⟨.opening c.backend root e, [], fun format' => ?_⟩
      rw [setProvides, getProvides, openStorage_bind, openStorage_bind,
        Update.after_of_error (onVault_error hconfig hopen), onVault_error hconfig hopen]
    | ok s d₁ =>
      obtain ⟨f, warnings, herror⟩ := setProvides_of_refused hconfig hopen hrefused format
      refine ⟨f, warnings, fun format' => ?_⟩
      rw [herror, after_getProvides hconfig hopen]

/-- Showing once more comes to the same if the configuration stays. -/
theorem getProvides_again (hstays : StaysInForce root d) (format : ResultFormat) :
    getProvides format root { disk := ((getProvides format root).after { disk := d }).disk }
      = getProvides format root { disk := d } := by
  cases hconfig : configOf root d with
  | error f =>
    have hnothing : (getProvides format root).after { disk := d } = { disk := d } := by
      rw [getProvides, openStorage_bind, Update.after_of_error (onVault_unconfigured hconfig)]
    rw [hnothing]
  | ok c =>
    obtain ⟨s, d₁, hopen, hkept⟩ := hstays c hconfig
    have hopened := SelectedStorage.open_again hopen
    rw [after_getProvides hconfig hopen, getProvides, openStorage_bind, onVault_ok hconfig hopen,
      onVault_ok hkept hopened]

/-! ## Command lines -/

section

variable (hroot : root.text.isEmpty = false) (e : Environment)

include hroot

theorem run_setLine (hne : args ≠ []) (hargs : ∀ a ∈ args, a.toList.head? ≠ some '-')
    (format : ResultFormat) (d : Disk) : run e (setLine root format args) d
      = Invocation.run ⟨some root, format, none, .setProvides args⟩ e d := by
  rw [run, parse_setProvides hroot hne hargs]

theorem run_getLine (format : ResultFormat) (d : Disk) : run e (getLine root format) d
    = Invocation.run ⟨some root, format, none, .getProvides⟩ e d := by
  rw [run, parse_getProvides hroot]

theorem disk_getLine (format : ResultFormat) (d : Disk) :
    (run e (getLine root format) d).disk
      = ((getProvides format root).after { disk := d }).disk := by
  rw [run_getLine hroot, Invocation.disk_run]
  rfl

/-- What is shown depends on what the command comes to. -/
theorem shown_getLine (h : getProvides format root { disk := d' }
    = getProvides format root { disk := d }) :
    (run e (getLine root format) d').shown = (run e (getLine root format) d).shown := by
  have hcommand : Command.run format root .getProvides { disk := d' }
      = Command.run format root .getProvides { disk := d } := h
  rw [run_getLine hroot, run_getLine hroot, Invocation.shown_run, Invocation.shown_run]
  dsimp only [Invocation.rootIn, Option.getD_some]
  rw [hcommand]

end

/-- A run on a disk that was to set capabilities failed, and what is shown of them stays if the
configuration does. -/
structure Rejects (root : Path) (d : Disk) (o : Outcome) : Prop where
  code_eq : o.code = 1
  /-- The disk is left as showing capabilities leaves it. -/
  disk_eq : ∀ e format, o.disk = (run e (getLine root format) d).disk
  shown_eq : StaysInForce root d → ∀ e format,
    (run e (getLine root format) o.disk).shown = (run e (getLine root format) d).shown

/-- A run has set capabilities, and from now on they are shown. -/
structure Sets (root : Path) (es : List (String × String)) (o : Outcome) : Prop where
  code_eq : o.code = 0
  shows : ∀ e format, (run e (getLine root format) o.disk).code = 0 ∧
    (run e (getLine root format) o.disk).output = shownProvides format es

theorem rejects_of_refused (hroot : root.text.isEmpty = false) (hne : args ≠ [])
    (hargs : ∀ a ∈ args, a.toList.head? ≠ some '-') (hrefused : Refused args) (e : Environment)
    (format : ResultFormat) (d : Disk) : Rejects root d (run e (setLine root format args) d) := by
  obtain ⟨f, warnings, herror⟩ := setProvides_error hrefused root format d
  have hrun (format' : ResultFormat) := Invocation.run_error (e := e)
    (i := ⟨some root, format, none, .setProvides args⟩) (herror format')
  rw [run_setLine hroot e hne hargs]
  refine ⟨?_, fun e' format' => ?_, fun hstays e' format' => ?_⟩
  · rw [hrun .text]
  · rw [hrun format', disk_getLine hroot]
  · rw [hrun format']
    exact shown_getLine hroot e' (getProvides_again hstays format')

/-- Pairs that are not refused, and that the vault has room for, are set. -/
theorem sets_of_room (hroot : root.text.isEmpty = false) (hne : args ≠ [])
    (hargs : ∀ a ∈ args, a.toList.head? ≠ some '-') (hplain : ∀ a ∈ args, '\x00' ∉ a.toList)
    (hpairs : ∀ a ∈ args, ∃ key, Provides.KeyLine a.toList key)
    (hcollect : Provides.collect .lastWins 1 .empty ((linesOf args).map .of) = .ok m)
    {text : String} (hencode : m.encode = .ok text) (h : VaultAt root c s d d₁)
    (hroom : s.HasRoom .provides (Utf8.encode text)) (e : Environment) (format : ResultFormat) :
    Sets root m.toList (run e (setLine root format args) d) := by
  have hmeans := means_of_collect hcollect
  have hnil : m.toList ≠ [] := hmeans.ne_nil hne hpairs
  have hempty : m.isEmpty = false := by rwa [SortedMap.isEmpty, List.isEmpty_eq_false_iff]
  obtain ⟨s', hwrite⟩ := SelectedStorage.exists_write h.opened hroom
  have hset : Vault.setProvides m s = .ok () s' := by
    rw [Vault.setProvides_of_encode hencode, hempty]
    exact hwrite
  obtain ⟨lines, warnings, hcommand⟩ := setProvides_ok h.config h.opened hpairs hcollect hset format
  -- the vault is opened again as it was left
  have hopened := SelectedStorage.open_after_write h.opened hwrite
  have hconfig := h.configOf_after_write hwrite
  have hread : Vault.provides c.duplicates s' = .ok m := by
    have hback := Vault.textsComeBack_of_storesFaithfully s.storesFaithfully
    refine (hback.exactProvides m s' hnil hset c.duplicates).2 fun last hlast hnul => ?_
    obtain ⟨a, ha, hmem⟩ := hmeans.mem_of_mem_value (List.mem_of_getLast? hlast)
      (List.mem_of_getLast? hnul)
    exact hplain a ha hmem
  have hrun :=
    Invocation.run_ok (e := e) (i := ⟨some root, format, none, .setProvides args⟩) hcommand
  rw [run_setLine hroot e hne hargs, hrun]
  refine ⟨rfl, fun e' format' => ?_⟩
  have hshown := getProvides_ok hconfig hopened hread format'
  have hrun' := Invocation.run_ok (e := e') (i := ⟨some root, format', none, .getProvides⟩) hshown
  rw [run_getLine hroot, hrun']
  exact ⟨rfl, render_providesResult _ hnil⟩

/-- **Capabilities that are set are shown, and what is refused is not stored.** If an argument is no
pair, or what the arguments mean has a line break, the run fails and changes no more than a run that
shows capabilities; what is shown stays, provided that opening the vault leaves its configuration in
force. Otherwise, if there is a vault at the root with room for the text, the run succeeds, and from
now on every run that shows capabilities shows the last value of each key, in the order of the bytes
of the keys, in either format and under either policy for repeated keys. -/
theorem provides_shown_after_set (hroot : root.text.isEmpty = false) (hne : args ≠ [])
    (hargs : ∀ a ∈ args, a.toList.head? ≠ some '-') :
    (Refused args → ∀ e format d, Rejects root d (run e (setLine root format args) d)) ∧
    (¬ Refused args → (∀ a ∈ args, '\x00' ∉ a.toList) → ∃ es, Means args es ∧
      ∀ e format d c s d₁, VaultAt root c s d d₁ →
        s.HasRoom .provides (Utf8.encode (Provides.textOf es)) →
        Sets root es (run e (setLine root format args) d)) := by
  refine ⟨rejects_of_refused hroot hne hargs, fun haccepted hplain => ?_⟩
  have hpairs := pairs_of_not_refused haccepted
  obtain ⟨m, hcollect⟩ := exists_collect args
  have hmeans := means_of_collect hcollect
  obtain ⟨text, hencode⟩ := (exists_encode_iff_not_refused hpairs hmeans).2 haccepted
  refine ⟨m.toList, hmeans, fun e format d c s d₁ h hroom => ?_⟩
  rw [← Provides.eq_textOf hencode] at hroom
  exact sets_of_room hroot hne hargs hplain hpairs hcollect hencode h hroom e format

/-- The configuration of a vault at the top that refuses repeated keys. -/
def strictAtTop (kind : StorageKind) : Config where
  root := ⟨"/"⟩
  backend := kind
  duplicates := .reject

/-- A disk with that configuration alone. -/
def withStrictAtTop (kind : StorageKind) : Disk :=
  ⟨.ofList [([Config.fileName], .file (Utf8.encode (strictAtTop kind).text))], []⟩

theorem exists_vaultAt_strict {kind : StorageKind} (hkind : kind ≠ .none) : ∃ s d₁,
    VaultAt ⟨"/"⟩ (strictAtTop kind) s (withStrictAtTop kind) d₁ ∧
      s.HasRoom .provides (Utf8.encode (Provides.textOf [("a", "x=y"), ("b", "")])) := by
  have hsaved : (strictAtTop kind).Saved [] (withStrictAtTop kind) := by
    cases kind <;> exact ⟨rfl, by decide, rfl⟩
  have hvalid : (strictAtTop kind).violation? = none := by cases kind <;> rfl
  have hfits : (strictAtTop kind).partition.FitsWords := by
    cases kind <;> exact ⟨by decide, by decide⟩
  have hconfig : configOf (strictAtTop kind).root (withStrictAtTop kind) = .ok (strictAtTop kind) :=
    configOf_of_saved hsaved hvalid hfits
  have himage : (strictAtTop kind).partition.image ≠ ⟨Config.fileName⟩ := by
    cases kind <;> decide
  cases kind with
  | none => exact absurd rfl hkind
  | file =>
    have hopen := SelectedStorage.open_eq_ok_iff.2
      ⟨rfl, .directory rfl (ItemDirectory.open_of_find hsaved.found)⟩
    refine ⟨_, _, .of_own_root hconfig rfl himage hopen hsaved.found, .directory (by decide) ?_ ?_⟩
    · rw [ItemDirectory.node?_sweep_of_none rfl]
      nofun
    · rw [ItemDirectory.node?_sweep_of_none rfl]
      nofun
  | nvs =>
    have hnew : (strictAtTop .nvs).OpensNew :=
      ⟨⟨by decide, by decide, by decide, by decide⟩, by decide, by decide⟩
    obtain ⟨p, d₁, hitems, hnone, hbank, -⟩ := Config.open_of_free rfl rfl hsaved.found hnew
      (by decide) rfl (by decide)
    have hopen := SelectedStorage.open_eq_ok_iff.2 ⟨rfl, .partition rfl hitems⟩
    refine ⟨_, d₁, .of_own_root hconfig rfl himage hopen hsaved.found, .partition ?_⟩
    rw [hnone, Partition.maxPayload, hbank]
    decide

/-- A command line with two values of a key. -/
def setThree : List String := setLine ⟨"/"⟩ .text ["b=1", "a=x=y", "b="]

/-- Of `b=1`, `a=x=y` and `b=`, the last value of `b` is shown, behind `a`. -/
theorem provides_shown_after_three_pairs :
    Sets ⟨"/"⟩ [("a", "x=y"), ("b", "")] (run {} setThree (withStrictAtTop .file)) ∧
    Sets ⟨"/"⟩ [("a", "x=y"), ("b", "")] (run {} setThree (withStrictAtTop .nvs)) ∧
    Rejects ⟨"/"⟩ (withStrictAtTop .file)
      (run {} (setLine ⟨"/"⟩ .text ["a=1", "b"]) (withStrictAtTop .file)) ∧
    StaysInForce ⟨"/"⟩ (withStrictAtTop .file) := by
  have hroot : (⟨"/"⟩ : Path).text.isEmpty = false := by decide
  have hsets : ∀ kind ≠ StorageKind.none,
      Sets ⟨"/"⟩ [("a", "x=y"), ("b", "")] (run {} setThree (withStrictAtTop kind)) := by
    intro kind hkind
    let m : Provides := (SortedMap.empty.insert "a" "x=y").insert "b" ""
    have hmeans : Means ["b=1", "a=x=y", "b="] m.toList := means_of_collect (n := 1) rfl
    have hpairs : ∀ a ∈ ["b=1", "a=x=y", "b="], ∃ key, Provides.KeyLine a.toList key := by
      simp only [Provides.exists_keyLine_iff]
      decide
    have haccepted := (exists_encode_iff_not_refused hpairs hmeans).1 ⟨_, rfl⟩
    obtain ⟨es, hes, hshown⟩ :=
      (provides_shown_after_set hroot (by simp) (by decide)).2 haccepted (by decide)
    cases hes.unique hmeans
    obtain ⟨s, d₁, hvault, hroom⟩ := exists_vaultAt_strict hkind
    exact hshown {} .text _ _ s d₁ hvault hroom
  have hrefused : Refused ["a=1", "b"] := .inl ⟨"b", by simp, .inl (by decide)⟩
  obtain ⟨s, d₁, hvault, -⟩ := exists_vaultAt_strict (by decide : StorageKind.file ≠ .none)
  exact ⟨hsets .file nofun, hsets .nvs nofun,
    (provides_shown_after_set hroot (by simp) (by decide)).1 hrefused {} .text _,
    hvault.staysInForce⟩

/-- A disk with a directory where the temporary file of the capabilities would be. -/
def withDirectoryTemporary : Disk := ⟨.ofList [(["provides.txt.tmp"], .directory)], []⟩

/-- The configuration of a partition at the top whose image is the file of the configuration. -/
def ownImageAtTop : Config where
  root := ⟨"/"⟩
  backend := .nvs
  partition := { image := ⟨Config.fileName⟩, sectorSize := 128, sectorCount := 2 }

/-- A disk with that configuration alone. -/
def withOwnImage : Disk :=
  ⟨.ofList [([Config.fileName], .file (Utf8.encode ownImageAtTop.text))], []⟩

/-- Its vault can be opened once, with nothing in it, and after that the configuration is gone. -/
theorem getProvides_ownImage : ∃ d₁,
    configOf ownImageAtTop.root d₁ = .error (.loading ownImageAtTop.root (.io .notUtf8)) ∧
    getProvides .text ownImageAtTop.root { disk := withOwnImage }
      = .ok (providesResult .text .empty) { disk := d₁ } := by
  have hsaved : ownImageAtTop.Saved [] withOwnImage := ⟨rfl, by decide, rfl⟩
  have hvalid : ownImageAtTop.violation? = none := rfl
  have hfits : ownImageAtTop.partition.FitsWords := ⟨by decide, by decide⟩
  have hconfig : configOf ownImageAtTop.root withOwnImage = .ok ownImageAtTop :=
    configOf_of_saved hsaved hvalid hfits
  have hread : (SelectedStorage.open ownImageAtTop >>= fun s =>
      pure (Vault.provides .lastWins s)).run' withOwnImage
        = some (.error (.notFound Item.provides.name)) := by decide +kernel
  obtain ⟨_, hrun⟩ := Update.exists_ok_of_run' hread
  obtain ⟨s, d₁, hopen, hanswer⟩ := Update.bind_eq_ok_iff.1 hrun
  have habsent : Vault.provides .lastWins s = .error (.notFound Item.provides.name) :=
    (EStateM.Result.ok.inj hanswer).1
  have hsession : ownImageAtTop.session withOwnImage [] = d₁ := by
    rw [Config.session, hopen]
    exact SelectedStorage.disk_of_open hopen
  have hdamaged := hsaved.load_after_damage hvalid ⟨rfl, rfl, by decide +kernel⟩
  rw [hsession] at hdamaged
  refine ⟨d₁, ?_, getProvides_absent hconfig hopen habsent .text⟩
  rw [configOf, hdamaged]

/-- One pair that is not refused is not stored in a directory that has something in the way. One
that is refused is followed by failure where opening the vault has damaged its configuration. -/
theorem provides_not_set_or_not_kept :
    (configOf ⟨"/"⟩ withDirectoryTemporary = .ok { root := ⟨"/"⟩ } ∧ ¬ Refused ["a=1"] ∧
      (run {} (setLine ⟨"/"⟩ .text ["a=1"]) withDirectoryTemporary).code = 1) ∧
    Refused ["=x"] ∧ (run {} (getLine ⟨"/"⟩ .text) withOwnImage).code = 0 ∧
      (run {} (getLine ⟨"/"⟩ .text)
        (run {} (setLine ⟨"/"⟩ .text ["=x"]) withOwnImage).disk).code = 1 := by
  have hroot : (⟨"/"⟩ : Path).text.isEmpty = false := by decide
  constructor
  · let m : Provides := SortedMap.empty.insert "a" "1"
    have hmeans : Means ["a=1"] m.toList := means_of_collect (n := 1) rfl
    have hpairs : ∀ a ∈ ["a=1"], ∃ key, Provides.KeyLine a.toList key := by
      simp only [Provides.exists_keyLine_iff]
      decide
    refine ⟨rfl, (exists_encode_iff_not_refused hpairs hmeans).1 ⟨_, rfl⟩, ?_⟩
    rw [run_setLine hroot {} (by simp) (by decide)]
    decide +kernel
  · have hrefused : Refused ["=x"] := .inl ⟨"=x", by simp, .inr (by decide)⟩
    obtain ⟨d₁, hconfig, hshown⟩ := getProvides_ownImage
    have hget := Invocation.run_ok (e := {}) (i := ⟨some ⟨"/"⟩, .text, none, .getProvides⟩) hshown
    have hset := rejects_of_refused hroot (by simp) (by decide) hrefused {} .text withOwnImage
    have hagain : getProvides .text ⟨"/"⟩ { disk := d₁ }
        = .error (.loading ownImageAtTop.root (.io .notUtf8)) { disk := d₁ } := by
      rw [getProvides, openStorage_bind]
      exact onVault_unconfigured hconfig
    rw [hset.disk_eq {} .text, run_getLine hroot, hget, run_getLine hroot,
      Invocation.run_error (e := {}) (i := ⟨some ⟨"/"⟩, .text, none, .getProvides⟩) hagain]
    exact ⟨hrefused, rfl, rfl⟩

end UpdateVault.CommandLine
