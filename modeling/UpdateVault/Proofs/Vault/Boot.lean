import UpdateVault.Proofs.Storage.Interchange
import UpdateVault.Proofs.Vault.Lasting

/-!
# The decision at boot

What is decided after a restart follows from what reading the checkpoint's item gives
(`decidesByCheckpoint`): an update goes on only from bytes that are a whole writing of a checkpoint.
A checkpoint that was saved is decided on until the next call about it, whatever is done to the
other records and however often the storage is opened anew (`remembers_of_lasting`).
-/

namespace UpdateVault.Vault

variable {σ : Type} [ItemStorage σ] {s : σ} {c : Checkpoint} {bytes : Bytes} {e : StorageError}

/-! ## Writings of a checkpoint -/

/-- The bytes are a checkpoint in the plain layout, or in an envelope that says how long it is. -/
def WritingOf (c : Checkpoint) (bytes : Bytes) : Prop :=
  checkpointBytes .plain c = .ok bytes ∨
    checkpointBytes .checked c = .ok bytes ∧ c.plainBytes.length < 2 ^ 32

theorem checkpointOf_eq_ok_iff_writingOf : checkpointOf bytes = .ok c ↔ WritingOf c bytes :=
  checkpointOf_eq_ok_iff

theorem not_writingOf_of_error (h : checkpointOf bytes = .error e) (c : Checkpoint) :
    ¬ WritingOf c bytes := by
  intro hc
  rw [checkpointOf_eq_ok_iff_writingOf.2 hc] at h
  cases h

/-! ## Decisions -/

/-- Why an update is rolled back that stopped before its artifact was ever booted. -/
def interruption (phase : Phase) : String := "update interrupted during " ++ phase.name

/-- What is decided once a checkpoint is known. -/
def decisionOf (c : Checkpoint) : BootDecision :=
  if c.phase = .download ∨ c.phase = .install then .rollback (interruption c.phase) else .resume c

theorem decisionFor_ok (c : Checkpoint) : decisionFor (.ok c) = .ok (decisionOf c) := by
  rw [decisionFor, decisionOf]
  cases c.phase <;> rfl

/-- All that reading the checkpoint can give, and what is decided on it. -/
inductive Decided (s : σ) : Except StorageError BootDecision → Prop
  | checkpoint {bytes : Bytes} {c : Checkpoint} :
      read s .checkpoint = .ok bytes → WritingOf c bytes → Decided s (.ok (decisionOf c))
  | corrupt {bytes : Bytes} {fault : Checkpoint.Fault} :
      read s .checkpoint = .ok bytes → (∀ c, ¬ WritingOf c bytes) →
      checkpointOf bytes = .error (.corrupt fault) →
      Decided s (.ok (.rollback (StorageError.corrupt fault).message))
  | absent {name : String} :
      read s .checkpoint = .error (.notFound name) → Decided s (.ok .freshStart)
  | unsupported {capability : String} :
      read s .checkpoint = .error (.notImplemented capability) →
      Decided s (.error (.notImplemented capability))
  | unusable {e : StorageError} :
      read s .checkpoint = .error e → (∀ name, e ≠ .notFound name) →
      (∀ capability, e ≠ .notImplemented capability) → Decided s (.ok (.rollback e.message))

theorem decided (s : σ) : Decided s (bootDecision s) := by
  rw [bootDecision, Vault.checkpoint]
  cases hread : read s .checkpoint with
  | error e =>
    show Decided s (decisionFor (.error e))
    cases e with
    | notFound name => exact .absent hread
    | notImplemented capability => exact .unsupported hread
    | _ =>
      refine .unusable hread (fun name heq => ?_) fun capability heq => ?_
      · cases heq
      · cases heq
  | ok bytes =>
    show Decided s (decisionFor (checkpointOf bytes))
    rcases checkpointOf_ok_or_corrupt bytes with ⟨c, hc⟩ | ⟨fault, hfault⟩
    · rw [hc, decisionFor_ok]
      exact .checkpoint hread (checkpointOf_eq_ok_iff_writingOf.1 hc)
    · rw [hfault]
      exact .corrupt hread (not_writingOf_of_error hfault) hfault

/-- Each of them decides. -/
theorem Decided.eq {decision : Except StorageError BootDecision} (h : Decided s decision) :
    bootDecision s = decision := by
  cases h with
  | @checkpoint bytes c hread hc =>
    rw [bootDecision, Vault.checkpoint, hread, ← decisionFor_ok]
    exact congrArg decisionFor (checkpointOf_eq_ok_iff_writingOf.2 hc)
  | corrupt hread _ hfault =>
    rw [bootDecision, Vault.checkpoint, hread]
    exact congrArg decisionFor hfault
  | absent hread | unsupported hread =>
    rw [bootDecision, Vault.checkpoint, hread]
    rfl
  | @unusable e hread hname hcapability =>
    rw [bootDecision, Vault.checkpoint, hread]
    cases e with
    | notFound name => exact absurd rfl (hname name)
    | notImplemented capability => exact absurd rfl (hcapability capability)
    | _ => rfl

theorem decisionOf_eq_resume_iff {c c' : Checkpoint} :
    decisionOf c = .resume c' ↔ c = c' ∧ c'.phase ≠ .download ∧ c'.phase ≠ .install := by
  rw [decisionOf]
  split
  · rename_i hphase
    refine iff_of_false nofun ?_
    rintro ⟨rfl, hdownload, hinstall⟩
    exact hphase.elim hdownload hinstall
  · rename_i hphase
    obtain ⟨hdownload, hinstall⟩ := not_or.1 hphase
    constructor
    · rintro ⟨⟩
      exact ⟨rfl, hdownload, hinstall⟩
    · rintro ⟨rfl, -⟩
      rfl

theorem decisionOf_eq_rollback_iff {reason : String} :
    decisionOf c = .rollback reason ↔
      (c.phase = .download ∨ c.phase = .install) ∧ reason = interruption c.phase := by
  rw [decisionOf]
  split
  · rename_i hphase
    simp only [hphase, true_and, BootDecision.rollback.injEq]
    exact eq_comm
  · rename_i hphase
    simp [hphase]

theorem decisionOf_ne_freshStart : decisionOf c ≠ .freshStart := by
  rw [decisionOf]
  split <;> nofun

/-- The decision at boot is made by what reading the checkpoint gives, and by nothing else. As it is
no change, it leaves the storage as it is. -/
structure DecidesByCheckpoint (s : σ) : Prop where
  resume : ∀ c, bootDecision s = .ok (.resume c) ↔
    (∃ bytes, read s .checkpoint = .ok bytes ∧ WritingOf c bytes) ∧
      c.phase ≠ .download ∧ c.phase ≠ .install
  freshStart : bootDecision s = .ok .freshStart ↔
    ∃ name, read s .checkpoint = .error (.notFound name)
  failure : ∀ e, bootDecision s = .error e ↔
    read s .checkpoint = .error e ∧ ∃ capability, e = .notImplemented capability
  rollback : ∀ reason, bootDecision s = .ok (.rollback reason) ↔
    (∃ bytes c, read s .checkpoint = .ok bytes ∧ WritingOf c bytes ∧
      (c.phase = .download ∨ c.phase = .install) ∧ reason = interruption c.phase) ∨
    (∃ bytes fault, read s .checkpoint = .ok bytes ∧ (∀ c, ¬ WritingOf c bytes) ∧
      checkpointOf bytes = .error (.corrupt fault) ∧
      reason = (StorageError.corrupt fault).message) ∨
    ∃ e, read s .checkpoint = .error e ∧ (∀ name, e ≠ .notFound name) ∧
      (∀ capability, e ≠ .notImplemented capability) ∧ reason = e.message

theorem decidesByCheckpoint (s : σ) : DecidesByCheckpoint s where
  resume c := by
    constructor
    · intro h
      have hdecided := h ▸ decided s
      generalize hdecision : (.ok (.resume c) : Except StorageError BootDecision) = decision
        at hdecided
      cases hdecided with
      | checkpoint hread hc =>
        obtain ⟨rfl, hphase⟩ := decisionOf_eq_resume_iff.1 (Except.ok.inj hdecision).symm
        exact ⟨⟨_, hread, hc⟩, hphase⟩
      | _ => cases hdecision
    · rintro ⟨⟨bytes, hread, hc⟩, hphase⟩
      rw [(Decided.checkpoint hread hc).eq, decisionOf_eq_resume_iff.2 ⟨rfl, hphase⟩]
  freshStart := by
    constructor
    · intro h
      have hdecided := h ▸ decided s
      generalize hdecision : (.ok .freshStart : Except StorageError BootDecision) = decision
        at hdecided
      cases hdecided with
      | checkpoint hread hc => exact absurd (Except.ok.inj hdecision).symm decisionOf_ne_freshStart
      | absent hread => exact ⟨_, hread⟩
      | _ => cases hdecision
    · rintro ⟨name, hread⟩
      exact (Decided.absent hread).eq
  failure e := by
    constructor
    · intro h
      have hdecided := h ▸ decided s
      cases hdecided with
      | unsupported hread => exact ⟨hread, _, rfl⟩
    · rintro ⟨hread, capability, rfl⟩
      exact (Decided.unsupported hread).eq
  rollback reason := by
    constructor
    · intro h
      have hdecided := h ▸ decided s
      generalize hdecision : (.ok (.rollback reason) : Except StorageError BootDecision) = decision
        at hdecided
      cases hdecided with
      | checkpoint hread hc =>
        exact .inl ⟨_, _, hread, hc, decisionOf_eq_rollback_iff.1 (Except.ok.inj hdecision).symm⟩
      | corrupt hread hnone hfault =>
        cases hdecision
        exact .inr (.inl ⟨_, _, hread, hnone, hfault, rfl⟩)
      | unusable hread hname hcapability =>
        cases hdecision
        exact .inr (.inr ⟨_, hread, hname, hcapability, rfl⟩)
      | _ => cases hdecision
    · rintro (⟨bytes, c, hread, hc, hphase⟩ | ⟨bytes, fault, hread, hnone, hfault, rfl⟩ |
        ⟨e, hread, hname, hcapability, rfl⟩)
      · rw [(Decided.checkpoint hread hc).eq, decisionOf_eq_rollback_iff.2 hphase]
      · exact (Decided.corrupt hread hnone hfault).eq
      · exact (Decided.unusable hread hname hcapability).eq

/-! ## Checkpoints that were saved -/

/-- A checkpoint that was saved decides what is done at every later start, until the next call
about it. -/
def Remembers (reopen : σ → Except StorageError σ) (s : σ) : Prop :=
  ∀ (before after : List Step) (layout : CheckpointLayout) (c : Checkpoint) (s' : σ),
    saveCheckpoint layout c (life reopen s before) = .ok () s' →
    (layout = .checked → (Utf8.encode c.artifactType).length < 2 ^ 32 - 4) →
    (∀ step ∈ after, step.Spares .checkpoint) →
    bootDecision (life reopen s' after) = .ok (decisionOf c) ∧
      ∃ t, reopen (life reopen s' after) = .ok t

theorem saveCheckpoint_eq_ok {layout : CheckpointLayout} {s' : σ}
    (h : saveCheckpoint layout c s = .ok () s') :
    ∃ bytes, checkpointBytes layout c = .ok bytes ∧ write .checkpoint bytes s = .ok () s' := by
  rw [saveCheckpoint] at h
  cases hbytes : checkpointBytes layout c with
  | error e =>
    rw [hbytes] at h
    cases h
  | ok bytes =>
    rw [hbytes] at h
    exact ⟨bytes, rfl, h⟩

theorem writingOf_of_short {layout : CheckpointLayout} (h : checkpointBytes layout c = .ok bytes)
    (hshort : layout = .checked → (Utf8.encode c.artifactType).length < 2 ^ 32 - 4) :
    WritingOf c bytes := by
  cases layout with
  | plain => exact .inl h
  | checked =>
    refine .inr ⟨h, ?_⟩
    have := hshort rfl
    rw [Checkpoint.length_plainBytes, Checkpoint.valueLength]
    omega

/-- **A storage where what was written lasts remembers the checkpoint.** -/
theorem remembers_of_lasting {reopen : σ → Except StorageError σ} (L : LastingItems σ reopen)
    (hs : L.Valid s) : Remembers reopen s := by
  intro before after layout c s' hsave hshort hafter
  obtain ⟨bytes, hbytes, hwrite⟩ := saveCheckpoint_eq_ok hsave
  have hbefore := L.valid_life hs before
  have hs' : L.Valid s' := by
    have hrun : Access.run (.write .checkpoint bytes) (life reopen s before) = .ok () s' := hwrite
    exact Update.after_of_ok hrun ▸ L.valid_run (.write .checkpoint bytes) hbefore
  have hvalid := L.valid_life hs' after
  have hholds := L.holds_life hs' (L.holds_write hbefore hwrite) hafter
  obtain ⟨t, hreopen, -⟩ := L.reopen_eq hvalid
  refine ⟨?_, t, hreopen⟩
  have hne : bytes ≠ [] := Checkpoint.ne_nil_of_encode? (checkpointBytes_eq_ok_iff.1 hbytes)
  have hread : read (life reopen s' after) .checkpoint = .ok bytes := by
    rw [L.read_eq hvalid hholds]
    obtain ⟨b, rest, rfl⟩ := List.exists_cons_of_ne_nil hne
    rfl
  exact (Decided.checkpoint hread (writingOf_of_short hbytes hshort)).eq

/-- **The decision at boot trusts nothing but a whole checkpoint**, and on a directory, a chip with
power and a file that nothing else changes it trusts the one that was saved last. -/
theorem bootDecision_trusts_checkpoint :
    (∀ {σ : Type} [ItemStorage σ] (s : σ), DecidesByCheckpoint s) ∧
    (∀ {root : Path} {d d' : Disk} {s : ItemDirectory}, ItemDirectory.open root d = .ok s d' →
      Remembers ItemDirectory.reopen s) ∧
    (∀ {chip : FlashChip} {p : Partition FlashChip}, Partition.mount chip = .ok p →
      p.maxPayload < 2 ^ 32 → chip.tear = none → Remembers Partition.remount p) ∧
    (∀ {path : Path} {sectorSize sectorCount : Nat} {d d' : Disk} {f : FlashImageFile}
        {p : Partition FlashImageFile},
      FlashImageFile.open path sectorSize sectorCount d = .ok f d' →
      Partition.mount f = .ok p → p.maxPayload < 2 ^ 32 → Remembers Partition.reopenFile p) := by
  refine ⟨fun s => decidesByCheckpoint s, ?directory, ?chip, ?file⟩
  case directory =>
    intro root d d' s hopen
    obtain ⟨hroot, hfound⟩ := ItemDirectory.open_eq_ok hopen
    have hvalid : s.disk.find s.root = .ok (s.place, .directory) := hroot ▸ hfound
    exact remembers_of_lasting ItemDirectory.lasting hvalid
  case chip =>
    intro chip p hmount hsmall htear
    exact remembers_of_lasting Partition.keptItems.lasting
      (Partition.intact_of_mount hmount hsmall htear)
  case file =>
    intro path sectorSize sectorCount d d' f p hopen hmount hsmall
    exact remembers_of_lasting Partition.keptItemsInFile.lasting
      (Partition.valid_of_open hopen hmount hsmall)

theorem bootDecision_trusts_checkpoint_saved :
    (∃ s d s', ItemDirectory.open ⟨"/"⟩ emptyDisk = .ok s d ∧
      saveCheckpoint .checked ⟨.reboot, "rootfs"⟩ s = .ok () s' ∧
      bootDecision (life ItemDirectory.reopen s' [.reopen, .call .deleteKeys, .reopen])
        = .ok (.resume ⟨.reboot, "rootfs"⟩)) ∧
    (∃ p, saveCheckpoint .plain ⟨.install, ""⟩ Partition.blank = .ok () p ∧
      bootDecision (life Partition.remount p [.reopen, .call (.setDeployment [1]), .reopen])
        = .ok (.rollback "update interrupted during install")) ∧
    ∃ f d p, FlashImageFile.open ⟨"/f"⟩ 21 2 emptyDisk = .ok f d ∧ Partition.mount f = .ok p ∧
      Remembers Partition.reopenFile p := by
  obtain ⟨-, hdirectory, hchip, hfile⟩ := bootDecision_trusts_checkpoint
  refine ⟨?_, ?_, ?_⟩
  · have hfind : emptyDisk.find ⟨"/"⟩ = .ok ([], .directory) := by decide
    have hopen := ItemDirectory.open_of_find hfind
    have hnone : ∀ name, (ItemDirectory.sweep emptyDisk ⟨"/"⟩ []).node? [name] = none :=
      fun _ => ItemDirectory.node?_sweep_of_none rfl
    obtain ⟨bytes, hbytes⟩ : ∃ bytes, checkpointBytes .checked ⟨.reboot, "rootfs"⟩ = .ok bytes :=
      exists_checkpointBytes_iff.2 (by decide)
    let s : ItemDirectory := ⟨⟨"/"⟩, [], ItemDirectory.sweep emptyDisk ⟨"/"⟩ []⟩
    obtain ⟨d, hwrite, -⟩ := ItemDirectory.write_of_reach (s := s) bytes
      (by decide : ItemDirectory.reachFault? ⟨"/"⟩ (Item.checkpoint.name ++ ".tmp") = none)
      (by rw [ItemDirectory.temporaryOf, hnone]; exact (Option.some_ne_none _).symm)
      (by rw [ItemDirectory.fileOf, hnone]; exact (Option.some_ne_none _).symm)
    have hsave : saveCheckpoint .checked ⟨.reboot, "rootfs"⟩ s = .ok () { s with disk := d } := by
      rw [saveCheckpoint, hbytes]
      exact hwrite
    exact ⟨s, _, _, hopen, hsave,
      (hdirectory hopen [] _ .checked _ _ hsave (fun _ => by decide) (by decide)).1⟩
  · obtain ⟨p, hwrite, -⟩ := write_blank .checkpoint [1, 0, 0, 0] (by decide)
    have hsave : saveCheckpoint .plain ⟨.install, ""⟩ Partition.blank = .ok () p := hwrite
    have hremembers := hchip Partition.mount_blank (by decide) rfl
    exact ⟨p, hsave, (hremembers [] _ .plain _ _ hsave (by simp) (by decide)).1⟩
  · obtain ⟨f, hopen, -, p, hmount, hsmall⟩ := open_new_image
    exact ⟨f, _, p, hopen, hmount, hfile hopen hmount hsmall⟩

end UpdateVault.Vault
