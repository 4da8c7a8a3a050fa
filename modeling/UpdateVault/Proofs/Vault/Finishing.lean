import UpdateVault.Proofs.Vault.Lasting

/-!
# An update that is finished while power is lost

A call on a partition makes its changes one after the other, each a commit of its own. If power is
lost at any step of any of them, the next mount shows what the first so many changes leave, and
nothing else (`CutOff.mount`). For the end of an update this means that it may be cut off at any
time and be done again (`finishUpdate_after_power_loss`): the checkpoint goes first, so it never
outlives the deployment data it belongs to.
-/

namespace UpdateVault.Vault

open UpdateVault.Partition (PowerCycled keptItems mount)

variable {p p₀ q r : Partition FlashChip} {chip : FlashChip} {access : Access}
  {accesses done : List Access} {item : Item}

/-! ## Changes that are cut off -/

namespace Access

/-- A change of an item as a call on a partition. -/
def call : Access → Partition.Call
  | write item data => .write item.name data
  | delete item => .delete item.name

theorem after_eq (access : Access) (p : Partition FlashChip) :
    access.run.after p = access.call.after p := by
  have hcall : access.call.run.after p = access.call.after p := by
    rw [Update.after, Partition.Call.after]
    cases access.call.run p <;> rfl
  rw [← hcall]
  cases access with
  | write item data => rfl
  | delete item => exact Vault.after_delete item p

end Access

/-- The chips that a loss of power leaves while changes are made one after the other. It comes at
some step of one of them, or when all of them are made. A bank that is cut off does not pass its
checksum by accident. -/
inductive CutOff : List Access → Partition FlashChip → FlashChip → Prop
  | during {access : Access} {rest : List Access} {p : Partition FlashChip} {k : Nat} :
      access.call.CutHonest p k → CutOff (access :: rest) p (access.call.cut p k)
  | later {access : Access} {rest : List Access} {p q : Partition FlashChip} {chip : FlashChip} :
      access.run p = .ok () q → CutOff rest q chip → CutOff (access :: rest) p chip
  | afterwards {p : Partition FlashChip} : CutOff [] p p.device

/-- The chips that a loss of power leaves during a call. -/
def Call.LosesPower (call : Call) (p : Partition FlashChip) (chip : FlashChip) : Prop :=
  ∃ accesses, call.plan = .ok accesses ∧ CutOff accesses p chip

/-- **Of changes that are cut off the first ones are made, and the others are not.** -/
theorem CutOff.mount (h : CutOff accesses p chip) (hp : p.Settled)
    (hsmall : p.maxPayload < 0xFF000000) :
    ∃ q done, done <+: accesses ∧ Partition.mount chip = .ok q ∧ q.Settled ∧
      q.items = ((perform done).after p).items := by
  induction h with
  | @during access rest p k honest =>
    obtain ⟨q, hmount, hq, -, hitems | hcommits⟩ := hp.mount_cut hsmall honest
    · exact ⟨q, [], List.nil_prefix, hmount, hq, hitems⟩
    · refine ⟨q, [access], List.prefix_append _ rest, hmount, hq, ?_⟩
      rw [Call.perform_singleton, access.after_eq, hp.after_of_some hcommits]
      rfl
  | @later access rest p p' chip hrun _ ih =>
    have hafter : access.call.after p = p' := by rw [← access.after_eq, Update.after_of_ok hrun]
    have hp' : p'.Settled := hafter ▸ hp.after access.call
    have hmax : p'.maxPayload = p.maxPayload := hafter ▸ hp.maxPayload_after access.call
    obtain ⟨q, done, hpre, hmount, hq, hitems⟩ := ih hp' (hmax ▸ hsmall)
    refine ⟨q, access :: done, List.cons_prefix_cons.2 ⟨rfl, hpre⟩, hmount, hq, ?_⟩
    rw [hitems, Update.after, Update.after, perform, Update.bind_ok hrun]
  | @afterwards p => exact ⟨p, [], List.nil_prefix, hp.mounts, hp, rfl⟩

/-! ## Items that are gone -/

/-- Deletions go through one after the other, and take away nothing but their items. -/
theorem perform_deletions (hp : p.Intact) (gone : List Item) :
    ∃ q, perform (gone.map .delete) p = .ok () q ∧ q.Intact ∧
      ∀ item, q.stored? item = if item ∈ gone then none else p.stored? item := by
  induction gone generalizing p with
  | nil => exact ⟨p, rfl, hp, fun item => by simp⟩
  | cons first rest ih =>
    obtain ⟨t, hdelete, ht, hstored⟩ := keptItems.delete_eq first hp
    obtain ⟨q, hrest, hq, hgone⟩ := ih ht
    refine ⟨q, (Update.bind_ok hdelete).trans hrest, hq, fun item => ?_⟩
    have hfirst : t.stored? item = Function.update p.stored? first none item :=
      congrFun hstored item
    rw [hgone, hfirst, Function.update_apply]
    by_cases heq : item = first
    · simp [heq]
    · simp [heq]

/-- Deleting what is not there does nothing at all. -/
theorem delete_of_none (h : p.stored? item = none) : delete item p = .ok () p := by
  have hget : p.items.get? item.id = none := h
  have hrun : ItemStorage.delete item.name p = .error (.notFound item.name) p := by
    show Partition.delete item.name p = _
    simp [Partition.delete, Partition.Call.idOf_eq (Item.ofName?_name item), SortedMap.contains,
      hget]
  rw [delete, hrun]
  rfl

theorem read_of_stored? (h : q.stored? item = p.stored? item) : read q item = read p item := by
  have hread : read q item = item.answer (q.stored? item) := Partition.Intact.read_eq item
  rw [hread, h]
  exact (Partition.Intact.read_eq item).symm

theorem read_of_none (h : p.stored? item = none) :
    read p item = .error (.notFound item.name) := by
  have hread : read p item = item.answer (p.stored? item) := Partition.Intact.read_eq item
  rw [hread, h]
  rfl

theorem checkpoint_of_none (h : p.stored? .checkpoint = none) :
    checkpoint p = .error (.notFound Item.checkpoint.name) := by
  rw [checkpoint, read_of_none h]
  rfl

/-! ## The end of an update -/

/-- Finishing an update is deleting the checkpoint and then the deployment data. -/
theorem finishUpdate_eq_perform : (finishUpdate : Update StorageError (Partition FlashChip) Unit)
    = perform ([Item.checkpoint, .deployment].map .delete) :=
  (Call.perform_pair (.delete .checkpoint) (.delete .deployment)).symm

theorem finishUpdate_of_none (hcheckpoint : p.stored? .checkpoint = none)
    (hdeployment : p.stored? .deployment = none) : finishUpdate p = .ok () p :=
  (Update.bind_ok (delete_of_none hcheckpoint)).trans (delete_of_none hdeployment)

/-- What a mount shows after the end of an update was cut off, given what was there before. -/
structure CutOffFinish (p q : Partition FlashChip) : Prop where
  /-- Nothing else is decided at boot, unless the checkpoint is gone. -/
  decision : bootDecision q = bootDecision p ∨ bootDecision q = .ok .freshStart
  /-- The deployment data goes after the checkpoint. -/
  order : p.stored? .deployment ≠ none → q.stored? .deployment = none →
    q.stored? .checkpoint = none
  deploymentData : deployment q = deployment p ∨
    deployment q = .error (.notFound Item.deployment.name) ∧
      checkpoint q = .error (.notFound Item.checkpoint.name)
  keys : keys q = keys p
  provides : ∀ policy, provides policy q = provides policy p
  artifactName : artifactName q = artifactName p
  /-- The update can be finished again, and once more to no effect. -/
  again : ∃ r, finishUpdate q = .ok () r ∧
    r.stored? .checkpoint = none ∧ checkpoint r = .error (.notFound Item.checkpoint.name) ∧
    r.stored? .deployment = none ∧ deployment r = .error (.notFound Item.deployment.name) ∧
    finishUpdate r = .ok () r

/-- Some of the two items are gone, and the deployment data only if the checkpoint is. -/
theorem cutOffFinish_of_gone {gone : List Item} (hq : q.Intact)
    (hpre : gone <+: [.checkpoint, .deployment])
    (hgone : ∀ item, q.stored? item = if item ∈ gone then none else p.stored? item) :
    CutOffFinish p q := by
  have hother : ∀ item, item ∉ gone → read q item = read p item := fun item hitem =>
    read_of_stored? (by rw [hgone, if_neg hitem])
  have hnone : ∀ item, item ∈ gone → q.stored? item = none := fun item hitem => by
    rw [hgone, if_pos hitem]
  have hsub : ∀ item, item ∉ [Item.checkpoint, .deployment] → item ∉ gone :=
    fun item hitem hmem => hitem (hpre.subset hmem)
  have hfirst : .deployment ∈ gone → .checkpoint ∈ gone := by
    intro hmem
    rcases List.prefix_cons_iff.1 hpre with rfl | ⟨rest, rfl, -⟩
    · cases hmem
    · exact List.mem_cons_self
  refine ⟨?decision, ?order, ?deploymentData, ?keys, ?provides, ?artifactName, ?again⟩
  case decision =>
    by_cases hcheckpoint : .checkpoint ∈ gone
    · refine .inr ?_
      rw [bootDecision, checkpoint_of_none (hnone _ hcheckpoint)]
      rfl
    · refine .inl ?_
      simp only [bootDecision, checkpoint, hother _ hcheckpoint]
  case order =>
    intro hbefore hafter
    by_cases hdeployment : .deployment ∈ gone
    · exact hnone _ (hfirst hdeployment)
    · rw [hgone, if_neg hdeployment] at hafter
      exact absurd hafter hbefore
  case deploymentData =>
    by_cases hdeployment : .deployment ∈ gone
    · exact .inr ⟨read_of_none (hnone _ hdeployment),
        checkpoint_of_none (hnone _ (hfirst hdeployment))⟩
    · exact .inl (hother _ hdeployment)
  case keys =>
    simp only [keys, hother .privateKey (hsub _ (by decide)),
      hother .publicKey (hsub _ (by decide))]
  case provides =>
    intro policy
    simp only [provides, hother .provides (hsub _ (by decide))]
  case artifactName => simp only [artifactName, hother .artifactName (hsub _ (by decide))]
  case again =>
    obtain ⟨r, hfinish, hr, hleft⟩ := perform_deletions hq [.checkpoint, .deployment]
    have hcheckpoint : r.stored? .checkpoint = none := hleft .checkpoint
    have hdeployment : r.stored? .deployment = none := hleft .deployment
    exact ⟨r, finishUpdate_eq_perform ▸ hfinish, hcheckpoint, checkpoint_of_none hcheckpoint,
      hdeployment, read_of_none hdeployment, finishUpdate_of_none hcheckpoint hdeployment⟩

/-- Changes that are made lead a settled partition to settled partitions. -/
theorem settled_after_perform (hp : p.Settled) (accesses : List Access) :
    ((perform accesses).after p).Settled :=
  Call.after_perform (fun access _ _ hs => access.after_eq _ ▸ hs.after access.call) hp

/-- The changes that finish an update are those that the call makes, and on the way each of them
takes the steps that a cut counts. -/
structure FinishesBy (accesses : List Access) (p : Partition FlashChip) : Prop where
  planned : Call.finishUpdate.plan = .ok accesses
  performed : (finishUpdate : Update StorageError (Partition FlashChip) Unit) = perform accesses
  stepwise : ∀ done access, done ++ [access] <+: accesses →
    access.call.TakesSteps ((perform done).after p)

/-- **Finishing an update may be cut off at any time and done again.** -/
theorem finishUpdate_after_power_loss {image : Bytes} {sectorSize : Nat}
    (hmount : mount (FlashChip.ofImage image sectorSize) = .ok p₀)
    (hsmall : p₀.maxPayload < 0xFF000000) (hp : PowerCycled p₀ p)
    (hloss : Call.finishUpdate.LosesPower p chip) :
    (∃ accesses, FinishesBy accesses p) ∧ ∃ q, mount chip = .ok q ∧ CutOffFinish p q := by
  have hp₀ := Partition.settled_of_mount hmount (hsmall.trans (by decide)) rfl
  obtain ⟨hsettled, hmax⟩ := hp.settled hp₀ hsmall
  obtain ⟨accesses, hplan, hcut⟩ := hloss
  cases hplan
  obtain ⟨q, done, hpre, hq, hsettled', hitems⟩ := hcut.mount hsettled (hmax.symm ▸ hsmall)
  obtain ⟨gone, hgone, rfl⟩ : ∃ gone, gone <+: [Item.checkpoint, .deployment] ∧
      done = gone.map .delete := List.prefix_map_iff.1 hpre
  obtain ⟨p', hperform, -, hstored⟩ := perform_deletions hsettled.intact gone
  rw [Update.after_of_ok hperform] at hitems
  refine ⟨⟨_, rfl, finishUpdate_eq_perform, fun done access _ =>
    (settled_after_perform hsettled done).takesSteps access.call⟩,
    q, hq, cutOffFinish_of_gone hsettled'.intact hgone fun item => ?_⟩
  rw [← hstored]
  exact congrArg (·.get? item.id) hitems

/-- A partition of two erased sectors. -/
def unwritten : Partition FlashChip :=
  { device := .ofImage (Bytes.erased 80) 40, bankLength := 40, items := .empty, active := none
    sequence := 0 }

/-- A partition with deployment data and a checkpoint. -/
def inProgress : Partition FlashChip :=
  (Partition.Call.write Item.checkpoint.name [1, 0, 0, 0]).after
    ((Partition.Call.write Item.deployment.name [7]).after unwritten)

/-- The last byte of the table without the checkpoint is cut off. -/
theorem finishUpdate_after_power_loss_inProgress :
    bootDecision inProgress = .ok (.rollback "update interrupted during install") ∧
    (∃ accesses, FinishesBy accesses inProgress) ∧
    ∃ q, mount ((Partition.Call.delete Item.checkpoint.name).cut inProgress 27) = .ok q ∧
      CutOffFinish inProgress q := by
  have hmount : mount (FlashChip.ofImage (Bytes.erased 80) 40) = .ok unwritten := rfl
  have honest : (Access.delete .checkpoint).call.CutHonest inProgress 27 :=
    Partition.Call.cutHonest_of_none (by decide +kernel)
  exact ⟨by decide +kernel, finishUpdate_after_power_loss hmount (by decide)
    (.call _ (.call _ .mounted)) ⟨_, rfl, .during honest⟩⟩

end UpdateVault.Vault
