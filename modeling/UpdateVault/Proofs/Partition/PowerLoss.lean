import UpdateVault.Proofs.Partition.Steps

/-!
# Losing power

Power may be lost after any number of the steps of a call (`Call.TakesSteps`). A cut leaves the bank
in charge alone, so the chip mounts to the table before the call or the one after it
(`Settled.mount_cut`), and whatever the mount gives is settled again. So no history of calls and
cuts ever loses more than the call that was cut off last (`mount_after_power_loss`).
-/

namespace UpdateVault.Partition

open FlashChip (runSteps)

variable {p p₀ q : Partition FlashChip} {k : Nat} {call : Call} {table : ItemTable}

/-! ## Calls that are cut off -/

namespace Call

/-- The chip when power is lost after some of the steps of a call. -/
def cut (call : Call) (p : Partition FlashChip) (k : Nat) : FlashChip :=
  match runSteps ((call.steps p).take k) p.device with
  | .ok () chip => chip
  | .error _ chip => chip

/-- The steps of a call are those that the chip is told to take. Who takes all of them has made the
call, and a chip that was told to lose its power during the next programming has taken the first so
many. -/
structure TakesSteps (call : Call) (p : Partition FlashChip) : Prop where
  recorded : call.record p = ⟨(call.after p).device, call.steps p⟩
  completed : call.cut p (call.steps p).length = (call.after p).device
  torn : ∀ table k, call.commits? p = some table → k < (p.nextImage table).length →
    (call.after (p.withDevice (p.device.tearNext k))).device
      = call.cut p (p.bankLength / p.device.sectorSize + k)

/-- If a cut has touched the target bank, that bank does not pass its checksum by accident. -/
def CutHonest (call : Call) (p : Partition FlashChip) (k : Nat) : Prop :=
  ∀ table, call.commits? p = some table → 0 < k →
    Bank.Honest table.encode (bankBytes (call.cut p k) p.bankLength p.target)

/-- A bank that does not pass its checksum at all does not pass it by accident. -/
theorem cutHonest_of_none
    (h : Bank.passing? (bankBytes (call.cut p k) p.bankLength p.target) = none) :
    call.CutHonest p k := by
  intro table _ _ held hheld
  cases h.symm.trans hheld

theorem cut_eq (call : Call) (p : Partition FlashChip) (k : Nat) :
    call.cut p k = (runSteps ((call.steps p).take k)).after p.device := by
  rw [cut, Update.after]
  cases runSteps ((call.steps p).take k) p.device <;> rfl

theorem cut_zero : call.cut p 0 = p.device := by
  rw [cut, List.take_zero]
  rfl

theorem cut_of_none (h : call.commits? p = none) : call.cut p k = p.device := by
  rw [cut, steps, h]
  simp only [List.take_nil]
  rfl

theorem cut_of_le (h : p.Sound) (hcommits : call.commits? p = some table)
    (hk : k ≤ p.bankLength / p.device.sectorSize) :
    call.cut p k = wiped p.device p.bankLength p.target k := by
  rw [cut, steps, hcommits]
  simp only [runSteps_take_of_le h.banks h.inRange hk]

theorem cut_of_ge (h : p.Sound) (htear : p.device.tear = none)
    (hcommits : call.commits? p = some table) (hk : p.bankLength / p.device.sectorSize ≤ k) :
    call.cut p k = (p.cutOff ((p.nextImage table).take
      (k - p.bankLength / p.device.sectorSize))).device := by
  have hfit := nextImage_length_le h.banks (commits?_eq_some_iff.1 hcommits).2.2
  rw [cut, steps, hcommits]
  simp only [runSteps_take_of_ge h.banks h.inRange htear hfit hk]
  rfl

end Call

/-- Erased sectors at the front of the target bank leave nothing in it. -/
theorem Sound.stale_wiped (h : p.Sound) (hpos : 0 < k)
    (hk : k ≤ p.bankLength / p.device.sectorSize) :
    (p.withDevice (wiped p.device p.bankLength p.target k)).stale = none := by
  have hsectors : k * p.device.sectorSize ≤ p.bankLength :=
    (Nat.mul_le_mul_right _ hk).trans (Nat.le_of_eq h.banks.sectors_mul)
  obtain ⟨n, hn⟩ : ∃ n, k * p.device.sectorSize = n + 1 :=
    Nat.exists_eq_succ_of_ne_zero (Nat.pos_iff_ne_zero.1 (Nat.mul_pos hpos h.banks.sectorSize_pos))
  refine Bank.ofBytes?_of_not_magic ?_
  show (bankBytes (wiped p.device p.bankLength p.target k) p.bankLength p.target).take 4 ≠ _
  rw [bankBytes_wiped_self h.banks p.target hsectors, hn, Bytes.erased, List.replicate_succ]
  simp [Bank.magic]

namespace Settled

/-- A call that runs to its end takes all of its steps. -/
theorem after_device (h : p.Settled) (call : Call) :
    (call.after p).device = call.cut p (call.steps p).length := by
  cases hcommits : call.commits? p with
  | none => rw [Call.after_of_none hcommits, Call.cut_of_none hcommits]
  | some table =>
    have hlength : (call.steps p).length
        = p.bankLength / p.device.sectorSize + (p.nextImage table).length := by
      simp only [Call.steps, hcommits, bankSteps]
      rw [List.length_append, FlashChip.length_eraseSteps, FlashChip.length_programSteps]
    rw [h.after_of_some hcommits, hlength,
      Call.cut_of_ge h.sound h.powered hcommits (Nat.le_add_right _ _), Nat.add_sub_cancel_left,
      List.take_length]
    rfl

/-- A chip that was told to lose its power during the next programming is cut off, too. -/
theorem after_tearNext_device (h : p.Settled) (hcommits : call.commits? p = some table)
    (hk : k < (p.nextImage table).length) :
    (call.after (p.withDevice (p.device.tearNext k))).device
      = call.cut p (p.bankLength / p.device.sectorSize + k) := by
  have hsound : (p.withDevice (p.device.tearNext k)).Sound := h.sound.withDevice
    (h.sound.banks.of_length_eq rfl rfl) rfl
  have hcut := Call.cut_of_ge h.sound h.powered hcommits
    (Nat.le_add_right (p.bankLength / p.device.sectorSize) k)
  have hfit := (Call.commits?_eq_some_iff.1 hcommits).2.2
  have hcommits' : call.commits? (p.withDevice (p.device.tearNext k)) = some table := hcommits
  rw [hcut, Nat.add_sub_cancel_left, Call.after, Call.run_of_some hcommits',
    commit_of_lt hsound hfit hk]
  rfl

theorem takesSteps (h : p.Settled) (call : Call) : call.TakesSteps p :=
  ⟨Call.record_eq h.sound call, (h.after_device call).symm,
    fun _ _ hcommits hk => h.after_tearNext_device hcommits hk⟩

/-! ## Mounting after a cut -/

/-- The first bytes of an image leave nothing in the target bank, or its table. -/
theorem stale_cutOff_take (h : p.Settled) (hsmall : p.maxPayload < 0xFF000000)
    (hfit : table.encode.length ≤ p.maxPayload)
    (honest : Bank.Honest table.encode
      (bankBytes (p.cutOff ((p.nextImage table).take k)).device p.bankLength p.target)) :
    (p.cutOff ((p.nextImage table).take k)).stale = none ∨
      (p.cutOff ((p.nextImage table).take k)).stale = some ⟨p.sequence + 1, table⟩ := by
  have hdecode : (ItemTable.decode? table.encode).map (⟨p.sequence + 1, ·⟩)
      = some (⟨p.sequence + 1, table⟩ : Bank.Content) := by
    rw [ItemTable.decode?_encode (ItemTable.items_lt_of_encode_le hfit h.sound.small)]
    rfl
  rcases Nat.lt_or_ge k (p.nextImage table).length with hk | hk
  · have hbank := h.sound.bankBytes_cutOff hfit (Nat.le_of_lt hk)
    have hstale : (p.cutOff ((p.nextImage table).take k)).stale
        = Bank.ofBytes? (Bank.torn (p.sequence + 1) table.encode k p.bankLength) :=
      congrArg Bank.ofBytes? hbank
    rw [hbank] at honest
    rw [nextImage, Bank.length_image] at hk
    rw [hstale, ← hdecode]
    exact Bank.ofBytes?_torn hk (headerLength_add_le h.sound.banks hfit) hsmall honest
  · rw [List.take_of_length_le hk]
    exact .inr (h.sound.held_target_committed hfit)

/-- **A cut leaves the table before the call or the one after it.** -/
theorem mount_cut (h : p.Settled) (hsmall : p.maxPayload < 0xFF000000)
    (honest : call.CutHonest p k) :
    ∃ q, mount (call.cut p k) = .ok q ∧ q.Settled ∧ q.maxPayload = p.maxPayload ∧
      (q.items = p.items ∨ call.commits? p = some q.items) := by
  cases hcommits : call.commits? p with
  | none =>
    rw [Call.cut_of_none hcommits]
    exact ⟨p, h.mounts, h, rfl, .inl rfl⟩
  | some table =>
    have hfit := (Call.commits?_eq_some_iff.1 hcommits).2.2
    rcases Nat.eq_zero_or_pos k with rfl | hpos
    · rw [Call.cut_zero]
      exact ⟨p, h.mounts, h, rfl, .inl rfl⟩
    rcases Nat.lt_or_ge (p.bankLength / p.device.sectorSize) k with hk | hk
    · -- the bank is erased, and took some bytes of the image
      have hcut := Call.cut_of_ge h.sound h.powered hcommits (Nat.le_of_lt hk)
      have honest' := honest table hcommits hpos
      rw [hcut] at honest' ⊢
      have htake : ((p.nextImage table).take (k - p.bankLength / p.device.sectorSize)).length
          ≤ p.bankLength := by
        have := nextImage_length_le h.sound.banks hfit
        rw [List.length_take]
        omega
      have hmount := (h.sound.cutOff htake).mount_eq
      rcases h.stale_cutOff_take hsmall hfit honest' with hstale | hstale
      · rw [hstale] at hmount
        exact ⟨_, hmount, settled_of_mount hmount h.sound.small rfl, rfl, .inl rfl⟩
      · have htakes : (p.cutOff ((p.nextImage table).take
            (k - p.bankLength / p.device.sectorSize))).TakesOver ⟨p.sequence + 1, table⟩ :=
          takesOver_succ p table
        rw [hstale, remounted, if_pos htakes] at hmount
        exact ⟨_, hmount, settled_of_mount hmount h.sound.small rfl, rfl, .inr rfl⟩
    · -- some sectors of the bank are erased
      have hsectors : k * p.device.sectorSize ≤ p.bankLength :=
        (Nat.mul_le_mul_right _ hk).trans (Nat.le_of_eq h.sound.banks.sectors_mul)
      have hsound := h.sound.withDevice (h.sound.banks.wiped p.target hsectors)
        (bankBytes_wiped_other h.sound.banks p.target hsectors)
      have hmount := hsound.mount_eq
      rw [h.sound.stale_wiped hpos hk] at hmount
      rw [Call.cut_of_le h.sound hcommits hk]
      exact ⟨_, hmount, settled_of_mount hmount h.sound.small h.powered, rfl, .inl rfl⟩

end Settled

/-! ## Power cycles -/

/-- The partitions that calls and losses of power lead to. -/
inductive PowerCycled (p₀ : Partition FlashChip) : Partition FlashChip → Prop
  | mounted : PowerCycled p₀ p₀
  | call {p : Partition FlashChip} (call : Call) :
      PowerCycled p₀ p → PowerCycled p₀ (call.after p)
  | cut {p q : Partition FlashChip} (call : Call) (k : Nat) :
      PowerCycled p₀ p → call.CutHonest p k → mount (call.cut p k) = .ok q → PowerCycled p₀ q

theorem PowerCycled.settled (h : PowerCycled p₀ p) (hp₀ : p₀.Settled)
    (hsmall : p₀.maxPayload < 0xFF000000) : p.Settled ∧ p.maxPayload = p₀.maxPayload := by
  induction h with
  | mounted => exact ⟨hp₀, rfl⟩
  | call call _ ih => exact ⟨ih.1.after call, (ih.1.maxPayload_after call).trans ih.2⟩
  | cut call k _ honest hmount ih =>
    obtain ⟨r, hr, hsettled, hmax, -⟩ := ih.1.mount_cut (ih.2.symm ▸ hsmall) honest
    rw [hmount] at hr
    cases hr
    exact ⟨hsettled, hmax.trans ih.2⟩

/-- **No power cycle loses more than the call it cuts off.** Whatever calls and cuts came before,
the chip mounts to the table in memory, and so it does after one more call that completes. After
one more cut, at any of the steps that a call takes, it mounts to that table or to the one the call
was to leave behind, which differs from it in the item of the call only. -/
theorem mount_after_power_loss {image : Bytes} {sectorSize : Nat}
    (hmount : mount (FlashChip.ofImage image sectorSize) = .ok p₀)
    (hsmall : p₀.maxPayload < 0xFF000000) (hp : PowerCycled p₀ p) :
    mount p.device = .ok p ∧
      (∀ (call : Call) (q : Partition FlashChip), call.run p = .ok () q →
        mount q.device = .ok q ∧ call.applied? p.items = some q.items) ∧
      (∀ call : Call, call.TakesSteps p) ∧
      ∀ (call : Call) (k : Nat), call.CutHonest p k →
        ∃ q, mount (call.cut p k) = .ok q ∧
          (q.items = p.items ∨ call.applied? p.items = some q.items) ∧
          ∀ id, (∀ item, call.item? = some item → item.id ≠ id) →
            q.items.get? id = p.items.get? id := by
  have hp₀ := settled_of_mount hmount (hsmall.trans (by decide)) rfl
  obtain ⟨hsettled, hmax⟩ := hp.settled hp₀ hsmall
  refine ⟨hsettled.mounts, fun call q hrun => ?_, hsettled.takesSteps, fun call k honest => ?_⟩
  · have hafter : call.after p = q := by rw [Call.after, hrun]
    refine ⟨hafter ▸ (hsettled.after call).mounts, hsettled.applied_of_ok hrun⟩
  · obtain ⟨q, hq, -, -, hold | hnew⟩ := hsettled.mount_cut (hmax.symm ▸ hsmall) honest
    · exact ⟨q, hq, .inl hold, fun id _ => by rw [hold]⟩
    · have happlied := (Call.commits?_eq_some_iff.1 hnew).1
      exact ⟨q, hq, .inr happlied, fun id hid => Call.get?_of_applied happlied hid⟩

/-- The partition of a chip with two erased sectors. -/
def blank : Partition FlashChip :=
  { device := .ofImage (Bytes.erased 64) 32, bankLength := 32, items := .empty, active := none
    sequence := 0 }

theorem mount_blank : mount (FlashChip.ofImage (Bytes.erased 64) 32) = .ok blank := rfl

/-- The same partition with an item in its first bank. -/
def withKey : Partition FlashChip := (Call.write "key.der" [1]).after blank

/-- What it is mounted as when the next write has lost the last byte of its image. -/
def interrupted : Partition FlashChip :=
  { withKey with device := (Call.write "key.der" [2]).cut withKey 27 }

/-- A write loses the last byte of its image. After the mount the next one is cut off, too, among
the bytes of its checksum. -/
theorem mount_after_power_loss_interrupted :
    PowerCycled blank interrupted ∧ mount interrupted.device = .ok interrupted ∧
      interrupted.items.get? Item.privateKey.id = some [1] ∧
      (Call.write "key.der" [3]).TakesSteps interrupted ∧
      ∃ q, mount ((Call.write "key.der" [3]).cut interrupted 20) = .ok q ∧
        (q.items = interrupted.items ∨
          (Call.write "key.der" [3]).applied? interrupted.items = some q.items) := by
  have hcut : (Call.write "key.der" [2]).CutHonest withKey 27 :=
    Call.cutHonest_of_none (by decide +kernel)
  have hcut' : (Call.write "key.der" [3]).CutHonest interrupted 20 :=
    Call.cutHonest_of_none (by decide +kernel)
  have hcycled : PowerCycled blank interrupted :=
    .cut (.write "key.der" [2]) 27 (.call (.write "key.der" [1]) .mounted) hcut (by decide +kernel)
  obtain ⟨hmounts, -, hsteps, hloss⟩ := mount_after_power_loss mount_blank (by decide) hcycled
  obtain ⟨q, hq, hitems, -⟩ := hloss (.write "key.der" [3]) 20 hcut'
  exact ⟨hcycled, hmounts, by decide +kernel, hsteps _, q, hq, hitems⟩

end UpdateVault.Partition
