import UpdateVault.Proofs.Partition.Capacity
import UpdateVault.Proofs.Storage.Partition

/-!
# The numbers of the two banks

A partition is in step when its bank in charge holds what is in memory and the sequence number of
the other bank, if that bank holds anything, is one away. A commit keeps it in step wherever it is
cut off (`InStep.cut`): until the header of the target bank has its length that bank holds nothing,
and from then on its number is the next one, whatever the checksum is worth. So a partition that
starts erased stays in step through all that can happen to it (`banks_in_step`), and no call of it
ever touches the bank in charge.
-/

namespace UpdateVault

open FlashChip (FlashStep runSteps)

/-- Sequence numbers that are one apart, where the numbers wrap around. -/
def Bank.Adjacent (m n : UInt32) : Prop := m = n + 1 ∨ n = m + 1

theorem Bank.Adjacent.symm {m n : UInt32} (h : Bank.Adjacent m n) : Bank.Adjacent n m := Or.symm h

/-- A cell is one of a bank. -/
def Bank.Spans (bankLength : Nat) (bank : Bank) (cell : Nat) : Prop :=
  bank.base bankLength ≤ cell ∧ cell < bank.base bankLength + bankLength

namespace Partition

open Bank (Content)

variable {p p₀ q : Partition FlashChip} {chip : FlashChip} {len k : Nat} {bank : Bank}
  {call : Call} {table : ItemTable} {data : Bytes}

/-! ## What a call touches -/

/-- The steps that write a bank touch that bank only. -/
theorem spans_of_touches (h : HasBanks chip len) (hfit : data.length ≤ len) {step : FlashStep}
    (hstep : step ∈ bankSteps chip len bank data) {cell : Nat}
    (htouches : step.Touches chip.sectorSize cell) : bank.Spans len cell := by
  rcases List.mem_append.1 hstep with herase | hprogram
  · obtain ⟨sector, hle, hlt, rfl⟩ := FlashChip.mem_eraseSteps herase
    obtain ⟨hfrom, hto⟩ := htouches
    have hend : (bank.base len / chip.sectorSize + len / chip.sectorSize) * chip.sectorSize
        = bank.base len + len := by rw [Nat.add_mul, h.first_mul, h.sectors_mul]
    have hlow : bank.base len ≤ sector * chip.sectorSize :=
      h.first_mul bank ▸ Nat.mul_le_mul_right chip.sectorSize hle
    have hhigh : (sector + 1) * chip.sectorSize ≤ bank.base len + len :=
      hend ▸ Nat.mul_le_mul_right chip.sectorSize hlt
    exact ⟨hlow.trans hfrom, Nat.lt_of_lt_of_le hto hhigh⟩
  · obtain ⟨address, byte, hle, hlt, rfl⟩ := FlashChip.mem_programSteps hprogram
    obtain rfl : cell = address := htouches
    exact ⟨hle, by omega⟩

theorem not_spans_other {cell : Nat} (h : bank.Spans len cell) : ¬ bank.other.Spans len cell := by
  obtain ⟨hle, hlt⟩ := h
  rintro ⟨hle', hlt'⟩
  have := base_disjoint len bank
  omega

/-- A call has no step that touches the bank in charge. -/
theorem Call.not_spans_of_touches (h : p.Sound) (call : Call) (hactive : p.active = some bank)
    {step : FlashStep} (hstep : step ∈ call.steps p) {cell : Nat}
    (htouches : step.Touches p.device.sectorSize cell) : ¬ bank.Spans p.bankLength cell := by
  rw [Call.steps] at hstep
  split at hstep
  · cases hstep
  · rename_i table hcommits
    have hfit := nextImage_length_le h.banks (Call.commits?_eq_some_iff.1 hcommits).2.2
    exact target_other_of_active hactive ▸
      not_spans_other (spans_of_touches h.banks hfit hstep htouches)

/-! ## Where a cut leaves the chip -/

/-- A cut leaves the target bank partly erased, or erased with the front of the image in it. -/
theorem Call.cut_cases (h : p.Sound) (hcommits : call.commits? p = some table) :
    (k ≤ p.bankLength / p.device.sectorSize ∧
      call.cut p k = wiped p.device p.bankLength p.target k) ∨
    ∃ j tear, call.cut p k = { (p.cutOff ((p.nextImage table).take j)).device with tear } := by
  rcases Nat.le_total k (p.bankLength / p.device.sectorSize) with hk | hk
  · exact .inl ⟨hk, Call.cut_of_le h hcommits hk⟩
  · have hfit := nextImage_length_le h.banks (Call.commits?_eq_some_iff.1 hcommits).2.2
    have hinside : p.target.base p.bankLength
        + ((p.nextImage table).take (k - p.bankLength / p.device.sectorSize)).length ≤ _ :=
      inside_wiped h.banks ((List.length_take_le' _ _).trans hfit)
    obtain ⟨j, tear, hafter⟩ := FlashChip.after_programSteps hinside
    have hcut : call.cut p k = (runSteps ((bankSteps p.device p.bankLength p.target
        (p.nextImage table)).take k)).after p.device := by
      rw [Call.cut_eq, Call.steps, hcommits]
    rw [Update.after, runSteps_take_eq h.banks h.inRange hk] at hcut
    refine .inr ⟨min j (k - p.bankLength / p.device.sectorSize), tear, ?_⟩
    rw [hcut]
    refine hafter.trans ((wiped_programAt h.banks tear).trans ?_)
    rw [List.take_take]
    rfl

/-! ## Partitions in step -/

/-- The bank in charge holds what is in memory, and a content of the other bank has the number
before or after it. -/
structure InStep (p : Partition FlashChip) : Prop where
  sound : p.Sound
  room : p.maxPayload < 0xFF000000
  beside : ∀ c, p.stale = some c → Bank.Adjacent c.sequence p.sequence

namespace InStep

/-- A loss of power that is still to come does not matter. -/
theorem withTear (h : p.InStep) (tear : Option Nat) :
    (p.withDevice { p.device with tear }).InStep :=
  ⟨h.sound.withDevice (h.sound.banks.of_length_eq rfl rfl) rfl, h.room, h.beside⟩

/-- What the front of an image makes of the target bank has the next number. -/
theorem sequence_of_cutOff (h : p.InStep) (hfit : table.encode.length ≤ p.maxPayload) {c : Content}
    (hc : (p.cutOff ((p.nextImage table).take k)).stale = some c) :
    c.sequence = p.sequence + 1 := by
  rcases Nat.lt_or_ge k (p.nextImage table).length with hk | hk
  · have hbank := h.sound.bankBytes_cutOff hfit (Nat.le_of_lt hk)
    have htorn : Bank.ofBytes? (Bank.torn (p.sequence + 1) table.encode k p.bankLength) = some c :=
      hbank ▸ hc
    rw [nextImage, Bank.length_image] at hk
    exact Bank.sequence_of_torn hk (headerLength_add_le h.sound.banks hfit) h.room htorn
  · rw [List.take_of_length_le hk] at hc
    rw [← Option.some.inj ((h.sound.held_target_committed hfit).symm.trans hc)]

theorem cutOff (h : p.InStep) (hfit : table.encode.length ≤ p.maxPayload) :
    (p.cutOff ((p.nextImage table).take k)).InStep := by
  have hshort : ((p.nextImage table).take k).length ≤ p.bankLength :=
    (List.length_take_le' _ _).trans (nextImage_length_le h.sound.banks hfit)
  exact ⟨h.sound.cutOff hshort, h.room, fun c hc => .inl (h.sequence_of_cutOff hfit hc)⟩

/-- A commit takes the number after that of the bank that was in charge. -/
theorem committed (h : p.InStep) (hfit : table.encode.length ≤ p.maxPayload) :
    (p.committed table).InStep := by
  refine ⟨h.sound.committed hfit, h.room, fun c hc => ?_⟩
  rw [h.sound.stale_committed hfit] at hc
  obtain ⟨bank, -, rfl⟩ := Option.map_eq_some_iff.1 hc
  exact .inr rfl

theorem wiped (h : p.InStep) (hpos : 0 < k) (hk : k ≤ p.bankLength / p.device.sectorSize) :
    (p.withDevice (Partition.wiped p.device p.bankLength p.target k)).InStep := by
  have hsectors : k * p.device.sectorSize ≤ p.bankLength :=
    (Nat.mul_le_mul_right _ hk).trans (Nat.le_of_eq h.sound.banks.sectors_mul)
  refine ⟨h.sound.withDevice (h.sound.banks.wiped p.target hsectors)
    (bankBytes_wiped_other h.sound.banks p.target hsectors), h.room, fun c hc => ?_⟩
  rw [h.sound.stale_wiped hpos hk] at hc
  cases hc

/-- A call keeps a partition in step, whether or not its commit comes to an end. -/
theorem after (h : p.InStep) (call : Call) : (call.after p).InStep := by
  cases hcommits : call.commits? p with
  | none =>
    rw [Call.after_of_none hcommits]
    exact h
  | some table =>
    have hfit := (Call.commits?_eq_some_iff.1 hcommits).2.2
    rw [Call.after, Call.run_of_some hcommits, commit_eq h.sound.banks h.sound.inRange hfit]
    by_cases hreach : p.device.reach (p.nextImage table) < (p.nextImage table).length
    · rw [if_pos hreach]
      exact h.cutOff hfit
    · rw [if_neg hreach]
      exact h.committed hfit

/-- So does a cut after any of its steps. -/
theorem cut (h : p.InStep) (call : Call) (k : Nat) : (p.withDevice (call.cut p k)).InStep := by
  cases hcommits : call.commits? p with
  | none =>
    rw [Call.cut_of_none hcommits]
    exact h
  | some table =>
    have hfit := (Call.commits?_eq_some_iff.1 hcommits).2.2
    rcases Nat.eq_zero_or_pos k with rfl | hpos
    · rw [Call.cut_zero]
      exact h
    rcases Call.cut_cases (k := k) h.sound hcommits with ⟨hk, hcut⟩ | ⟨j, tear, hcut⟩
    · rw [hcut]
      exact h.wiped hpos hk
    · rw [hcut]
      exact (h.cutOff hfit).withTear tear

/-- A mount goes on with the bank in charge, or with the other one; then they change places. -/
theorem mounted (h : p.InStep) (hmount : mount p.device = .ok q) : q.InStep := by
  have hq : p.remounted p.stale = q := Except.ok.inj (h.sound.mount_eq.symm.trans hmount)
  cases hstale : p.stale with
  | none =>
    rw [hstale] at hq
    exact hq ▸ h
  | some c =>
    rw [hstale, remounted] at hq
    split at hq
    · subst hq
      refine ⟨(sound_of_mount hmount h.sound.small).2, h.room, fun c' hc' => ?_⟩
      obtain ⟨bank, -, rfl⟩ := Option.map_eq_some_iff.1 (h.sound.held_own.symm.trans hc')
      exact (h.beside c hstale).symm
    · exact hq ▸ h

/-- The numbers of two banks that hold something are one apart. -/
theorem adjacent (h : p.InStep) {c c' : Content}
    (hc : held p.device p.bankLength bank = some c)
    (hc' : held p.device p.bankLength bank.other = some c') :
    Bank.Adjacent c.sequence c'.sequence := by
  have hown : ∀ {c}, held p.device p.bankLength p.target.other = some c →
      c.sequence = p.sequence := by
    intro c hc
    obtain ⟨_, -, rfl⟩ := Option.map_eq_some_iff.1 (h.sound.held_own.symm.trans hc)
    rfl
  by_cases hbank : bank = p.target
  · subst hbank
    exact hown hc' ▸ h.beside c hc
  · obtain rfl := Bank.eq_other_of_ne hbank
    rw [Bank.other_other] at hc'
    exact hown hc ▸ (h.beside c' hc').symm

theorem held_active (h : p.InStep) (hactive : p.active = some bank) :
    held p.device p.bankLength bank = some ⟨p.sequence, p.items⟩ := by
  rw [← target_other_of_active hactive, h.sound.held_own, own, hactive]
  rfl

end InStep

/-- An erased chip mounts to a partition in step. -/
theorem inStep_of_erased {n sectorSize : Nat}
    (hmount : mount (FlashChip.ofImage (Bytes.erased n) sectorSize) = .ok p)
    (hroom : p.maxPayload < 0xFF000000) : p.InStep := by
  obtain ⟨hdevice, hsound⟩ := sound_of_mount hmount (hroom.trans (by decide))
  refine ⟨hsound, hroom, fun c hc => ?_⟩
  have himage : p.device.image = Bytes.erased n := by
    rw [hdevice]
    rfl
  rw [stale, held_of_erased hsound.banks himage] at hc
  cases hc

/-- **All that can happen to a partition keeps it in step.** -/
theorem Reached.inStep (h : Reached p₀ p) (h₀ : p₀.InStep) : p.InStep := by
  induction h with
  | mounted => exact h₀
  | call call _ ih => exact ih.after call
  | tear keep _ ih => exact ih.withTear (some keep)
  | cut call k _ ih => exact ih.cut call k
  | remount _ hmount ih => exact ih.mounted hmount
  | restart _ hmount ih => exact (ih.withTear none).mounted hmount

/-- A bank is recovered as what it holds. -/
theorem Sound.recover_eq (h : p.Sound) (bank : Bank) :
    Bank.recover p.device p.bankLength bank = .ok (held p.device p.bankLength bank) :=
  Bank.recover_eq p.device.readsAs_self (Nat.le_of_lt h.banks.header_lt) (h.banks.base_le bank)

/-- **The sequence numbers of the banks stay one apart.** Whatever calls, losses of power and mounts
a partition that starts on an erased chip has been through, and whatever its checksums are worth:
when both banks are whole their numbers are one apart, the bank in charge holds the table and the
number in memory, and no step of a call touches that bank. The steps are those that a recorder has
been told to take, so the cuts of a call come after some of them. -/
theorem banks_in_step {n sectorSize : Nat}
    (hmount : mount (FlashChip.ofImage (Bytes.erased n) sectorSize) = .ok p₀)
    (hroom : p₀.maxPayload < 0xFF000000) (hp : Reached p₀ p) :
    (∀ c₁ c₂, Bank.recover p.device p.bankLength .first = .ok (some c₁) →
      Bank.recover p.device p.bankLength .second = .ok (some c₂) →
      Bank.Adjacent c₁.sequence c₂.sequence) ∧
    (∀ bank, p.active = some bank →
      Bank.recover p.device p.bankLength bank = .ok (some ⟨p.sequence, p.items⟩)) ∧
    ∀ call : Call,
      (call.record p).chip = (call.after p).device ∧ (call.record p).steps = call.steps p ∧
      ∀ bank, p.active = some bank → ∀ step ∈ (call.record p).steps, ∀ cell,
        step.Touches p.device.sectorSize cell → ¬ bank.Spans p.bankLength cell := by
  have h := hp.inStep (inStep_of_erased hmount hroom)
  refine ⟨fun c₁ c₂ hc₁ hc₂ => ?_, fun bank hactive => ?_, fun call => ?_⟩
  · rw [h.sound.recover_eq, Except.ok.injEq] at hc₁ hc₂
    exact h.adjacent hc₁ hc₂
  · rw [h.sound.recover_eq, h.held_active hactive]
  · rw [Call.record_eq h.sound]
    exact ⟨rfl, rfl, fun bank hactive step hstep cell htouches =>
      Call.not_spans_of_touches h.sound call hactive hstep htouches⟩

/-- A partition with an item in each bank. -/
def replaced : Partition FlashChip :=
  (Call.write "key.der" [2]).after ((Call.write "key.der" [1]).after blank)

/-- The same partition when a third write loses its power, and a fourth one does not. -/
def resumed : Partition FlashChip :=
  (Call.write "key.der" [4]).after
    ((Call.write "key.der" [3]).after (replaced.withDevice (replaced.device.tearNext 15)))

theorem banks_in_step_resumed :
    Bank.Adjacent 3 2 ∧ Bank.recover resumed.device 32 .first = .ok (some ⟨3, resumed.items⟩) ∧
      ∀ step ∈ ((Call.delete "key.der").record resumed).steps, ∀ cell,
        step.Touches 32 cell → ¬ Bank.first.Spans 32 cell := by
  have hreached : Reached blank resumed := .call _ (.call _ (.tear 15 (.call _ (.call _ .mounted))))
  obtain ⟨hnumbers, hactive, hcalls⟩ := banks_in_step mount_blank (by decide) hreached
  have hfirst : Bank.recover resumed.device 32 .first = .ok (some ⟨3, resumed.items⟩) :=
    hactive .first (by decide +kernel)
  have hsecond : Bank.recover resumed.device 32 .second = .ok (some ⟨2, replaced.items⟩) := by
    decide +kernel
  exact ⟨hnumbers _ _ hfirst hsecond, hfirst,
    (hcalls (.delete "key.der")).2.2 .first (by decide +kernel)⟩

end Partition

end UpdateVault
