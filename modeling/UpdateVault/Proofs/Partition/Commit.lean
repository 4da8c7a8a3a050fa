import UpdateVault.Proofs.Partition.Mount

/-!
# Commits

A mounted partition is `Sound` when the bank in charge holds its table under its sequence
number. Nothing but that bank and the one a commit writes to plays a part: what the next mount
finds is decided by the content of the target bank (`Sound.mount_eq`). A commit writes nowhere
else, so soundness outlives it wherever it stops (`Sound.written`).
-/

namespace UpdateVault.Partition

open Flash (addressLimit)
open Bank (Content follows)

variable {p : Partition FlashChip} {chip : FlashChip} {c : Content} {items : ItemTable}
  {data : Bytes}

/-! ## Soundness -/

/-- A commit leaves the bank in charge alone. -/
theorem target_other_of_active {bank : Bank} (h : p.active = some bank) :
    p.target.other = bank := by
  rw [target, h]
  exact Bank.other_other bank

/-- What the bank in charge holds. -/
def own (p : Partition FlashChip) : Option Content := p.active.map fun _ => ⟨p.sequence, p.items⟩

/-- What the bank that the next commit goes to holds. -/
def stale (p : Partition FlashChip) : Option Content := held p.device p.bankLength p.target

/-- The table in memory is the one of the bank in charge; without one it is empty. -/
structure Sound (p : Partition FlashChip) : Prop where
  banks : HasBanks p.device p.bankLength
  small : p.maxPayload < 2 ^ 32
  held_own : held p.device p.bankLength p.target.other = p.own
  fresh : p.active = none → p.items = .empty ∧ p.sequence = 0

/-- A mount prefers a content of the target bank to the bank in charge. -/
def TakesOver (p : Partition FlashChip) (c : Content) : Prop :=
  match p.active with
  | none => True
  | some .first => follows c.sequence p.sequence = true
  | some .second => follows p.sequence c.sequence = false

instance : Decidable (p.TakesOver c) := by
  unfold TakesOver
  split <;> infer_instance

/-- The partition after a mount that finds a content in the target bank. -/
def remounted (p : Partition FlashChip) : Option Content → Partition FlashChip
  | some c =>
    if p.TakesOver c then
      { p with items := c.items, active := some p.target, sequence := c.sequence }
    else p
  | none => p

/-- **A mount of a sound partition's chip depends on its target bank only.** -/
theorem Sound.mount_eq (h : p.Sound) : mount p.device = .ok (p.remounted p.stale) := by
  rw [Partition.mount_eq h.banks, Except.ok.injEq]
  obtain ⟨device, len, items, active, sequence⟩ := p
  have hown := h.held_own
  have hfresh := h.fresh
  cases active with
  | none =>
    obtain ⟨hitems, hsequence⟩ := hfresh rfl
    simp only at hitems hsequence
    subst hitems hsequence
    simp only [own, target, Bank.other, Option.map_none] at hown
    simp only [stale, target, ofHeld, hown]
    cases held device len .first with
    | none => rfl
    | some c => rfl
  | some bank =>
    cases bank with
    | first =>
      simp only [own, target, Bank.other, Option.map_some] at hown
      simp only [stale, target, Bank.other, ofHeld, hown]
      cases held device len .second with
      | none => rfl
      | some c =>
        by_cases hc : follows c.sequence sequence = true
        · simp [Bank.newest, remounted, TakesOver, target, Bank.other, hc]
        · simp [Bank.newest, remounted, TakesOver, hc]
    | second =>
      simp only [own, target, Bank.other, Option.map_some] at hown
      simp only [stale, target, Bank.other, ofHeld, hown]
      cases held device len .first with
      | none => rfl
      | some c =>
        by_cases hc : follows sequence c.sequence = true
        · simp [Bank.newest, remounted, TakesOver, hc]
        · simp [Bank.newest, remounted, TakesOver, target, Bank.other, hc]

/-- The chip of a sound partition mounts to it unless the target bank takes over. -/
theorem Sound.mount_eq_self_iff (h : p.Sound) :
    mount p.device = .ok p ↔ ∀ c, p.stale = some c → ¬ p.TakesOver c := by
  rw [h.mount_eq, Except.ok.injEq]
  constructor
  · intro heq c hc htakes
    rw [hc, remounted, if_pos htakes] at heq
    have hactive : some p.target = p.active := congrArg Partition.active heq
    cases hp : p.active with
    | none => simp [hp] at hactive
    | some bank => cases bank <;> simp [target, hp, Bank.other] at hactive
  · intro hstale
    cases hc : p.stale with
    | none => rfl
    | some c => rw [remounted, if_neg (hstale c hc)]

/-- A mount gives a sound partition. -/
theorem sound_of_mount (h : mount chip = .ok p) (hsmall : p.maxPayload < 2 ^ 32) :
    p.device = chip ∧ p.Sound := by
  obtain ⟨len, hbanks, rfl⟩ := mount_eq_ok_iff.1 h
  revert hsmall
  rw [ofHeld]
  cases hfirst : held chip len .first <;> cases hsecond : held chip len .second
  · intro hsmall
    exact ⟨rfl, hbanks, hsmall, hsecond, fun _ => ⟨rfl, rfl⟩⟩
  · intro hsmall
    exact ⟨rfl, hbanks, hsmall, hsecond, fun h => by cases h⟩
  · intro hsmall
    exact ⟨rfl, hbanks, hsmall, hfirst, fun h => by cases h⟩
  · rename_i c₁ c₂
    simp only [Bank.newest]
    by_cases hc : follows c₂.sequence c₁.sequence = true
    · rw [if_pos hc]
      intro hsmall
      exact ⟨rfl, hbanks, hsmall, hsecond, fun h => by cases h⟩
    · rw [if_neg hc]
      intro hsmall
      exact ⟨rfl, hbanks, hsmall, hfirst, fun h => by cases h⟩

/-! ## Sequence numbers -/

/-- The next sequence number is newer, also where the numbers wrap around. -/
theorem follows_succ (n : UInt32) : follows (n + 1) n = true := by
  have : n + 1 - n = 1 := by grind
  rw [follows, this]
  rfl

theorem not_follows_succ (n : UInt32) : follows n (n + 1) = false := by
  have : n - (n + 1) = -1 := by grind
  rw [follows, this]
  rfl

/-- The table of the next commit is preferred to the one in charge. -/
theorem takesOver_succ (p : Partition FlashChip) (items : ItemTable) :
    p.TakesOver ⟨p.sequence + 1, items⟩ := by
  unfold TakesOver
  split
  · trivial
  · exact follows_succ _
  · exact not_follows_succ _

/-! ## Writing the target bank -/

/-- What a commit programs to make a table the current one. -/
def nextImage (p : Partition FlashChip) (items : ItemTable) : Bytes :=
  Bank.image (p.sequence + 1) items.encode

/-- The partition with another chip under it. -/
def withDevice (p : Partition FlashChip) (chip : FlashChip) : Partition FlashChip :=
  { p with device := chip }

/-- The partition after a commit that got as far as programming some bytes. -/
def cutOff (p : Partition FlashChip) (data : Bytes) : Partition FlashChip :=
  p.withDevice (written p.device p.bankLength p.target data)

/-- The partition after a commit. -/
def committed (p : Partition FlashChip) (items : ItemTable) : Partition FlashChip :=
  { p with
    device := written p.device p.bankLength p.target (p.nextImage items)
    items, active := some p.target, sequence := p.sequence + 1 }

theorem headerLength_add_le (h : HasBanks p.device p.bankLength)
    (hfit : items.encode.length ≤ p.maxPayload) :
    Bank.headerLength + items.encode.length ≤ p.bankLength := by
  have := h.header_lt
  rw [maxPayload] at hfit
  omega

theorem nextImage_length_le (h : HasBanks p.device p.bankLength)
    (hfit : items.encode.length ≤ p.maxPayload) : (p.nextImage items).length ≤ p.bankLength := by
  rw [nextImage, Bank.length_image]
  exact headerLength_add_le h hfit

namespace Sound

/-- A bank that took the whole image of a commit holds its table. -/
theorem ofBytes?_nextImage (h : p.Sound) (hfit : items.encode.length ≤ p.maxPayload)
    (tail : Bytes) :
    Bank.ofBytes? (p.nextImage items ++ tail) = some ⟨p.sequence + 1, items⟩ := by
  have hlen : items.encode.length < 2 ^ 32 := Nat.lt_of_le_of_lt hfit h.small
  have hdecode := ItemTable.decode?_encode (ItemTable.items_lt_of_encode_le hfit h.small)
  rw [nextImage, Bank.ofBytes?_image hlen, hdecode]
  rfl

theorem inRange (h : p.Sound) : 2 * p.bankLength ≤ addressLimit := by
  have := h.small
  rw [maxPayload, Bank.headerLength] at this
  rw [addressLimit, UInt64.size]
  omega

/-- The bank in charge outlives whatever happens to the other one. -/
theorem withDevice (h : p.Sound) (hbanks : HasBanks chip p.bankLength)
    (hother : bankBytes chip p.bankLength p.target.other
      = bankBytes p.device p.bankLength p.target.other) : (p.withDevice chip).Sound := by
  refine ⟨hbanks, h.small, ?_, h.fresh⟩
  show held chip p.bankLength p.target.other = p.own
  rw [held, hother]
  exact h.held_own

theorem cutOff (h : p.Sound) (hdata : data.length ≤ p.bankLength) : (p.cutOff data).Sound :=
  h.withDevice (h.banks.written p.target data) (bankBytes_written_other h.banks p.target hdata)

/-- The target bank of a commit that was cut off is torn. -/
theorem bankBytes_cutOff (h : p.Sound) (hfit : items.encode.length ≤ p.maxPayload) {k : Nat}
    (hk : k ≤ (p.nextImage items).length) :
    bankBytes (p.cutOff ((p.nextImage items).take k)).device p.bankLength p.target
      = Bank.torn (p.sequence + 1) items.encode k p.bankLength := by
  have hlen : ((p.nextImage items).take k).length = k := by
    rw [List.length_take, Nat.min_eq_left hk]
  have hle := nextImage_length_le h.banks hfit
  refine (bankBytes_written_self h.banks p.target (by omega)).trans ?_
  rw [hlen]
  rfl

theorem held_target_committed (h : p.Sound) (hfit : items.encode.length ≤ p.maxPayload) :
    held (p.committed items).device p.bankLength p.target = some ⟨p.sequence + 1, items⟩ := by
  show held (written p.device p.bankLength p.target _) p.bankLength p.target = _
  rw [held, bankBytes_written_self h.banks p.target (nextImage_length_le h.banks hfit)]
  exact h.ofBytes?_nextImage hfit _

theorem committed (h : p.Sound) (hfit : items.encode.length ≤ p.maxPayload) :
    (p.committed items).Sound := by
  refine ⟨h.banks.written p.target _, h.small, ?_, fun hnone => by cases hnone⟩
  have htarget : (p.committed items).target.other = p.target := target_other_of_active rfl
  rw [htarget]
  exact h.held_target_committed hfit

/-- The bank that was in charge before is the next one to be written. -/
theorem stale_committed (h : p.Sound) (hfit : items.encode.length ≤ p.maxPayload) :
    (p.committed items).stale = p.own := by
  show held (written p.device p.bankLength p.target _) p.bankLength p.target.other = p.own
  rw [held, bankBytes_written_other h.banks p.target (nextImage_length_le h.banks hfit)]
  exact h.held_own

/-- The table that was in charge before is not preferred to the one just committed. -/
theorem mount_committed (h : p.Sound) (hfit : items.encode.length ≤ p.maxPayload) :
    mount (p.committed items).device = .ok (p.committed items) := by
  rw [(h.committed hfit).mount_eq, h.stale_committed hfit, own]
  cases hactive : p.active with
  | none => rfl
  | some bank =>
    -- the target is now the old bank, whose number is one behind
    simp only [Option.map_some, remounted]
    rw [if_neg]
    simp only [TakesOver, Partition.committed, target, hactive]
    cases bank <;> simp [Bank.other, follows_succ, not_follows_succ]

end Sound

theorem commit_of_full {φ : Type} [FlashMemory φ] {p : Partition φ}
    (hfull : p.maxPayload < items.encode.length) :
    commit items p = .error (.storageFull items.encode.length p.maxPayload) p := by
  simp only [commit, if_pos hfull]

/-- **All that a commit can do**, whatever the device: it refuses a table that is too large and
changes nothing; or the device fails, and the table in memory stays; or the table is the new one. -/
theorem commit_cases {φ : Type} [FlashMemory φ] (items : ItemTable) (p : Partition φ) :
    (p.maxPayload < items.encode.length ∧
      commit items p = .error (.storageFull items.encode.length p.maxPayload) p) ∨
    (items.encode.length ≤ p.maxPayload ∧
      ((∃ e device, commit items p = .error (.io e) { p with device }) ∨
        ∃ device, commit items p = .ok ()
          { p with device, items, active := some p.target, sequence := p.sequence + 1 })) := by
  by_cases hfull : p.maxPayload < items.encode.length
  · exact .inl ⟨hfull, commit_of_full hfull⟩
  · refine .inr ⟨Nat.not_lt.1 hfull, ?_⟩
    simp only [commit, if_neg hfull]
    cases writeBank p.bankLength p.target (Bank.image (p.sequence + 1) items.encode) p.device with
    | ok _ device => exact .inr ⟨device, rfl⟩
    | error e device => exact .inl ⟨e, device, rfl⟩

/-- A commit of a table that fits writes its image to the target bank, as far as the power lasts. -/
theorem commit_eq (h : HasBanks p.device p.bankLength) (hrange : 2 * p.bankLength ≤ addressLimit)
    (hfit : items.encode.length ≤ p.maxPayload) :
    commit items p =
      if p.device.reach (p.nextImage items) < (p.nextImage items).length then
        .error (.io .powerLost)
          (p.cutOff ((p.nextImage items).take (p.device.reach (p.nextImage items))))
      else .ok () (p.committed items) := by
  have hwrite := writeBank_eq h hrange p.target (nextImage_length_le h hfit)
  simp only [commit, if_neg (Nat.not_lt.2 hfit)]
  rw [nextImage] at hwrite
  rw [hwrite, ← nextImage]
  by_cases hreach : p.device.reach (p.nextImage items) < (p.nextImage items).length
  · rw [if_pos hreach, if_pos hreach]
    rfl
  · rw [if_neg hreach, if_neg hreach]
    rfl

/-- The banks are on a chip with power, and no further out than an address can reach. -/
structure Addressed (p : Partition FlashChip) : Prop where
  banks : HasBanks p.device p.bankLength
  inRange : 2 * p.bankLength ≤ addressLimit
  powered : p.device.tear = none

/-- With power nothing keeps a table that fits from being committed. -/
theorem Addressed.commit_eq (h : p.Addressed) (hfit : items.encode.length ≤ p.maxPayload) :
    commit items p = .ok () (p.committed items) := by
  rw [Partition.commit_eq h.banks h.inRange hfit, FlashChip.reach, h.powered]
  exact if_neg (Nat.lt_irrefl _)

/-- A commit whose image is cut off by a loss of power. -/
theorem commit_of_lt (h : p.Sound) (hfit : items.encode.length ≤ p.maxPayload)
    (hreach : p.device.reach (p.nextImage items) < (p.nextImage items).length) :
    commit items p = .error (.io .powerLost)
      (p.cutOff ((p.nextImage items).take (p.device.reach (p.nextImage items)))) := by
  rw [commit_eq h.banks h.inRange hfit, if_pos hreach]

theorem commit_of_ge (h : p.Sound) (hfit : items.encode.length ≤ p.maxPayload)
    (hreach : (p.nextImage items).length ≤ p.device.reach (p.nextImage items)) :
    commit items p = .ok () (p.committed items) := by
  rw [commit_eq h.banks h.inRange hfit, if_neg (Nat.not_lt.2 hreach)]

/-! ## Writing and deleting -/

section

variable {φ : Type} [FlashMemory φ] (p : Partition φ) (name : String)

/-- A write commits the table with the item, unless there is nothing to do or no such item. -/
theorem write_cases (data : Bytes) :
    write name data p = .ok () p ∨ write name data p = .error (.unknownItem name) p ∨
      ∃ id, idOf name = .ok id ∧ write name data p = commit (p.items.insert id data) p := by
  rw [write]
  cases hid : idOf name with
  | error e =>
    rw [idOf] at hid
    split at hid <;> cases hid
    exact .inr (.inl rfl)
  | ok id =>
    by_cases hsame : p.items.get? id = some data
    · exact .inl (if_pos hsame)
    · exact .inr (.inr ⟨id, rfl, if_neg hsame⟩)

/-- A deletion commits the table without the item, unless there is none to take out. -/
theorem delete_cases :
    delete name p = .error (.notFound name) p ∨ delete name p = .error (.unknownItem name) p ∨
      ∃ id, idOf name = .ok id ∧ delete name p = commit (p.items.erase id) p := by
  rw [delete]
  cases hid : idOf name with
  | error e =>
    rw [idOf] at hid
    split at hid <;> cases hid
    exact .inr (.inl rfl)
  | ok id =>
    by_cases hpresent : p.items.contains id = true
    · exact .inr (.inr ⟨id, rfl, if_pos hpresent⟩)
    · exact .inl (if_neg hpresent)

end

end UpdateVault.Partition
