import UpdateVault.Proofs.Partition.Call

/-!
# Mounting whatever is on a chip

`mount_survives`: whatever bytes are on a chip, a mount reads within the chip, fails only for want
of room, and goes on with what the two banks say, judged field by field (`Bank.Whole`,
`Recovered`). As long as the chip keeps its power, no call fails on the device afterwards
(`Addressed.run_ne_io`).
-/

namespace UpdateVault.Partition

open Bank (Whole follows sequenceIn)
open Flash (addressLimit readAt)

variable {p q : Partition FlashChip} {chip : FlashChip} {len : Nat} {call : Call}

/-! ## What a mount goes on with -/

/-- The bank, the sequence number and the table that a mount goes on with, given the bytes of the
two banks. Of two whole banks it is the second one if its number is ahead of the other one's by
less than half of all numbers. -/
inductive Recovered (first second : Bytes) : Option Bank → UInt32 → ItemTable → Prop
  | neither : (∀ es, ¬ Whole first es) → (∀ es, ¬ Whole second es) →
      Recovered first second none 0 .empty
  | onlyFirst {es : List (UInt16 × Bytes)} : Whole first es → (∀ es, ¬ Whole second es) →
      Recovered first second (some .first) (sequenceIn first) (.ofList es)
  | onlySecond {es : List (UInt16 × Bytes)} : (∀ es, ¬ Whole first es) → Whole second es →
      Recovered first second (some .second) (sequenceIn second) (.ofList es)
  | newerSecond {es es' : List (UInt16 × Bytes)} : Whole first es' → Whole second es →
      0 < (sequenceIn second - sequenceIn first).toInt32 →
      Recovered first second (some .second) (sequenceIn second) (.ofList es)
  | newerFirst {es es' : List (UInt16 × Bytes)} : Whole first es → Whole second es' →
      ¬ 0 < (sequenceIn second - sequenceIn first).toInt32 →
      Recovered first second (some .first) (sequenceIn first) (.ofList es)

/-- One number follows another if their difference is positive as a signed number. -/
theorem follows_iff (a b : UInt32) : follows a b = true ↔ 0 < (a - b).toInt32 := by
  have hsize : UInt32.size / 2 = 2147483648 := rfl
  have hlt : (a - b).toBitVec.toNat < 2 ^ 32 := (a - b).toBitVec.isLt
  rw [Int32.lt_iff_toInt_lt]
  show _ ↔ (0 : Int) < (a - b).toBitVec.toInt
  rw [BitVec.toInt_eq_toNat_cond, follows, Bool.and_eq_true, decide_eq_true_eq, decide_eq_true_eq,
    hsize]
  show 0 < (a - b).toBitVec.toNat ∧ (a - b).toBitVec.toNat < 2147483648 ↔ _
  split <;> omega

theorem not_whole_of_ofBytes? {bs : Bytes} (h : Bank.ofBytes? bs = none)
    (es : List (UInt16 × Bytes)) : ¬ Whole bs es := by
  intro hwhole
  rw [Bank.ofBytes?_eq_some_iff.2 ⟨es, hwhole, rfl⟩] at h
  cases h

/-- The choice between the banks, field by field. -/
theorem recovered_of_ofHeld {first second : Bytes} :
    Recovered first second
      (ofHeld chip len (Bank.ofBytes? first) (Bank.ofBytes? second)).active
      (ofHeld chip len (Bank.ofBytes? first) (Bank.ofBytes? second)).sequence
      (ofHeld chip len (Bank.ofBytes? first) (Bank.ofBytes? second)).items := by
  cases hfirst : Bank.ofBytes? first with
  | none =>
    cases hsecond : Bank.ofBytes? second with
    | none => exact .neither (not_whole_of_ofBytes? hfirst) (not_whole_of_ofBytes? hsecond)
    | some c₂ =>
      obtain ⟨es₂, hwhole₂, rfl⟩ := Bank.ofBytes?_eq_some_iff.1 hsecond
      exact .onlySecond (not_whole_of_ofBytes? hfirst) hwhole₂
  | some c₁ =>
    obtain ⟨es₁, hwhole₁, rfl⟩ := Bank.ofBytes?_eq_some_iff.1 hfirst
    cases hsecond : Bank.ofBytes? second with
    | none => exact .onlyFirst hwhole₁ (not_whole_of_ofBytes? hsecond)
    | some c₂ =>
      obtain ⟨es₂, hwhole₂, rfl⟩ := Bank.ofBytes?_eq_some_iff.1 hsecond
      simp only [ofHeld, Bank.newest]
      by_cases hnewer : follows (sequenceIn second) (sequenceIn first) = true
      · rw [if_pos hnewer]
        exact .newerSecond hwhole₁ hwhole₂ ((follows_iff ..).1 hnewer)
      · rw [if_neg hnewer]
        exact .newerFirst hwhole₁ hwhole₂ (mt (follows_iff ..).2 hnewer)

/-! ## Calls on a chip with power -/

namespace Addressed

theorem commit_ne_io (h : p.Addressed) {items : ItemTable} {e : IoError} :
    commit items p ≠ .error (.io e) q := by
  intro hcommit
  by_cases hfit : items.encode.length ≤ p.maxPayload
  · rw [h.commit_eq hfit] at hcommit
    cases hcommit
  · rw [commit_of_full (Nat.not_le.1 hfit)] at hcommit
    cases hcommit

theorem after (h : p.Addressed) (call : Call) : (call.after p).Addressed := by
  cases hcommits : call.commits? p with
  | none =>
    rw [Call.after_of_none hcommits]
    exact h
  | some table =>
    have hfit := (Call.commits?_eq_some_iff.1 hcommits).2.2
    rw [Call.after, Call.run_of_some hcommits, h.commit_eq hfit]
    exact ⟨h.banks.written p.target _, h.inRange, rfl⟩

theorem afterAll (h : p.Addressed) (calls : List Call) :
    (calls.foldl (fun p call => call.after p) p).Addressed := by
  induction calls generalizing p with
  | nil => exact h
  | cons call rest ih => exact ih (h.after call)

/-- A call can only fail on the device by its commit. -/
theorem run_ne_io (h : p.Addressed) (call : Call) {e : IoError} :
    call.run p ≠ .error (.io e) q := by
  intro hrun
  cases call with
  | write name data =>
    replace hrun : write name data p = .error (.io e) q := hrun
    rcases write_cases p name data with hok | hunknown | ⟨id, -, hcommit⟩
    · rw [hok] at hrun
      cases hrun
    · rw [hunknown] at hrun
      cases hrun
    · exact h.commit_ne_io (hcommit ▸ hrun)
  | delete name =>
    replace hrun : delete name p = .error (.io e) q := hrun
    rcases delete_cases p name with habsent | hunknown | ⟨id, -, hcommit⟩
    · rw [habsent] at hrun
      cases hrun
    · rw [hunknown] at hrun
      cases hrun
    · exact h.commit_ne_io (hcommit ▸ hrun)

end Addressed

/-- **A mount survives whatever is on the chip.** The two banks take the same number of whole
sectors, of `len` bytes each, and what is left over is in neither. A mount fails exactly if a bank
has no room behind its header, and says so. A device that reads like the chip within its bounds
mounts like it, whatever it does with reads beyond them. The partition goes on with the choice
between the banks, on the chip as it was. And as long as addresses are enough for the chip, no call
ever fails on the device afterwards. -/
theorem mount_survives (image : Bytes) {sectorSize : Nat} (hsize : 0 < sectorSize)
    (hlen : len = image.length / sectorSize / 2 * sectorSize) :
    (∀ e, mount (FlashChip.ofImage image sectorSize) = .error e ↔
      len ≤ 20 ∧ e = .invalidInput (if len = 0 then .singleSector else .tinyBank)) ∧
    (∀ (φ : Type) [FlashMemory φ] (f : φ), FlashMemory.ReadsAs f (.ofImage image sectorSize) →
      mount f = (mount (FlashChip.ofImage image sectorSize)).map fun p => { p with device := f }) ∧
    ∀ p, mount (FlashChip.ofImage image sectorSize) = .ok p →
      (p.device = .ofImage image sectorSize ∧ p.bankLength = len ∧
        Recovered (readAt image 0 len) (readAt image len len) p.active p.sequence p.items) ∧
      (image.length ≤ addressLimit → ∀ (calls : List Call) (call : Call) e q,
        Call.run call (calls.foldl (fun p call => call.after p) p) ≠ .error (.io e) q) := by
  refine ⟨fun e => mount_eq_error_iff hsize hlen, fun _ _ _ => mount_of_readsAs, ?_⟩
  intro p hp
  have hdevice := device_of_mount hp
  have hbanks := hasBanks_of_mount hp
  have hbankLength : p.bankLength = len := hbanks.length_eq.trans hlen.symm
  refine ⟨⟨hdevice, hbankLength, ?_⟩, ?_⟩
  · obtain ⟨len', hbanks', rfl⟩ := mount_eq_ok_iff.1 hp
    obtain rfl : len' = len := hbanks'.length_eq.trans hlen.symm
    exact recovered_of_ofHeld
  · intro hlimit calls call e q
    have haddressed : p.Addressed :=
      ⟨hdevice ▸ hbanks, Nat.le_trans hbanks.le_length hlimit, by rw [hdevice]; rfl⟩
    exact (haddressed.afterAll calls).run_ne_io call

/-- Three sectors of 40 bytes and a piece of a fourth one. The sequence number of the second bank
is the one after that of the first bank, and its payload has two entries of one item. -/
def uneven : Bytes :=
  let entry (b : UInt8) : Bytes := ItemTable.entryBytes (1, [b])
  Bank.torn 0xFFFFFFFF (entry 5) 27 40 ++ Bank.torn 0 (entry 6 ++ entry 7) 34 40
    ++ Bytes.erased 47

theorem mount_survives_uneven :
    ∃ p, mount (FlashChip.ofImage uneven 40) = .ok p ∧ p.bankLength = 40 ∧
      Recovered (readAt uneven 0 40) (readAt uneven 40 40) p.active p.sequence p.items ∧
      (p.active, p.sequence, p.items.toList) = (some .second, 0, [(1, [7])]) ∧
      ∀ (calls : List Call) (call : Call) e q,
        call.run (calls.foldl (fun p call => call.after p) p) ≠ .error (.io e) q := by
  have hlength : uneven.length = 127 := by decide +kernel
  obtain ⟨hfail, -, hmounted⟩ :=
    mount_survives uneven (show 0 < 40 by decide) (show 40 = _ by rw [hlength])
  have hfound : (mount (FlashChip.ofImage uneven 40)).toOption.map
      (fun p => (p.active, p.sequence, p.items.toList)) = some (some .second, 0, [(1, [7])]) := by
    decide +kernel
  cases hmount : mount (FlashChip.ofImage uneven 40) with
  | error e => exact absurd ((hfail e).1 hmount).1 (by decide)
  | ok p =>
    obtain ⟨⟨-, hlen, hrecovered⟩, hcalls⟩ := hmounted p hmount
    rw [hmount] at hfound
    have hlimit : uneven.length ≤ addressLimit := by
      rw [hlength]
      decide
    exact ⟨p, rfl, hlen, hrecovered, Option.some.inj hfound, hcalls hlimit⟩

end UpdateVault.Partition
