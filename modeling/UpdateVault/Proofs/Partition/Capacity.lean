import UpdateVault.Proofs.Partition.PowerLoss

/-!
# The room in a partition

A partition never holds more than a bank has room for, whatever was on its chip when it was mounted
and whatever has happened to it since: calls, losses of power in the middle of them, mounts
(`Reached.fits`). So a deletion is never refused for want of room, and a write is if and only if
the table it would make is too large (`room_accounted`).
-/

namespace UpdateVault.Partition

variable {p p₀ q : Partition FlashChip} {chip : FlashChip} {call : Call}

/-! ## What can happen to a partition -/

/-- The partitions that calls, losses of power and mounts lead to. A chip may be told to lose its
power in the next programming, or lose it after any step of a call; either way the partition may go
on with what it has in memory, or be mounted anew. -/
inductive Reached (p₀ : Partition FlashChip) : Partition FlashChip → Prop
  | mounted : Reached p₀ p₀
  | call {p : Partition FlashChip} (call : Call) : Reached p₀ p → Reached p₀ (call.after p)
  | tear {p : Partition FlashChip} (keep : Nat) :
      Reached p₀ p → Reached p₀ (p.withDevice (p.device.tearNext keep))
  | cut {p : Partition FlashChip} (call : Call) (k : Nat) :
      Reached p₀ p → Reached p₀ (p.withDevice (call.cut p k))
  | remount {p q : Partition FlashChip} :
      Reached p₀ p → mount p.device = .ok q → Reached p₀ q
  | restart {p q : Partition FlashChip} : Reached p₀ p →
      mount (.ofImage p.device.image p.device.sectorSize) = .ok q → Reached p₀ q

/-- A call keeps the table that is there, or makes one that fits the current one. -/
theorem fits_after (h : p.items.encode.length ≤ p.maxPayload) (call : Call) :
    (call.after p).items.encode.length ≤ (call.after p).maxPayload := by
  cases hcommits : call.commits? p with
  | none =>
    rw [Call.after_of_none hcommits]
    exact h
  | some table =>
    have hfit := (Call.commits?_eq_some_iff.1 hcommits).2.2
    rw [Call.after, Call.run_of_some hcommits]
    rcases commit_cases table p with ⟨hfull, -⟩ | ⟨-, ⟨e, device, herror⟩ | ⟨device, hok⟩⟩
    · exact absurd hfit (Nat.not_le.2 hfull)
    · rw [herror]
      exact h
    · rw [hok]
      exact hfit

/-- **No table outgrows its bank.** -/
theorem Reached.fits (h : Reached p₀ p) (h₀ : p₀.items.encode.length ≤ p₀.maxPayload) :
    p.items.encode.length ≤ p.maxPayload := by
  induction h with
  | mounted => exact h₀
  | call call _ ih => exact fits_after ih call
  | tear keep _ ih => exact ih
  | cut call k _ ih => exact ih
  | remount _ hmount _ => exact fits_of_mount hmount
  | restart _ hmount _ => exact fits_of_mount hmount

/-! ## Refusals -/

section

variable {φ : Type} [FlashMemory φ] {p q : Partition φ} {name : String} {item : Item} {data : Bytes}
  {needed available : Nat}

/-- A commit is refused for want of room if the table does not fit, and then changes nothing. -/
theorem commit_eq_storageFull_iff {items : ItemTable} :
    commit items p = .error (.storageFull needed available) q ↔
      p.maxPayload < items.room ∧ needed = items.room ∧ available = p.maxPayload ∧ q = p := by
  rw [← ItemTable.length_encode]
  rcases commit_cases items p with
    ⟨hfull, hcommit⟩ | ⟨hfit, ⟨e, device, hcommit⟩ | ⟨device, hcommit⟩⟩
  · rw [hcommit]
    simp only [EStateM.Result.error.injEq, StorageError.storageFull.injEq, hfull, true_and,
      and_assoc, eq_comm]
  · rw [hcommit]
    simp [Nat.not_lt.2 hfit]
  · rw [hcommit]
    simp [Nat.not_lt.2 hfit]

/-- A write of other data than is there makes the table with that data current. -/
theorem write_of_ne (hitem : Item.ofName? name = some item)
    (hdata : p.items.get? item.id ≠ some data) :
    write name data p = commit (p.items.insert item.id data) p := by
  simp only [write, Call.idOf_eq hitem, if_neg hdata]

/-- A deletion makes a smaller table current, if it does anything. -/
theorem delete_ne_storageFull (h : p.items.encode.length ≤ p.maxPayload) :
    delete name p ≠ .error (.storageFull needed available) q := by
  intro hdelete
  rcases delete_cases p name with habsent | hunknown | ⟨id, -, hcommit⟩
  · rw [habsent] at hdelete
    cases hdelete
  · rw [hunknown] at hdelete
    cases hdelete
  · have hfull := (commit_eq_storageFull_iff.1 (hcommit ▸ hdelete)).1
    have hshorter := ItemTable.length_encode_erase_le p.items id
    rw [ItemTable.length_encode] at hshorter
    omega

end

/-- **The room in a partition is accounted for.** Whatever is on a chip that mounts, and whatever
calls, losses of power and mounts follow: the table fits a bank; a deletion is never refused for
want of room; and a write of an item with other data than is there is refused exactly if the table
with that data would not fit, with the room it would need and the room there is, and nothing
changes, neither in memory nor on the chip. -/
theorem room_accounted (hmount : mount chip = .ok p₀) (hp : Reached p₀ p) :
    p.items.room ≤ p.maxPayload ∧
      (∀ name needed available q, delete name p ≠ .error (.storageFull needed available) q) ∧
      ∀ name item data, Item.ofName? name = some item → p.items.get? item.id ≠ some data →
        ∀ needed available q, write name data p = .error (.storageFull needed available) q ↔
          p.maxPayload < ItemTable.room (p.items.insert item.id data) ∧
            needed = ItemTable.room (p.items.insert item.id data) ∧
            available = p.maxPayload ∧ q = p := by
  have hfits := hp.fits (fits_of_mount hmount)
  refine ⟨?_, fun _ _ _ _ => delete_ne_storageFull hfits, ?_⟩
  · rwa [← ItemTable.length_encode]
  · intro name item data hitem hdata needed available q
    rw [write_of_ne hitem hdata]
    exact commit_eq_storageFull_iff

/-- A partition whose bank is full to the last byte, on a chip that is about to lose its power. -/
def full : Partition FlashChip :=
  let p := (Call.write "key.der" [1, 2, 3, 4, 5, 6]).after blank
  p.withDevice (p.device.tearNext 3)

theorem room_accounted_full :
    full.items.room ≤ full.maxPayload ∧
      (∀ needed available q,
        delete "key.der" full ≠ .error (.storageFull needed available) q) ∧
      write "key.der" [1, 2, 3, 4, 5, 6, 7] full = .error (.storageFull 13 12) full := by
  have hreached : Reached blank full := .tear 3 (.call _ .mounted)
  obtain ⟨hroom, hdelete, hwrite⟩ := room_accounted mount_blank hreached
  have hother : full.items.get? Item.privateKey.id ≠ some [1, 2, 3, 4, 5, 6, 7] := by
    decide +kernel
  have hneeded : ItemTable.room
      (full.items.insert Item.privateKey.id [1, 2, 3, 4, 5, 6, 7]) = 13 := by decide +kernel
  have hrefused := hwrite "key.der" .privateKey _ rfl hother 13 12 full
  rw [hneeded] at hrefused
  exact ⟨hroom, hdelete "key.der", hrefused.2 ⟨by decide +kernel, rfl, by decide +kernel, rfl⟩⟩

end UpdateVault.Partition
