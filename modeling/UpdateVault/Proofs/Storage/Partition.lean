import UpdateVault.Proofs.Partition.Call
import UpdateVault.Proofs.Storage.Kept
import UpdateVault.Storage.Selected

/-!
# A partition keeps its items

`keptItems`: between losses of power a partition on a chip is a storage that keeps its items.
`intact_of_mount`: so is what any chip mounts to, whatever is on it, as a table that was found in a
bank fits one. `intact_of_erased`: an erased chip mounts to an empty one.
-/

namespace UpdateVault.Partition

variable {p q : Partition FlashChip} {item : Item} {data : Bytes}

/-- A partition mounted anew on its chip. -/
def remount (p : Partition FlashChip) : Except StorageError (Partition FlashChip) := mount p.device

/-- Between calls, with a table that fits a bank. -/
structure Intact (p : Partition FlashChip) : Prop where
  settled : p.Settled
  fits : p.items.encode.length ≤ p.maxPayload

/-- What a partition holds of an item. -/
def stored? {φ : Type} (p : Partition φ) (item : Item) : Option Bytes := p.items.get? item.id

/-- A table with other data under one number holds other data of one item. -/
theorem stored?_eq_update {φ : Type} {p q : Partition φ} {data? : Option Bytes}
    (h : ∀ id, q.items.get? id = if id = item.id then data? else p.items.get? id) :
    q.stored? = Function.update p.stored? item data? := by
  funext other
  rw [stored?, h]
  by_cases ho : other = item
  · subst ho
    rw [Function.update_self, if_pos rfl]
  · rw [Function.update_of_ne ho, if_neg fun hid => ho (Item.id_injective hid)]
    rfl

namespace Intact

/-- What is read of an item is what the table holds, on any device. -/
theorem read_eq {φ : Type} [FlashMemory φ] {p : Partition φ} (item : Item) :
    p.read item.name = item.answer (p.stored? item) := by
  have hid := Call.idOf_eq (Item.ofName?_name item)
  rw [read, hid, stored?]
  simp only [bind, Except.bind]
  rcases p.items.get? item.id with _ | _ | ⟨b, rest⟩ <;> rfl

/-- An item fits the bank it is in. -/
theorem length_lt (h : p.Intact) (hstored : p.stored? item = some data) :
    data.length < 2 ^ 32 :=
  ItemTable.items_lt_of_encode_le h.fits h.settled.sound.small (item.id, data)
    (SortedMap.mem_toList_iff.2 hstored)

/-- What a call leaves behind is intact. -/
theorem of_run (h : p.Intact) {call : Call} (hrun : call.run p = .ok () q) : q.Intact := by
  have hq : call.after p = q := by rw [Call.after, hrun]
  refine ⟨hq ▸ h.settled.after call, ?_⟩
  cases hcommits : call.commits? p with
  | none =>
    rw [← hq, Call.after_of_none hcommits]
    exact h.fits
  | some table =>
    rw [← hq, h.settled.after_of_some hcommits]
    exact (Call.commits?_eq_some_iff.1 hcommits).2.2

/-- A write fails only for want of room. -/
theorem write_cases (h : p.Intact) (item : Item) (data : Bytes) :
    (∃ q, (Call.write item.name data).run p = .ok () q ∧ q.Intact ∧
      q.stored? = Function.update p.stored? item (some data)) ∨
    ∃ needed, (Call.write item.name data).run p
      = .error (.storageFull needed p.maxPayload) p := by
  have hitem : (Call.write item.name data).item? = some item := Item.ofName?_name item
  have happlied : (Call.write item.name data).applied? p.items
      = some (p.items.insert item.id data) := by
    rw [Call.applied?, hitem]
    rfl
  have hok : ∀ q, (Call.write item.name data).run p = .ok () q →
      q.Intact ∧ q.stored? = Function.update p.stored? item (some data) := by
    intro q hrun
    have hitems := h.settled.applied_of_ok hrun
    rw [happlied, Option.some.injEq] at hitems
    refine ⟨h.of_run hrun, stored?_eq_update fun id => ?_⟩
    rw [← hitems]
    exact SortedMap.get?_insert ..
  by_cases hsame : p.items.get? item.id = some data
  · have hrun := Call.run_write_same (Item.ofName?_name item) hsame
    exact .inl ⟨p, hrun, hok p hrun⟩
  · have hne : p.items.insert item.id data ≠ p.items := by
      intro heq
      rw [← heq, SortedMap.get?_insert_self] at hsame
      exact hsame rfl
    have hrun := Call.run_of_change hitem hne
    by_cases hfull : p.maxPayload < (ItemTable.encode (p.items.insert item.id data)).length
    · exact .inr ⟨_, hrun.trans (commit_of_full hfull)⟩
    · have hwrite := hrun.trans (h.settled.commit_eq (Nat.not_lt.1 hfull))
      exact .inl ⟨_, hwrite, hok _ hwrite⟩

/-- A deletion never fails for want of room. -/
theorem delete_eq (h : p.Intact) (item : Item) :
    ∃ q, q.Intact ∧ q.stored? = Function.update p.stored? item none ∧
      (Call.delete item.name).run p = item.deletion (p.stored? item) q := by
  have hitem : (Call.delete item.name).item? = some item := Item.ofName?_name item
  have happlied : (Call.delete item.name).applied? p.items = some (p.items.erase item.id) := by
    rw [Call.applied?, hitem]
    rfl
  cases hget : p.items.get? item.id with
  | none =>
    refine ⟨p, h, (Function.update_eq_self_iff.2 hget.symm).symm, ?_⟩
    simp [Call.run, Partition.delete, Call.idOf_eq (Item.ofName?_name item), SortedMap.contains,
      Item.deletion, stored?, hget]
  | some data =>
    have hne : p.items.erase item.id ≠ p.items := by
      intro heq
      rw [← heq, SortedMap.get?_erase_self] at hget
      cases hget
    have hfit := (ItemTable.length_encode_erase_le p.items item.id).trans h.fits
    have hcommits := Call.commits?_eq_some_iff.2 ⟨happlied, hne, hfit⟩
    have hrun := (Call.run_of_some hcommits).trans (h.settled.commit_eq hfit)
    refine ⟨_, h.of_run hrun, stored?_eq_update fun id => SortedMap.get?_erase .., ?_⟩
    rw [hrun, stored?, hget]
    rfl

end Intact

/-- **A partition on a chip keeps its items** as long as the chip has power. -/
def keptItems : KeptItems (Partition FlashChip) remount where
  Valid := Intact
  stored? := stored?
  read_eq := fun item _ => Intact.read_eq item
  write_cases := fun {p} item data h => by
    rcases h.write_cases item data with ⟨q, hrun, hq⟩ | ⟨needed, hrun⟩
    · exact .inl ⟨q, hrun, hq⟩
    · exact .inr ⟨_, p, hrun, h, rfl⟩
  delete_eq := fun item h => by
    obtain ⟨q, hq, hstored, hrun⟩ := h.delete_eq item
    exact ⟨q, Vault.delete_of_deletion hrun, hq, hstored⟩
  reopen_eq := fun {p} h => ⟨p, h.settled.mounts, h, rfl⟩

/-! ## Mounted chips -/

/-- **Whatever is on a chip that mounts, the partition is intact.** -/
theorem intact_of_mount {chip : FlashChip} (hmount : mount chip = .ok p)
    (hsmall : p.maxPayload < 2 ^ 32) (htear : chip.tear = none) : p.Intact :=
  ⟨settled_of_mount hmount hsmall htear, fits_of_mount hmount⟩

/-- A chip with power mounts to the partition it is settled to, which is thus intact. -/
theorem Settled.intact (h : p.Settled) : p.Intact :=
  intact_of_mount h.mounts h.sound.small h.powered

/-! ## Erased chips -/

/-- An erased bank does not begin with the magic letters. -/
theorem held_of_erased {chip : FlashChip} {len n : Nat} (hbanks : HasBanks chip len)
    (himage : chip.image = Bytes.erased n) (bank : Bank) : held chip len bank = none := by
  refine Bank.ofBytes?_of_not_magic fun hmagic => ?_
  have hfirst : (bankBytes chip len bank)[0]? = some 0xFF := by
    have := hbanks.header_lt
    have := hbanks.base_le bank
    rw [bankBytes, Flash.getElem?_readAt, if_pos (by omega), himage, Flash.getElem?_erased,
      if_pos]
    rw [himage, Flash.length_erased] at this
    omega
  have hmem := congrArg (·[0]?) hmagic
  rw [List.getElem?_take, if_pos (by omega), hfirst] at hmem
  exact absurd hmem (by decide)

/-- An erased chip mounts to a partition with an empty table. -/
theorem items_of_erased {n sectorSize : Nat}
    (hmount : mount (FlashChip.ofImage (Bytes.erased n) sectorSize) = .ok p) :
    p.items = .empty := by
  obtain ⟨len, hbanks, rfl⟩ := mount_eq_ok_iff.1 hmount
  rw [held_of_erased hbanks rfl, held_of_erased hbanks rfl]
  rfl

theorem intact_of_erased {n sectorSize : Nat}
    (hmount : mount (FlashChip.ofImage (Bytes.erased n) sectorSize) = .ok p)
    (hsmall : p.maxPayload < 2 ^ 32) : p.Intact ∧ p.stored? = fun _ => none := by
  refine ⟨intact_of_mount hmount hsmall rfl, ?_⟩
  funext item
  rw [stored?, items_of_erased hmount]
  exact SortedMap.get?_empty item.id

end UpdateVault.Partition
