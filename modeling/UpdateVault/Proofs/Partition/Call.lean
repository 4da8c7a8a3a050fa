import UpdateVault.Proofs.Partition.Commit

/-!
# Writing and deleting items

A call puts one item in or takes one out. It commits the table it would leave behind, unless
that is the table that is there already or one too large (`Call.run_cases`). Between calls a
partition on a chip with power is `Settled`: the chip mounts to it (`Settled.after`).
-/

namespace UpdateVault.Partition

variable {p q : Partition FlashChip} {chip : FlashChip} {items table : ItemTable} {call : Call}

/-- A call that changes the items. -/
inductive Call
  | write (name : String) (data : Bytes)
  | delete (name : String)
  deriving DecidableEq, Repr

namespace Call

def run : Call → Update StorageError (Partition FlashChip) Unit
  | write name data => Partition.write name data
  | delete name => Partition.delete name

/-- The item that a call is about. -/
def item? : Call → Option Item
  | write name _ => Item.ofName? name
  | delete name => Item.ofName? name

/-- The table with the item put in or taken out. -/
def change (item : Item) (items : ItemTable) : Call → ItemTable
  | write _ data => items.insert item.id data
  | delete _ => items.erase item.id

/-- The table that a call is to leave behind; none if there is no such item. -/
def applied? (call : Call) (items : ItemTable) : Option ItemTable :=
  call.item?.map (call.change · items)

/-- The table that a call commits: a different one that fits a bank. -/
def commits? (call : Call) (p : Partition FlashChip) : Option ItemTable :=
  (call.applied? p.items).filter fun table =>
    table ≠ p.items ∧ table.encode.length ≤ p.maxPayload

/-- Where a call ends, with or without success. -/
def after (call : Call) (p : Partition FlashChip) : Partition FlashChip :=
  match call.run p with
  | .ok () q => q
  | .error _ q => q

theorem after_eq (call : Call) (p : Partition FlashChip) : call.after p = call.run.after p := by
  rw [after, Update.after]
  cases call.run p <;> rfl

theorem commits?_eq_some_iff :
    call.commits? p = some table ↔ call.applied? p.items = some table ∧
      table ≠ p.items ∧ table.encode.length ≤ p.maxPayload := by
  simp [commits?, Option.filter_eq_some_iff]

theorem commits?_eq_none_iff :
    call.commits? p = none ↔ ∀ table, call.applied? p.items = some table →
      table ≠ p.items → p.maxPayload < table.encode.length := by
  simp [commits?, Option.filter_eq_none_iff]

/-! ## Other items -/

/-- A call leaves all entries but that of its item, also those of numbers no item has. -/
theorem get?_of_applied (h : call.applied? items = some table) {id : UInt16}
    (hid : ∀ item, call.item? = some item → item.id ≠ id) : table.get? id = items.get? id := by
  obtain ⟨item, hitem, rfl⟩ := Option.map_eq_some_iff.1 h
  have hne : id ≠ item.id := fun he => hid item hitem he.symm
  cases call with
  | write name data => exact SortedMap.get?_insert_ne items data hne
  | delete name => exact SortedMap.get?_erase_ne items hne

/-- A partition answers for the item of a call as the call is to leave it. Empty data counts as
absent. -/
def Visible (r : Partition FlashChip) : Call → Prop
  | write name data =>
    r.read name = if data = [] then .error (.notFound name) else .ok data
  | delete name => r.read name = .error (.notFound name)

theorem idOf_eq {name : String} {item : Item} (h : Item.ofName? name = some item) :
    idOf name = .ok item.id := by rw [idOf, h]

theorem visible_of_applied (h : call.applied? items = some q.items) : call.Visible q := by
  obtain ⟨item, hitem, hchange⟩ := Option.map_eq_some_iff.1 h
  cases call with
  | write name data =>
    have hget : q.items.get? item.id = some data := by
      rw [← hchange]
      exact SortedMap.get?_insert_self ..
    cases data <;> simp [Visible, read, idOf_eq hitem, hget, bind, Except.bind, throw, throwThe,
      MonadExceptOf.throw, pure, Except.pure]
  | delete name =>
    have hget : q.items.get? item.id = none := by
      rw [← hchange]
      exact SortedMap.get?_erase_self ..
    simp [Visible, read, idOf_eq hitem, hget, bind, Except.bind, throw, throwThe,
      MonadExceptOf.throw]

/-! ## What a call does -/

/-- A call about a partition on any device. -/
def runOn {φ : Type} [FlashMemory φ] : Call → Update StorageError (Partition φ) Unit
  | write name data => Partition.write name data
  | delete name => Partition.delete name

theorem run_eq_runOn (call : Call) : call.run = call.runOn := by cases call <;> rfl

section

variable {φ : Type} [FlashMemory φ] {q : Partition φ}

/-- A call about nothing that is known fails. -/
theorem runOn_of_unknown (h : call.item? = none) : ∃ e, call.runOn q = .error e q := by
  cases call with
  | write name data =>
    replace h : Item.ofName? name = none := h
    exact ⟨.unknownItem name, by simp only [runOn, Partition.write, idOf, h]⟩
  | delete name =>
    replace h : Item.ofName? name = none := h
    exact ⟨.unknownItem name, by simp only [runOn, Partition.delete, idOf, h]⟩

/-- Writing what is there already succeeds. -/
theorem runOn_write_same {name : String} {data : Bytes} {item : Item}
    (h : Item.ofName? name = some item) (hget : q.items.get? item.id = some data) :
    (write name data).runOn q = .ok () q := by
  simp only [runOn, Partition.write, idOf_eq h, if_pos hget]

/-- A call that would change nothing does nothing: it writes what is there, or deletes what is
not there. -/
theorem runOn_of_same {item : Item} (h : call.item? = some item)
    (hsame : call.change item q.items = q.items) :
    call.runOn q = .ok () q ∨ ∃ e, call.runOn q = .error e q := by
  cases call with
  | write name data =>
    have hget : q.items.get? item.id = some data := by
      rw [← hsame]
      exact SortedMap.get?_insert_self ..
    exact .inl (runOn_write_same h hget)
  | delete name =>
    have hget : q.items.contains item.id = false := by
      rw [← hsame]
      simp [change, SortedMap.contains]
    exact .inr ⟨.notFound name, by simp [runOn, Partition.delete, idOf_eq h, hget]⟩

theorem runOn_of_change {item : Item} (h : call.item? = some item)
    (hchange : call.change item q.items ≠ q.items) :
    call.runOn q = commit (call.change item q.items) q := by
  cases call with
  | write name data =>
    have hget : q.items.get? item.id ≠ some data := by
      intro hget
      exact hchange (SortedMap.insert_eq_self hget)
    simp only [runOn, Partition.write, idOf_eq h, if_neg hget]
    rfl
  | delete name =>
    have hget : q.items.contains item.id = true := by
      rcases hc : q.items.contains item.id with _ | _
      · exact absurd (SortedMap.erase_eq_self (by simpa [SortedMap.contains] using hc)) hchange
      · rfl
    simp only [runOn, Partition.delete, idOf_eq h, if_pos hget]
    rfl

/-- **A call commits its table or does nothing**, whatever the device. If it does nothing and
succeeds, the table it is to leave behind is the one in memory. -/
theorem runOn_cases (call : Call) (q : Partition φ) :
    (∃ table, call.applied? q.items = some table ∧ table ≠ q.items ∧
      table.encode.length ≤ q.maxPayload ∧ call.runOn q = commit table q) ∨
    (∀ table, call.applied? q.items = some table → table ≠ q.items →
      q.maxPayload < table.encode.length) ∧
      (call.runOn q = .ok () q ∧ call.applied? q.items = some q.items ∨
        ∃ e, call.runOn q = .error e q) := by
  cases hitem : call.item? with
  | none =>
    have happlied : call.applied? q.items = none := by rw [applied?, hitem]; rfl
    refine .inr ⟨fun table htable => ?_, .inr (runOn_of_unknown hitem)⟩
    rw [happlied] at htable
    cases htable
  | some item =>
    have happlied : call.applied? q.items = some (call.change item q.items) := by
      rw [applied?, hitem]
      rfl
    by_cases hsame : call.change item q.items = q.items
    · refine .inr ⟨fun table htable hne => ?_, ?_⟩
      · rw [happlied, hsame, Option.some.injEq] at htable
        exact absurd htable.symm hne
      · rcases runOn_of_same hitem hsame with hok | herror
        · exact .inl ⟨hok, by rw [happlied, hsame]⟩
        · exact .inr herror
    · have hrun := runOn_of_change hitem hsame
      by_cases hfull : q.maxPayload < (call.change item q.items).encode.length
      · refine .inr ⟨fun table htable _ => ?_, .inr ⟨_, hrun.trans (commit_of_full hfull)⟩⟩
        rw [happlied, Option.some.injEq] at htable
        exact htable ▸ hfull
      · exact .inl ⟨_, happlied, hsame, Nat.not_lt.1 hfull, hrun⟩

end

theorem run_write_same {name : String} {data : Bytes} {item : Item}
    (h : Item.ofName? name = some item) (hget : p.items.get? item.id = some data) :
    (write name data).run p = .ok () p := runOn_write_same h hget

theorem run_of_change {item : Item} (h : call.item? = some item)
    (hchange : call.change item p.items ≠ p.items) :
    call.run p = commit (call.change item p.items) p := by
  rw [run_eq_runOn]
  exact runOn_of_change h hchange

theorem run_cases (call : Call) (p : Partition FlashChip) :
    (∃ table, call.commits? p = some table ∧ call.run p = commit table p) ∨
    call.commits? p = none ∧
      (call.run p = .ok () p ∧ call.applied? p.items = some p.items ∨
        ∃ e, call.run p = .error e p) := by
  rw [run_eq_runOn, commits?_eq_none_iff]
  rcases runOn_cases call p with ⟨table, happlied, hne, hfit, hrun⟩ | hnothing
  · exact .inl ⟨table, commits?_eq_some_iff.2 ⟨happlied, hne, hfit⟩, hrun⟩
  · exact .inr hnothing

theorem run_of_some (h : call.commits? p = some table) : call.run p = commit table p := by
  rcases run_cases call p with ⟨table', hsome, hrun⟩ | ⟨hnone, -⟩
  · rw [hrun, Option.some.inj (hsome.symm.trans h)]
  · rw [hnone] at h
    cases h

theorem after_of_none (h : call.commits? p = none) : call.after p = p := by
  rcases run_cases call p with ⟨table', hsome, -⟩ | ⟨-, ⟨hrun, -⟩ | ⟨e, hrun⟩⟩
  · rw [h] at hsome
    cases hsome
  · rw [after, hrun]
  · rw [after, hrun]

/-- A call that succeeds without a commit leaves the table it finds. -/
theorem applied_of_none (h : call.commits? p = none) (hrun : call.run p = .ok () q) :
    q = p ∧ call.applied? p.items = some q.items := by
  rcases run_cases call p with ⟨table', hsome, -⟩ | ⟨-, ⟨hok, happlied⟩ | ⟨e, herror⟩⟩
  · rw [h] at hsome
    cases hsome
  · rw [hok] at hrun
    cases hrun
    exact ⟨rfl, happlied⟩
  · rw [herror] at hrun
    cases hrun

end Call

/-! ## Between calls -/

/-- The chip has power, and mounts to the partition as it is. -/
structure Settled (p : Partition FlashChip) : Prop where
  sound : p.Sound
  mounts : mount p.device = .ok p
  powered : p.device.tear = none

theorem settled_of_mount (h : mount chip = .ok p) (hsmall : p.maxPayload < 2 ^ 32)
    (htear : chip.tear = none) : p.Settled := by
  obtain ⟨rfl, hsound⟩ := sound_of_mount h hsmall
  exact ⟨hsound, h, htear⟩

namespace Settled

theorem addressed (h : p.Settled) : p.Addressed := ⟨h.sound.banks, h.sound.inRange, h.powered⟩

theorem commit_eq (h : p.Settled) (hfit : table.encode.length ≤ p.maxPayload) :
    commit table p = .ok () (p.committed table) := h.addressed.commit_eq hfit

theorem after_of_some (h : p.Settled) (hcommits : call.commits? p = some table) :
    call.after p = p.committed table := by
  rw [Call.after, Call.run_of_some hcommits,
    h.commit_eq (Call.commits?_eq_some_iff.1 hcommits).2.2]

/-- A completed call leaves a chip that mounts to what the call has left in memory. -/
theorem after (h : p.Settled) (call : Call) : (call.after p).Settled := by
  cases hcommits : call.commits? p with
  | none =>
    rw [Call.after_of_none hcommits]
    exact h
  | some table =>
    have hfit := (Call.commits?_eq_some_iff.1 hcommits).2.2
    rw [h.after_of_some hcommits]
    exact ⟨h.sound.committed hfit, h.sound.mount_committed hfit, rfl⟩

theorem maxPayload_after (h : p.Settled) (call : Call) :
    (call.after p).maxPayload = p.maxPayload := by
  cases hcommits : call.commits? p with
  | none => rw [Call.after_of_none hcommits]
  | some table =>
    rw [h.after_of_some hcommits]
    rfl

theorem applied_of_ok (h : p.Settled) (hrun : call.run p = .ok () q) :
    call.applied? p.items = some q.items := by
  cases hcommits : call.commits? p with
  | none => exact (Call.applied_of_none hcommits hrun).2
  | some table =>
    obtain ⟨happlied, -, hfit⟩ := Call.commits?_eq_some_iff.1 hcommits
    rw [Call.run_of_some hcommits, h.commit_eq hfit] at hrun
    cases hrun
    exact happlied

end Settled

end UpdateVault.Partition
