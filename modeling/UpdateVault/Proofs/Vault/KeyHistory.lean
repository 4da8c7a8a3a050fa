import UpdateVault.Proofs.Vault.Atomic

/-!
# Where the keys come from

The two keys are two items, and a call that sets them may write the first one only. So a pair that
is read need not be one that was ever set: its public key is that of the last call that wrote both,
its private key that of the last call that wrote it (`keys_of_history`). The two calls are one
unless a call since then stopped half way, whatever other changes fail; if one did, the pair may be
mixed (`keys_of_two_calls`).
-/

namespace UpdateVault

namespace Vault

variable {σ : Type} [ItemStorage σ] {between : σ → σ → Prop} {s s' start : σ}

/-! ## Histories -/

/-- What a call wrote of the keys. -/
inductive KeyWrite
  | both (k : KeyPair)
  /-- The public key could not be written. -/
  | privateOnly (k : KeyPair)
  deriving DecidableEq, Repr

/-- The keys that the call was to set. -/
def KeyWrite.pair : KeyWrite → KeyPair
  | both k => k
  | privateOnly k => k

/-- What a call writes of the keys: both if it succeeds, and the private one if it fails later. -/
def Call.keyWrite? (s : σ) : Call → Option KeyWrite
  | setKeys k =>
    match Vault.setKeys k s, Vault.write .privateKey k.privateKey s with
    | .ok _ _, _ => some (.both k)
    | .error _ _, .ok _ _ =>
      if k.privateKey.isEmpty || k.publicKey.isEmpty then none else some (.privateOnly k)
    | .error _ _, .error _ _ => none
  | _ => none

/-- What calls wrote of the keys, one after the other, and the storage that is left. -/
inductive KeyHistory (between : σ → σ → Prop) (start : σ) : List KeyWrite → σ → Prop
  | start : KeyHistory between start [] start
  | between {history : List KeyWrite} {s s' : σ} :
      KeyHistory between start history s → between s s' → KeyHistory between start history s'
  | call {history : List KeyWrite} {s : σ} (call : Call) : KeyHistory between start history s →
      KeyHistory between start (history ++ (call.keyWrite? s).toList) (call.run.after s)

end Vault

open Vault (Access Call KeyHistory KeyWrite)

/-- `whole` are the keys of the last call that wrote both, and `halves` those of the calls since
then that could write the private one only. -/
def KeyWrite.LastWhole (history : List KeyWrite) (whole : KeyPair) (halves : List KeyPair) : Prop :=
  ∃ before, history = before ++ .both whole :: halves.map .privateOnly

/-- The public key is that of the last call that wrote both keys, the private key that of the last
call that wrote it. -/
def KeyPair.MadeOf (pair : KeyPair) (history : List KeyWrite) : Prop :=
  ∃ whole halves, KeyWrite.LastWhole history whole halves ∧ pair.publicKey = whole.publicKey ∧
    pair.privateKey = ((whole :: halves).getLast (List.cons_ne_nil _ _)).privateKey

namespace AtomicItems

variable {σ : Type} [ItemStorage σ] {between : σ → σ → Prop} (L : AtomicItems σ between)
  {s s' start : σ} {history : List KeyWrite} {call : Call} {item : Item}

/-! ## What calls do to the keys -/

theorem valid_call (hs : L.Valid s) (call : Call) : L.Valid (call.run.after s) :=
  Call.preserves (fun access _ _ ht => L.valid_run access ht) hs

/-- A change of another item leaves an item as it is, whether it is made or not. -/
theorem stored?_access (hs : L.Valid s) {access : Access} (hne : item ≠ access.item) :
    L.stored? (access.run.after s) item = L.stored? s item := by
  cases access with
  | write other data =>
    replace hne : item ≠ other := hne
    show L.stored? ((Vault.write other data).after s) item = _
    cases hwrite : Vault.write other data s with
    | ok _ t =>
      rw [Update.after_of_ok hwrite, L.write_ok hs hwrite, Function.update_of_ne hne]
    | error e t => rw [Update.after_of_error hwrite, L.write_error hs hwrite]
  | delete other =>
    replace hne : item ≠ other := hne
    show L.stored? ((Vault.delete other).after s) item = _
    rcases L.delete other hs with hsame | hgone
    · rw [hsame]
    · rw [hgone, Function.update_of_ne hne]

/-- A call leaves the items it is not about. -/
theorem stored?_call (hs : L.Valid s) (hitem : item ∉ call.items) :
    L.stored? (call.run.after s) item = L.stored? s item := by
  have hboth : L.Valid (call.run.after s) ∧
      L.stored? (call.run.after s) item = L.stored? s item := by
    refine Call.preserves (P := fun t => L.Valid t ∧ L.stored? t item = L.stored? s item)
      (fun access hmem t ht => ?_) ⟨hs, rfl⟩
    have hne : item ≠ access.item := fun he => hitem (he ▸ hmem)
    exact ⟨L.valid_run access ht.1, (L.stored?_access ht.1 hne).trans ht.2⟩
  exact hboth.2

/-- A deletion leaves an item as it is, or takes it away. -/
theorem stored?_delete (hs : L.Valid s) (other item : Item) :
    L.stored? ((Vault.delete other).after s) item = L.stored? s item ∨
      L.stored? ((Vault.delete other).after s) item = none := by
  rcases L.delete other hs with hsame | hgone
  · exact .inl (congrFun hsame item)
  · rw [hgone, Function.update_apply]
    split
    · exact .inr rfl
    · exact .inl rfl

theorem stored?_deleteKeys (hs : L.Valid s) (item : Item) :
    L.stored? ((Call.run .deleteKeys).after s) item = L.stored? s item ∨
      L.stored? ((Call.run .deleteKeys).after s) item = none := by
  rw [Call.after_deleteKeys]
  have hfirst := L.stored?_delete hs .privateKey item
  have hvalid : L.Valid ((Vault.delete .privateKey).after s) :=
    L.valid_run (.delete .privateKey) hs
  rcases L.stored?_delete hvalid .publicKey item with hsame | hnone
  · rwa [hsame]
  · exact .inr hnone

/-- A call that does not set the keys leaves them as they are, or takes them away. -/
theorem stored?_of_not_setKeys (hs : L.Valid s) (hcall : ∀ k, call ≠ .setKeys k)
    (hitem : item ∈ [Item.privateKey, .publicKey]) :
    L.stored? (call.run.after s) item = L.stored? s item ∨
      L.stored? (call.run.after s) item = none := by
  cases call with
  | setKeys k => exact absurd rfl (hcall k)
  | deleteKeys => exact L.stored?_deleteKeys hs item
  | _ =>
    refine .inl (L.stored?_call hs ?_)
    simp only [List.mem_cons, List.not_mem_nil, or_false] at hitem
    rcases hitem with rfl | rfl <;> simp [Call.items]

/-! ## Keys by their history -/

/-- The keys that are stored are those that the history says. -/
structure KeysOf (history : List KeyWrite) (s : σ) : Prop where
  valid : L.Valid s
  privateKey : ∀ bytes, L.stored? s .privateKey = some bytes →
    ∃ w, history.getLast? = some w ∧ w.pair.privateKey = bytes
  publicKey : ∀ bytes, L.stored? s .publicKey = some bytes →
    ∃ whole halves, KeyWrite.LastWhole history whole halves ∧ whole.publicKey = bytes

variable {L}

namespace KeysOf

/-- Keys that stay, or go, are those that the history says. -/
theorem of_fewer (h : L.KeysOf history s) (hvalid : L.Valid s')
    (hkeys : ∀ item ∈ [Item.privateKey, .publicKey],
      L.stored? s' item = L.stored? s item ∨ L.stored? s' item = none) :
    L.KeysOf history s' := by
  refine ⟨hvalid, fun bytes hbytes => ?_, fun bytes hbytes => ?_⟩
  · rcases hkeys .privateKey (by simp) with hsame | hnone
    · exact h.privateKey bytes (hsame ▸ hbytes)
    · rw [hnone] at hbytes
      cases hbytes
  · rcases hkeys .publicKey (by simp) with hsame | hnone
    · exact h.publicKey bytes (hsame ▸ hbytes)
    · rw [hnone] at hbytes
      cases hbytes

theorem append_half (h : L.KeysOf history s) (hvalid : L.Valid s') {k : KeyPair}
    (hstored : L.stored? s' = Function.update (L.stored? s) .privateKey (some k.privateKey)) :
    L.KeysOf (history ++ [.privateOnly k]) s' := by
  refine ⟨hvalid, fun bytes hbytes => ?_, fun bytes hbytes => ?_⟩
  · rw [hstored, Function.update_self] at hbytes
    cases hbytes
    exact ⟨.privateOnly k, by simp, rfl⟩
  · rw [hstored, Function.update_of_ne (by decide)] at hbytes
    obtain ⟨whole, halves, ⟨before, rfl⟩, hpublic⟩ := h.publicKey bytes hbytes
    exact ⟨whole, halves ++ [k], ⟨before, by simp⟩, hpublic⟩

theorem append_both (hvalid : L.Valid s) {k : KeyPair}
    (hprivate : L.stored? s .privateKey = some k.privateKey)
    (hpublic : L.stored? s .publicKey = some k.publicKey) :
    L.KeysOf (history ++ [.both k]) s := by
  refine ⟨hvalid, fun bytes hbytes => ?_, fun bytes hbytes => ?_⟩
  · cases hprivate.symm.trans hbytes
    exact ⟨.both k, by simp, rfl⟩
  · cases hpublic.symm.trans hbytes
    exact ⟨k, [], ⟨history, rfl⟩, rfl⟩

/-- What setting the keys leaves is what the history then says. -/
theorem setKeys (h : L.KeysOf history s) (k : KeyPair) :
    L.KeysOf (history ++ (Call.keyWrite? s (.setKeys k)).toList)
      ((Call.run (.setKeys k)).after s) := by
  have hvalid := L.valid_call h.valid (.setKeys k)
  have hrun : Vault.setKeys k s = _ := congrFun (Vault.setKeys_eq k) s
  show L.KeysOf _ ((Vault.setKeys k).after s)
  replace hvalid : L.Valid ((Vault.setKeys k).after s) := hvalid
  rw [Call.keyWrite?]
  by_cases hempty : (k.privateKey.isEmpty || k.publicKey.isEmpty) = true
  · rw [if_pos hempty] at hrun
    replace hrun : Vault.setKeys k s = .error (.invalidInput .emptyKeys) s := hrun
    rw [Update.after_of_error hrun]
    simp only [hrun, hempty, if_true]
    cases Vault.write .privateKey k.privateKey s <;> simpa using h
  rw [if_neg hempty] at hrun
  cases hprivate : Vault.write .privateKey k.privateKey s with
  | error e t =>
    rw [Update.bind_error hprivate] at hrun
    rw [Update.after_of_error hrun] at hvalid ⊢
    simp only [hrun, Option.toList_none, List.append_nil]
    exact h.of_fewer hvalid fun item _ => .inl (congrFun (L.write_error h.valid hprivate) item)
  | ok _ t =>
    rw [Update.bind_ok hprivate] at hrun
    have ht : L.Valid t := Update.after_of_ok hprivate ▸
      L.valid_run (.write .privateKey k.privateKey) h.valid
    have hfirst := L.write_ok h.valid hprivate
    cases hpublic : Vault.write .publicKey k.publicKey t with
    | error e u =>
      rw [hpublic] at hrun
      rw [Update.after_of_error hrun] at hvalid ⊢
      simp only [hrun, hempty, Bool.false_eq_true, if_false, Option.toList_some]
      exact h.append_half hvalid ((L.write_error ht hpublic).trans hfirst)
    | ok _ u =>
      rw [hpublic] at hrun
      rw [Update.after_of_ok hrun] at hvalid ⊢
      simp only [hrun, Option.toList_some]
      have hsecond := L.write_ok ht hpublic
      refine append_both hvalid ?_ ?_
      · rw [hsecond, Function.update_of_ne (by decide), hfirst, Function.update_self]
      · rw [hsecond, Function.update_self]

theorem after_call (h : L.KeysOf history s) (call : Call) :
    L.KeysOf (history ++ (call.keyWrite? s).toList) (call.run.after s) := by
  by_cases hset : ∃ k, call = .setKeys k
  · obtain ⟨k, rfl⟩ := hset
    exact h.setKeys k
  · have hcall : ∀ k, call ≠ .setKeys k := fun k hk => hset ⟨k, hk⟩
    have hnone : call.keyWrite? s = none := by
      cases call with
      | setKeys k => exact absurd rfl (hcall k)
      | _ => rfl
    rw [hnone, Option.toList_none, List.append_nil]
    exact h.of_fewer (L.valid_call h.valid call) fun item hitem =>
      L.stored?_of_not_setKeys h.valid hcall hitem

end KeysOf

/-- **The keys are those that the history says, at every time.** -/
theorem keysOf_history (hstart : L.Valid start)
    (hnone : ∀ item ∈ [Item.privateKey, .publicKey], L.stored? start item = none)
    (h : KeyHistory between start history s) : L.KeysOf history s := by
  induction h with
  | start =>
    refine ⟨hstart, fun bytes hbytes => ?_, fun bytes hbytes => ?_⟩
    · rw [hnone .privateKey (by simp)] at hbytes
      cases hbytes
    · rw [hnone .publicKey (by simp)] at hbytes
      cases hbytes
  | between _ hbetween ih =>
    obtain ⟨hvalid, hstored⟩ := L.between_eq ih.valid hbetween
    exact ih.of_fewer hvalid fun item _ => .inl (congrFun hstored item)
  | call call _ ih => exact ih.after_call call

/-- A pair that is read is made of what the history says of each key. -/
theorem KeysOf.madeOf {pair : KeyPair} (h : L.KeysOf history s) (hkeys : Vault.keys s = .ok pair) :
    pair.MadeOf history := by
  obtain ⟨privateKey, hprivate, hrest⟩ := Update.except_bind_eq_ok_iff.1 hkeys
  obtain ⟨publicKey, hpublic, hpair⟩ := Update.except_bind_eq_ok_iff.1 hrest
  cases hpair
  obtain ⟨whole, halves, ⟨before, rfl⟩, hwhole⟩ :=
    h.publicKey publicKey (L.read_ok h.valid hpublic)
  obtain ⟨w, hlast, hw⟩ := h.privateKey privateKey (L.read_ok h.valid hprivate)
  refine ⟨whole, halves, ⟨before, rfl⟩, hwhole.symm, ?_⟩
  -- the last of the writes is one of the calls that are left to choose from
  have hwrites : (KeyWrite.both whole :: halves.map .privateOnly).getLast? = some w := by
    rwa [List.getLast?_append, List.getLast?_eq_some_getLast (List.cons_ne_nil _ _),
      Option.some_or, ← List.getLast?_eq_some_getLast] at hlast
  have hcalls : whole :: halves
      = (KeyWrite.both whole :: halves.map .privateOnly).map KeyWrite.pair := by
    simp [KeyWrite.pair, Function.comp_def]
  have hpair : (whole :: halves).getLast? = some w.pair := by
    rw [hcalls, List.getLast?_map, hwrites]
    rfl
  rw [List.getLast?_eq_some_getLast (List.cons_ne_nil _ _), Option.some.injEq] at hpair
  rw [hpair]
  exact hw.symm

theorem madeOf_of_history {pair : KeyPair} (hstart : L.Valid start)
    (hnone : ∀ item ∈ [Item.privateKey, .publicKey], L.stored? start item = none)
    (h : KeyHistory between start history s) (hkeys : Vault.keys s = .ok pair) :
    pair.MadeOf history :=
  (keysOf_history hstart hnone h).madeOf hkeys

end AtomicItems

namespace Vault

/-- **The public key is that of the last call that set both keys, and the private key is that of the
last call that wrote it**, whichever changes fail on the way, on every storage that begins without
keys and where a change that fails has no effect: items in memory, a partition on any device, one
that is mounted anew on a chip or in a file, and a directory. -/
theorem keys_of_history :
    (∀ {σ : Type} [ItemStorage σ] {between : σ → σ → Prop} (L : AtomicItems σ between)
        {start s : σ} {history : List KeyWrite} {pair : KeyPair}, L.Valid start →
      (∀ item ∈ [Item.privateKey, .publicKey], L.stored? start item = none) →
      KeyHistory between start history s → keys s = .ok pair → pair.MadeOf history) ∧
    (∀ {start s : MemoryStorage} {history : List KeyWrite} {pair : KeyPair},
      (∀ item ∈ [Item.privateKey, .publicKey], start.items.get? item.name = none) →
      KeyHistory MemoryStorage.Disturbed start history s → keys s = .ok pair →
      pair.MadeOf history) ∧
    (∀ {φ : Type} [FlashMemory φ] {p q : Partition φ} {history : List KeyWrite} {pair : KeyPair},
      (∀ item ∈ [Item.privateKey, .publicKey], p.stored? item = none) →
      KeyHistory Partition.SameTable p history q → keys q = .ok pair → pair.MadeOf history) ∧
    (∀ {chip : FlashChip} {p q : Partition FlashChip} {history : List KeyWrite} {pair : KeyPair},
      Partition.mount chip = .ok p → p.maxPayload < 2 ^ 32 → chip.tear = none →
      (∀ item ∈ [Item.privateKey, .publicKey], p.stored? item = none) →
      KeyHistory (Reopened Partition.remount) p history q → keys q = .ok pair →
      pair.MadeOf history) ∧
    (∀ {path : Path} {sectorSize sectorCount : Nat} {d d' : Disk} {f : FlashImageFile}
        {p q : Partition FlashImageFile} {history : List KeyWrite} {pair : KeyPair},
      FlashImageFile.open path sectorSize sectorCount d = .ok f d' →
      Partition.mount f = .ok p → p.maxPayload < 2 ^ 32 →
      (∀ item ∈ [Item.privateKey, .publicKey], p.stored? item = none) →
      KeyHistory (Reopened Partition.reopenFile) p history q → keys q = .ok pair →
      pair.MadeOf history) ∧
    (∀ {root : Path} {d d' : Disk} {s t : ItemDirectory} {history : List KeyWrite}
        {pair : KeyPair},
      ItemDirectory.open root d = .ok s d' →
      (∀ item ∈ [Item.privateKey, .publicKey], s.stored? item = none) →
      KeyHistory (Reopened ItemDirectory.reopen) s history t → keys t = .ok pair →
      pair.MadeOf history) := by
  refine ⟨?storage, ?memory, ?table, ?chip, ?file, ?directory⟩
  case storage =>
    intro σ _ between L start s history pair hstart hnone
    exact L.madeOf_of_history hstart hnone
  case memory =>
    intro start s history pair hnone
    exact MemoryStorage.atomic.madeOf_of_history trivial hnone
  case table =>
    intro φ _ p q history pair hnone
    exact Partition.atomic.madeOf_of_history trivial hnone
  case chip =>
    intro chip p q history pair hmount hsmall htear hnone
    have hvalid := Partition.intact_of_mount hmount hsmall htear
    exact Partition.keptItems.atomic.madeOf_of_history hvalid hnone
  case file =>
    intro path sectorSize sectorCount d d' f p q history pair hopen hmount hsmall hnone
    have hvalid := Partition.valid_of_open hopen hmount hsmall
    exact Partition.keptItemsInFile.atomic.madeOf_of_history hvalid hnone
  case directory =>
    intro root d d' s t history pair hopen hnone
    obtain ⟨hroot, hfound⟩ := ItemDirectory.open_eq_ok hopen
    have hvalid : s.disk.find s.root = .ok (s.place, .directory) := hroot ▸ hfound
    exact ItemDirectory.atomic.madeOf_of_history hvalid hnone

/-- The public key cannot be written. -/
def publicKeyFault : StorageCall → String → Option StorageError := fun access name =>
  if access = .write ∧ name = Item.publicKey.name then some .timeout else none

theorem keys_of_history_stuckKey :
    (∃ s, KeyHistory MemoryStorage.Disturbed .empty [.both ⟨[1], [2]⟩, .privateOnly ⟨[3], [4]⟩] s ∧
      keys s = .ok ⟨[3], [2]⟩ ∧
      KeyPair.MadeOf ⟨[3], [2]⟩ [.both ⟨[1], [2]⟩, .privateOnly ⟨[3], [4]⟩]) ∧
    (∀ p history pair, KeyHistory (Reopened Partition.remount) Partition.blank history p →
      keys p = .ok pair → pair.MadeOf history) ∧
    (∃ f d p, FlashImageFile.open ⟨"/f"⟩ 21 2 emptyDisk = .ok f d ∧ Partition.mount f = .ok p ∧
      ∀ q history pair, KeyHistory (Reopened Partition.reopenFile) p history q →
        keys q = .ok pair → pair.MadeOf history) ∧
    ∃ s d, ItemDirectory.open ⟨"/"⟩ emptyDisk = .ok s d ∧
      ∀ t history pair, KeyHistory (Reopened ItemDirectory.reopen) s history t →
        keys t = .ok pair → pair.MadeOf history := by
  obtain ⟨-, hmemory, -, hchip, hfile, hdirectory⟩ := keys_of_history
  refine ⟨?_, ?_, ?_, ?_⟩
  · have hset : KeyHistory MemoryStorage.Disturbed .empty [.both ⟨[1], [2]⟩]
        ((Call.setKeys ⟨[1], [2]⟩).run.after .empty) := .call (.setKeys ⟨[1], [2]⟩) .start
    have hstuck : KeyHistory MemoryStorage.Disturbed .empty [.both ⟨[1], [2]⟩]
        { (Call.setKeys ⟨[1], [2]⟩).run.after MemoryStorage.empty with fault? := publicKeyFault } :=
      hset.between rfl
    have hhistory := hstuck.call (.setKeys ⟨[3], [4]⟩)
    exact ⟨_, hhistory, rfl, hmemory (by decide) hhistory rfl⟩
  · intro p history pair
    exact hchip Partition.mount_blank (by decide) rfl (by decide)
  · obtain ⟨f, hopen, herased, p, hmount, hsmall⟩ := open_new_image
    obtain ⟨-, hnone⟩ := Partition.intact_of_open hopen herased hmount hsmall
    refine ⟨f, _, p, hopen, hmount, fun q history pair => ?_⟩
    exact hfile hopen hmount hsmall fun item _ => congrFun hnone item
  · have hfind : emptyDisk.find ⟨"/"⟩ = .ok ([], .directory) := by decide
    have hopen := ItemDirectory.open_of_find hfind
    exact ⟨_, _, hopen, fun t history pair => hdirectory hopen (by decide)⟩

/-- Two calls were given two pairs, and the pair that is read is neither of them. -/
theorem keys_of_two_calls :
    ∃ s s', setKeys ⟨[1], [2]⟩ MemoryStorage.empty = .ok () s ∧
      setKeys ⟨[3], [4]⟩ { s with fault? := publicKeyFault } = .error .timeout s' ∧
      keys s' = .ok ⟨[3], [2]⟩ ∧ (⟨[3], [2]⟩ : KeyPair) ∉ [⟨[1], [2]⟩, ⟨[3], [4]⟩] :=
  ⟨_, _, rfl, rfl, rfl, by decide⟩

end Vault

end UpdateVault
