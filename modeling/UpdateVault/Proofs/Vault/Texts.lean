import UpdateVault.Proofs.Storage.Selected
import UpdateVault.Proofs.Vault.Atomic

/-!
# Texts come back

The two records that are texts, on storages where what was written is read (`StoresFaithfully`): the
artifact name and the capabilities are answered as they were set, but for NUL characters at the end
of the stored text (`TextsComeBack`). Directories, partitions on any device and items in memory are
such storages (`texts_come_back`).
-/

namespace UpdateVault

open Text (withoutTerminator)

/-- An item that was just written, and is not empty, is read as it was written. -/
def StoresFaithfully {σ : Type} [ItemStorage σ] (s : σ) : Prop :=
  ∀ (item : Item) (data : Bytes) (s' : σ), data ≠ [] → Vault.write item data s = .ok () s' →
    Vault.read s' item = .ok data

/-! ## Storages -/

/-- Data that is not empty is told as it is. -/
theorem Item.answer_of_ne_nil {item : Item} {data : Bytes} (h : data ≠ []) :
    item.answer (some data) = .ok data := by
  obtain ⟨b, rest, rfl⟩ := List.exists_cons_of_ne_nil h
  rfl

/-- A file that was written is there, and its path is one that calls take. -/
theorem ItemDirectory.storesFaithfully (s : ItemDirectory) : StoresFaithfully s := by
  intro item data s' hne hwrite
  obtain ⟨-, hreach, hs', hreplace⟩ := write_eq_ok hwrite
  have hfile : s'.disk.fileAt (fileOf s'.place item.name) = .ok data := by
    rw [hs']
    exact (Disk.fileAt_eq_ok_iff (nameable_fileOf s.place item)).2 (Disk.node?_of_replace hreplace)
  have hreach' : reachFault? s'.root item.name = none := by
    rw [hs']
    exact reach_of_temporary hreach
  obtain ⟨b, rest, rfl⟩ := List.exists_cons_of_ne_nil hne
  show read s' item.name = _
  rw [read, if_pos (isItemName_name item), hreach', hfile]

/-- Items are read from the table in memory, whatever the device does. -/
theorem Partition.storesFaithfully {φ : Type} [FlashMemory φ] (p : Partition φ) :
    StoresFaithfully p := by
  intro item data q hne hwrite
  have hstored : q.stored? = Function.update p.stored? item (some data) :=
    atomic.write_ok trivial hwrite
  have hread : Vault.read q item = item.answer (q.stored? item) := Intact.read_eq item
  rw [hread, hstored, Function.update_self, Item.answer_of_ne_nil hne]

theorem MemoryStorage.storesFaithfully {s : MemoryStorage}
    (hs : ∀ name, s.fault? .read name = none) : StoresFaithfully s := by
  intro item data s' hne hwrite
  replace hwrite : write item.name data s = .ok () s' := hwrite
  rw [write] at hwrite
  split at hwrite
  · cases hwrite
  · cases hwrite
    obtain ⟨b, rest, rfl⟩ := List.exists_cons_of_ne_nil hne
    show read _ item.name = _
    simp only [read, hs, SortedMap.get?_insert_self]

/-- A storage that passes calls on to a part of it stores as the part does. -/
theorem SelectedStorage.storesFaithfully (s : SelectedStorage) : StoresFaithfully s := by
  intro item data s' hne hwrite
  cases s with
  | directory items =>
    replace hwrite : within directory (Vault.write item data) items = .ok () s' := hwrite
    obtain ⟨t, ht, rfl⟩ := within_eq_ok hwrite
    exact items.storesFaithfully item data t hne ht
  | partition items =>
    replace hwrite : within partition (Vault.write item data) items = .ok () s' := hwrite
    obtain ⟨t, ht, rfl⟩ := within_eq_ok hwrite
    exact items.storesFaithfully item data t hne ht
  | absent disk => cases hwrite

namespace Vault

variable {σ : Type} [ItemStorage σ] {s s' : σ} {m : Provides} {name : String}

/-! ## Setting texts -/

theorem setArtifactName_eq_ok (h : Vault.setArtifactName name s = .ok () s') :
    Utf8.encode name ≠ [] ∧ Vault.write .artifactName (Utf8.encode name) s = .ok () s' := by
  rw [setArtifactName_eq] at h
  cases hempty : name.isEmpty with
  | true =>
    rw [if_pos hempty] at h
    cases h
  | false =>
    rw [if_neg (by simp [hempty])] at h
    exact ⟨encode_ne_nil hempty, h⟩

theorem setProvides_eq_ok (hne : m.toList ≠ []) (h : Vault.setProvides m s = .ok () s') :
    ∃ text, m.encode = .ok text ∧ Utf8.encode text ≠ [] ∧
      Vault.write .provides (Utf8.encode text) s = .ok () s' := by
  have hempty : m.isEmpty = false := by rwa [SortedMap.isEmpty, List.isEmpty_eq_false_iff]
  cases hencode : m.encode with
  | error f =>
    rw [setProvides_of_error hencode] at h
    cases h
  | ok text =>
    rw [setProvides_of_encode hencode, if_neg (by simp [hempty])] at h
    exact ⟨text, rfl, encode_ne_nil ((Provides.isEmpty_text hencode).trans hempty), h⟩

/-! ## Getting them back -/

/-- A text ends in a NUL character. -/
def EndsInNul (text : String) : Prop := text.toList.getLast? = some '\x00'

/-- What is set of the two texts is answered, but for NUL characters at the end. -/
structure TextsComeBack (s : σ) : Prop where
  /-- A name comes back without the NUL characters at its end. -/
  artifactName : ∀ name s', Vault.setArtifactName name s = .ok () s' →
    Vault.artifactName s' = .ok (withoutTerminator name)
  /-- So it comes back as it is if it does not end in one. -/
  exactName : ∀ name s', Vault.setArtifactName name s = .ok () s' →
    (Vault.artifactName s' = .ok name ↔ ¬ EndsInNul name)
  /-- Of capabilities the last value loses the NUL characters at its end, under either policy. -/
  provides : ∀ m s', m.toList ≠ [] → Vault.setProvides m s = .ok () s' →
    ∀ policy, Vault.provides policy s' = .ok m.terminated
  /-- So they come back as they are if their last value does not end in one. -/
  exactProvides : ∀ m s', m.toList ≠ [] → Vault.setProvides m s = .ok () s' →
    ∀ policy, Vault.provides policy s' = .ok m ↔
      ∀ e, m.toList.getLast? = some e → ¬ EndsInNul e.2

theorem artifactName_of_set (hs : StoresFaithfully s)
    (h : Vault.setArtifactName name s = .ok () s') :
    Vault.artifactName s' = .ok (withoutTerminator name) := by
  obtain ⟨hbytes, hwrite⟩ := setArtifactName_eq_ok h
  exact artifactName_of_read (hs _ _ _ hbytes hwrite)

theorem provides_of_set (hs : StoresFaithfully s) (hne : m.toList ≠ [])
    (h : Vault.setProvides m s = .ok () s') (policy : RepeatPolicy) :
    Vault.provides policy s' = .ok m.terminated := by
  obtain ⟨text, hencode, hbytes, hwrite⟩ := setProvides_eq_ok hne h
  rw [provides_of_read (hs _ _ _ hbytes hwrite), providesOf,
    Provides.decode_encode policy hne hencode]
  rfl

theorem textsComeBack_of_storesFaithfully (hs : StoresFaithfully s) : TextsComeBack s where
  artifactName _ _ h := artifactName_of_set hs h
  exactName name s' h := by
    rw [artifactName_of_set hs h, Except.ok.injEq]
    exact Text.withoutTerminator_eq_self_iff
  provides _ _ hne h := provides_of_set hs hne h
  exactProvides m s' hne h policy := by
    rw [provides_of_set hs hne h, Except.ok.injEq, Provides.terminated_eq_self_iff]
    simp only [Text.withoutTerminator_eq_self_iff, ne_eq, EndsInNul]

/-- **Texts come back as they were set**, but for NUL characters at the end: from a directory, from
a partition on any device, from the storage that a configuration selects, from items in memory
unless reading them is made to fail, and from every other storage where what was written is read. -/
theorem texts_come_back :
    (∀ s : ItemDirectory, TextsComeBack s) ∧
    (∀ {φ : Type} [FlashMemory φ] (p : Partition φ), TextsComeBack p) ∧
    (∀ s : SelectedStorage, TextsComeBack s) ∧
    (∀ s : MemoryStorage, (∀ name, s.fault? .read name = none) → TextsComeBack s) ∧
    ∀ {σ : Type} [ItemStorage σ] (s : σ), StoresFaithfully s → TextsComeBack s := by
  refine ⟨fun s => ?_, fun p => ?_, fun s => ?_, fun s hs => ?_, fun s hs => ?_⟩
  · exact textsComeBack_of_storesFaithfully s.storesFaithfully
  · exact textsComeBack_of_storesFaithfully p.storesFaithfully
  · exact textsComeBack_of_storesFaithfully s.storesFaithfully
  · exact textsComeBack_of_storesFaithfully (MemoryStorage.storesFaithfully hs)
  · exact textsComeBack_of_storesFaithfully hs

theorem texts_come_back_unchanged :
    (∃ s, Vault.setArtifactName "r1" MemoryStorage.empty = .ok () s ∧
      Vault.artifactName s = .ok "r1") ∧
    ∃ s, Vault.setProvides (.ofList [("a", "1"), ("b", "")]) MemoryStorage.empty = .ok () s ∧
      ∀ policy, Vault.provides policy s = .ok (.ofList [("a", "1"), ("b", "")]) := by
  obtain ⟨-, -, -, hmemory, hfaithful⟩ := texts_come_back
  have hback : TextsComeBack MemoryStorage.empty := hmemory MemoryStorage.empty fun _ => rfl
  refine ⟨⟨_, rfl, ?_⟩, _, rfl, fun policy => ?_⟩
  · have hname := hfaithful MemoryStorage.empty (MemoryStorage.storesFaithfully fun _ => rfl)
    exact (hname.exactName "r1" _ rfl).2 (by rw [EndsInNul]; decide)
  · refine (hback.exactProvides (.ofList [("a", "1"), ("b", "")]) _ (by decide) rfl policy).2 ?_
    rintro e ⟨⟩
    rw [EndsInNul]
    decide

/-- A name and a value that end in a NUL character come back without it. -/
theorem texts_with_terminators :
    (∃ s, Vault.setArtifactName "a\x00" MemoryStorage.empty = .ok () s ∧
      Vault.artifactName s = .ok "a" ∧ "a" ≠ "a\x00") ∧
    ∃ s, Vault.setProvides (.ofList [("a", "1\x00")]) MemoryStorage.empty = .ok () s ∧
      ∀ policy, Vault.provides policy s = .ok (.ofList [("a", "1")]) ∧
        (SortedMap.ofList [("a", "1")] : Provides) ≠ .ofList [("a", "1\x00")] := by
  refine ⟨⟨_, rfl, by decide, by decide⟩, _, rfl, fun policy => ⟨?_, by decide⟩⟩
  cases policy <;> decide

end Vault

end UpdateVault
