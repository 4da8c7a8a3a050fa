import UpdateVault.Proofs.Disk.Frame
import UpdateVault.Proofs.Storage.ImageFile
import UpdateVault.Proofs.Storage.Selected
import UpdateVault.Proofs.Vault.Secrecy

/-!
# Storages that differ in the private key

Storages of one kind that are the same but for the bytes of a private key of one length
(`SelectedStorage.SameButKey`) show no more of it than that length: `SelectedStorage.hidesKey`. A
directory decides by what is at the places of its items whether a call goes through
(`ItemDirectory.hidesKey`), and a partition by the lengths of the items in its table
(`Partition.commit_sameButKey`), which a device in a file follows (`Partition.hidesKey`).
-/

namespace UpdateVault

open Update (Same)
open Vault (Access HidesKey)

/-- A reader is told the length of what is stored, and whether it is there. -/
theorem Item.map_length_answer (item : Item) {a? b? : Option Bytes}
    (h : a?.map List.length = b?.map List.length) :
    (item.answer a?).map List.length = (item.answer b?).map List.length := by
  rcases a? with _ | a <;> rcases b? with _ | b
  · rfl
  · cases h
  · cases h
  · have hlength : a.length = b.length := Option.some.inj h
    cases a with
    | nil =>
      obtain rfl := List.length_eq_zero_iff.1 hlength.symm
      rfl
    | cons x rest =>
      cases b with
      | nil => cases hlength
      | cons y rest' =>
        rw [Item.answer, Item.answer, Except.map, Except.map, hlength]

/-! ## Directories -/

/-- At the places of an item is the same, or they are private keys of one length. -/
def Item.SameNode (item : Item) (m n : Option Node) : Prop :=
  m = n ∨ item = .privateKey ∧
    ∃ a b : Bytes, a.length = b.length ∧ m = some (.file a) ∧ n = some (.file b)

namespace Item.SameNode

variable {item : Item} {m n : Option Node}

theorem eq (h : item.SameNode m n) (hne : item ≠ .privateKey) : m = n :=
  h.resolve_right fun hkey => hne hkey.1

/-- There is nothing at both places, or a directory, or a file. -/
theorem cases (h : item.SameNode m n) :
    (m = none ∧ n = none) ∨ (m = some .directory ∧ n = some .directory) ∨
      ∃ a b : Bytes, a.length = b.length ∧ m = some (.file a) ∧ n = some (.file b) := by
  rcases h with rfl | ⟨-, hfiles⟩
  · rcases m with _ | _ | a
    · exact .inl ⟨rfl, rfl⟩
    · exact .inr (.inl ⟨rfl, rfl⟩)
    · exact .inr (.inr ⟨a, a, rfl, rfl, rfl⟩)
  · exact .inr (.inr hfiles)

theorem directory_iff (h : item.SameNode m n) : m = some .directory ↔ n = some .directory := by
  rcases h.cases with ⟨rfl, rfl⟩ | ⟨rfl, rfl⟩ | ⟨a, b, -, rfl, rfl⟩
  · rfl
  · rfl
  · exact iff_of_false nofun nofun

end Item.SameNode

namespace ItemDirectory

open Disk (ChangesFiles)

variable {s t : ItemDirectory} {d d' : Disk} {item : Item} {data : Bytes}

/-- Directories with the same path and the same items, but for the bytes of a private key of one
length. What is left of temporary files does not matter, unless it is in the way. -/
structure SameButKey (s t : ItemDirectory) : Prop where
  root_eq : s.root = t.root
  items : ∀ item : Item, item.SameNode (s.disk.node? (fileOf s.place item.name))
    (t.disk.node? (fileOf t.place item.name))
  temporaries : ∀ item : Item, s.disk.node? (temporaryOf s.place item.name) = some .directory ↔
    t.disk.node? (temporaryOf t.place item.name) = some .directory

/-! ### What a call depends on -/

/-- What is read of an item depends on the path and on what is at the item's place. -/
theorem read_of_node (s : ItemDirectory) (item : Item) :
    s.read item.name = match reachFault? s.root item.name with
      | some e => .error (.io e)
      | none => match s.disk.node? (fileOf s.place item.name) with
        | some .directory => .error (.io .isDirectory)
        | some (.file content) => item.answer (some content)
        | none => item.answer none := by
  have hname := nameable_fileOf s.place item
  rw [read, if_pos (isItemName_name item)]
  cases reachFault? s.root item.name with
  | some e => rfl
  | none =>
    cases hnode : s.disk.node? (fileOf s.place item.name) with
    | none => rw [Disk.fileAt_of_none hname hnode]; rfl
    | some node =>
      cases node with
      | directory => rw [Disk.fileAt_of_directory hname hnode]
      | file content =>
        rw [(Disk.fileAt_eq_ok_iff hname).2 hnode]
        cases content <;> rfl

/-- A directory in the way keeps an item from being written. -/
theorem write_of_directory (data : Bytes)
    (hreach : reachFault? s.root (item.name ++ temporarySuffix) = none)
    (hway : s.disk.node? (temporaryOf s.place item.name) = some .directory ∨
      s.disk.node? (fileOf s.place item.name) = some .directory) :
    ∃ d, write item.name data s = .error (.io .isDirectory) { s with disk := d } ∧
      ChangesFiles [temporaryOf s.place item.name] s.disk d := by
  obtain ⟨d, hreplace⟩ := Disk.replace_of_directory data (nameable_temporaryOf s.place item)
    (nameable_fileOf s.place item) hway
  refine ⟨d, ?_, Disk.replace_error_changesFiles hreplace⟩
  simp only [write, if_pos (isItemName_name item), hreach, onDisk, hreplace]

/-- An item that is written is in its file, and nothing but that file and its temporary sibling
changes. -/
theorem write_of_free (data : Bytes)
    (hreach : reachFault? s.root (item.name ++ temporarySuffix) = none)
    (hfree : ¬ (s.disk.node? (temporaryOf s.place item.name) = some .directory ∨
      s.disk.node? (fileOf s.place item.name) = some .directory)) :
    ∃ d, write item.name data s = .ok () { s with disk := d } ∧
      ChangesFiles [temporaryOf s.place item.name, fileOf s.place item.name] s.disk d ∧
      d.node? (fileOf s.place item.name) = some (.file data) := by
  obtain ⟨htemporary, hfile⟩ := not_or.1 hfree
  obtain ⟨d, hwrite, -, hnode⟩ := write_of_reach data hreach htemporary hfile
  have hreplace : Disk.replace (temporaryOf s.place item.name) (fileOf s.place item.name) data
      s.disk = .ok () d := (write_eq_ok hwrite).2.2.2
  refine ⟨d, hwrite, Update.after_of_ok hreplace ▸ Disk.replace_changesFiles, ?_⟩
  rw [hnode, if_pos rfl]

theorem delete_of_remove (hreach : reachFault? s.root item.name = none)
    (hremove : (Disk.Change.remove (fileOf s.place item.name)).apply s.disk = .ok d) :
    delete item.name s = .ok () { s with disk := d } := by
  simp only [delete, if_pos (isItemName_name item), hreach, hremove]

/-! ### Calls on both -/

namespace SameButKey

theorem withDisks (h : SameButKey s t) (item : Item)
    (hs : ChangesFiles [temporaryOf s.place item.name, fileOf s.place item.name] s.disk d)
    (ht : ChangesFiles [temporaryOf t.place item.name, fileOf t.place item.name] t.disk d')
    (hitem : item.SameNode (d.node? (fileOf s.place item.name))
      (d'.node? (fileOf t.place item.name))) :
    SameButKey { s with disk := d } { t with disk := d' } := by
  refine ⟨h.root_eq, fun other => ?_, fun other => ?_⟩
  · by_cases hother : other = item
    · subst hother
      exact hitem
    · have hsame : ∀ place, fileOf place other.name ∉
          [temporaryOf place item.name, fileOf place item.name] := by
        intro place hmem
        simp only [List.mem_cons, List.not_mem_nil, or_false] at hmem
        rcases hmem with heq | heq
        · exact temporaryOf_ne_fileOf place item other heq.symm
        · exact fileOf_ne_fileOf place hother heq
      show other.SameNode (d.node? (fileOf s.place other.name))
        (d'.node? (fileOf t.place other.name))
      rw [hs.same _ (hsame s.place), ht.same _ (hsame t.place)]
      exact h.items other
  · show d.node? (temporaryOf s.place other.name) = some .directory ↔
      d'.node? (temporaryOf t.place other.name) = some .directory
    rw [hs.directory_iff, ht.directory_iff]
    exact h.temporaries other

theorem read_eq (h : SameButKey s t) (item : Item) (hne : item ≠ .privateKey) :
    s.read item.name = t.read item.name := by
  rw [read_of_node, read_of_node, h.root_eq, (h.items item).eq hne]

theorem length_eq (h : SameButKey s t) (item : Item) :
    (s.read item.name).map List.length = (t.read item.name).map List.length := by
  rw [read_of_node, read_of_node, h.root_eq]
  cases reachFault? t.root item.name with
  | some e => rfl
  | none =>
    rcases (h.items item).cases with ⟨hs, ht⟩ | ⟨hs, ht⟩ | ⟨a, b, hlength, hs, ht⟩
    · rw [hs, ht]
    · rw [hs, ht]
    · rw [hs, ht]
      exact item.map_length_answer (congrArg some hlength)

/-- A write goes the same way in both directories, also one of the private key. -/
theorem write_same (h : SameButKey s t) (item : Item) (data : Bytes) :
    Same SameButKey (write item.name data s) (write item.name data t) := by
  cases hreach : reachFault? s.root (item.name ++ temporarySuffix) with
  | some e =>
    rw [write_of_fault hreach, write_of_fault (h.root_eq ▸ hreach)]
    exact .error h
  | none =>
    have hreach' : reachFault? t.root (item.name ++ temporarySuffix) = none := h.root_eq ▸ hreach
    have hways := or_congr (h.temporaries item) (h.items item).directory_iff
    by_cases hway : s.disk.node? (temporaryOf s.place item.name) = some .directory ∨
        s.disk.node? (fileOf s.place item.name) = some .directory
    · obtain ⟨d, hwrite, hd⟩ := write_of_directory data hreach hway
      obtain ⟨d', hwrite', hd'⟩ := write_of_directory data hreach' (hways.1 hway)
      rw [hwrite, hwrite']
      refine .error (h.withDisks item (hd.mono (by simp)) (hd'.mono (by simp)) ?_)
      -- only the temporary file has changed
      have hkept : ∀ place, fileOf place item.name ∉ [temporaryOf place item.name] := by
        intro place hmem
        exact temporaryOf_ne_fileOf place item item (List.mem_singleton.1 hmem).symm
      rw [hd.same _ (hkept s.place), hd'.same _ (hkept t.place)]
      exact h.items item
    · obtain ⟨d, hwrite, hd, hnode⟩ := write_of_free data hreach hway
      obtain ⟨d', hwrite', hd', hnode'⟩ := write_of_free data hreach' (mt hways.2 hway)
      rw [hwrite, hwrite']
      exact .ok (h.withDisks item hd hd' (.inl (hnode.trans hnode'.symm)))

theorem delete_same (h : SameButKey s t) (item : Item) :
    Same SameButKey (delete item.name s) (delete item.name t) := by
  have hname := fun place => nameable_fileOf place item
  cases hreach : reachFault? s.root item.name with
  | some e =>
    have hreach' : reachFault? t.root item.name = some e := h.root_eq ▸ hreach
    simp only [delete, if_pos (isItemName_name item), hreach, hreach']
    exact .error h
  | none =>
    have hreach' : reachFault? t.root item.name = none := h.root_eq ▸ hreach
    rcases (h.items item).cases with ⟨hs, ht⟩ | ⟨hs, ht⟩ | ⟨a, b, -, hs, ht⟩
    · simp only [delete, if_pos (isItemName_name item), hreach, hreach',
        Disk.remove_of_none (hname _) hs, Disk.remove_of_none (hname _) ht]
      exact .error h
    · simp only [delete, if_pos (isItemName_name item), hreach, hreach',
        Disk.remove_of_directory (hname _) hs, Disk.remove_of_directory (hname _) ht]
      exact .error h
    · obtain ⟨d, hremove, -, hafter⟩ := Disk.remove_eq (hname _) hs
      obtain ⟨d', hremove', -, hafter'⟩ := Disk.remove_eq (hname _) ht
      rw [delete_of_remove hreach hremove, delete_of_remove hreach' hremove']
      have hd : ChangesFiles [fileOf s.place item.name] s.disk d :=
        Disk.Change.changesFiles hremove
      have hd' : ChangesFiles [fileOf t.place item.name] t.disk d' :=
        Disk.Change.changesFiles hremove'
      refine .ok (h.withDisks item (hd.mono (by simp)) (hd'.mono (by simp)) (.inl ?_))
      rw [hafter, hafter', if_pos rfl, if_pos rfl]

end SameButKey

/-- **A directory shows no more of the private key than its length.** -/
theorem hidesKey : HidesKey SameButKey where
  read_eq := fun item h hne => h.read_eq item hne
  length_eq := fun h => h.length_eq .privateKey
  access_same := by
    intro s t access h _
    cases access with
    | write item data => exact h.write_same item data
    | delete item => exact KeptItems.delete_same (h.delete_same item)

end ItemDirectory

/-! ## Partitions -/

/-- Tables that are the same but for the bytes of a private key of one length. -/
structure ItemTable.SameButKey (t u : ItemTable) : Prop where
  others : ∀ id, id ≠ Item.privateKey.id → t.get? id = u.get? id
  lengths : (t.get? Item.privateKey.id).map List.length
    = (u.get? Item.privateKey.id).map List.length

namespace ItemTable.SameButKey

variable {t u : ItemTable} {item : Item}

theorem length_eq (h : SameButKey t u) (id : UInt16) :
    (t.get? id).map List.length = (u.get? id).map List.length := by
  by_cases hid : id = Item.privateKey.id
  · subst hid
    exact h.lengths
  · rw [h.others id hid]

theorem contains_eq (h : SameButKey t u) (id : UInt16) : t.contains id = u.contains id := by
  rw [SortedMap.contains, SortedMap.contains, ← Option.isSome_map, h.length_eq, Option.isSome_map]

theorem insert (h : SameButKey t u) (id : UInt16) (data : Bytes) :
    SameButKey (t.insert id data) (u.insert id data) := by
  refine ⟨fun other hother => ?_, ?_⟩
  · rw [SortedMap.get?_insert, SortedMap.get?_insert, h.others other hother]
  · rw [SortedMap.get?_insert, SortedMap.get?_insert]
    split
    · rfl
    · exact h.lengths

theorem erase (h : SameButKey t u) (id : UInt16) : SameButKey (t.erase id) (u.erase id) := by
  refine ⟨fun other hother => ?_, ?_⟩
  · rw [SortedMap.get?_erase, SortedMap.get?_erase, h.others other hother]
  · rw [SortedMap.get?_erase, SortedMap.get?_erase]
    split
    · rfl
    · exact h.lengths

end ItemTable.SameButKey

namespace Partition

variable {p q : Partition FlashChip} {items items' : ItemTable} {item : Item} {data : Bytes}

/-- Partitions with banks of one length and tables that are the same but for the bytes of a private
key of one length, each between calls. Which bank is in charge does not matter. -/
structure SameButKey (p q : Partition FlashChip) : Prop where
  left : p.Intact
  right : q.Intact
  bankLength_eq : p.bankLength = q.bankLength
  items : ItemTable.SameButKey p.items q.items

theorem write_item (p : Partition FlashChip) (item : Item) (data : Bytes) :
    write item.name data p = if p.items.get? item.id = some data then .ok () p
      else commit (p.items.insert item.id data) p := by
  simp only [write, Call.idOf_eq (Item.ofName?_name item)]

theorem delete_item (p : Partition FlashChip) (item : Item) :
    delete item.name p = if p.items.contains item.id then commit (p.items.erase item.id) p
      else .error (.notFound item.name) p := by
  simp only [delete, Call.idOf_eq (Item.ofName?_name item)]

theorem Intact.committed (h : p.Intact) (hfit : items.encode.length ≤ p.maxPayload) :
    (p.committed items).Intact :=
  ⟨⟨h.settled.sound.committed hfit, h.settled.sound.mount_committed hfit, rfl⟩, hfit⟩

/-- There is room for both of two tables, or for none: the lengths of the items decide. -/
theorem commit_sameButKey (h : SameButKey p q) (hitems : ItemTable.SameButKey items items') :
    Same SameButKey (commit items p) (commit items' q) := by
  have hlength : items.encode.length = items'.encode.length :=
    ItemTable.length_encode_eq hitems.length_eq
  have hmax : p.maxPayload = q.maxPayload := by rw [maxPayload, maxPayload, h.bankLength_eq]
  by_cases hfull : p.maxPayload < items.encode.length
  · rw [commit_of_full hfull, commit_of_full (hmax ▸ hlength ▸ hfull), hlength, hmax]
    exact .error h
  · have hfit := Nat.not_lt.1 hfull
    have hfit' : items'.encode.length ≤ q.maxPayload := hlength ▸ hmax ▸ hfit
    rw [h.left.settled.commit_eq hfit, h.right.settled.commit_eq hfit']
    exact .ok ⟨h.left.committed hfit, h.right.committed hfit', h.bankLength_eq, hitems⟩

namespace SameButKey

theorem write_same (h : SameButKey p q) (hne : item ≠ .privateKey) :
    Same SameButKey (write item.name data p) (write item.name data q) := by
  have hid : item.id ≠ Item.privateKey.id := fun heq => hne (Item.id_injective heq)
  rw [write_item, write_item, h.items.others item.id hid]
  by_cases hsame : q.items.get? item.id = some data
  · rw [if_pos hsame, if_pos hsame]
    exact .ok h
  · rw [if_neg hsame, if_neg hsame]
    exact commit_sameButKey h (h.items.insert item.id data)

theorem delete_same (h : SameButKey p q) :
    Same SameButKey (delete item.name p) (delete item.name q) := by
  rw [delete_item, delete_item, h.items.contains_eq]
  by_cases hpresent : q.items.contains item.id = true
  · rw [if_pos hpresent, if_pos hpresent]
    exact commit_sameButKey h (h.items.erase item.id)
  · rw [if_neg hpresent, if_neg hpresent]
    exact .error h

end SameButKey

/-- Partitions in files that do what two such partitions on chips do. -/
def SameButKeyInFile (p q : Partition FlashImageFile) : Prop :=
  ∃ p' q', p.Mirrors p' ∧ SameButKey p' q' ∧ q.Mirrors q'

/-- What goes the same way on the chips goes the same way in the files. -/
theorem same_inFile {ε α : Type} {p' q' : EStateM.Result ε (Partition FlashChip) α}
    {p q : EStateM.Result ε (Partition FlashImageFile) α} (hp : Same Mirrors p p')
    (hsame : Same SameButKey p' q') (hq : Same Mirrors q q') : Same SameButKeyInFile p q := by
  have hleft : Same (fun p q' => ∃ p', p.Mirrors p' ∧ SameButKey p' q') p q' :=
    hp.trans hsame fun hp hsame => ⟨_, hp, hsame⟩
  refine hleft.trans hq.symm ?_
  rintro p q' q ⟨p', hp, hsame⟩ hq
  exact ⟨p', q', hp, hsame, hq⟩

/-- **A partition in a file shows no more of the private key than its length.** -/
theorem hidesKey : HidesKey SameButKeyInFile where
  read_eq := by
    rintro p q item ⟨p', q', hp, hsame, hq⟩ hne
    have hid : item.id ≠ Item.privateKey.id := fun heq => hne (Item.id_injective heq)
    show p.read item.name = q.read item.name
    rw [Intact.read_eq, Intact.read_eq, hp.stored?_eq, hq.stored?_eq, stored?, stored?,
      hsame.items.others item.id hid]
  length_eq := by
    rintro p q ⟨p', q', hp, hsame, hq⟩
    show (p.read Item.privateKey.name).map List.length
      = (q.read Item.privateKey.name).map List.length
    rw [Intact.read_eq, Intact.read_eq, hp.stored?_eq, hq.stored?_eq]
    exact Item.privateKey.map_length_answer hsame.items.lengths
  access_same := by
    rintro p q access ⟨p', q', hp, hsame, hq⟩ hspares
    cases access with
    | write item data =>
      have hne : item ≠ .privateKey := by
        rintro rfl
        exact hspares data rfl
      exact same_inFile (write_same hp item.name data) (hsame.write_same hne)
        (write_same hq item.name data)
    | delete item =>
      exact KeptItems.delete_same (same_inFile (delete_same hp item.name) hsame.delete_same
        (delete_same hq item.name))

end Partition

/-! ## Selected storages -/

namespace SelectedStorage

/-- Storages of one kind that are the same but for the bytes of a private key of one length. -/
inductive SameButKey : SelectedStorage → SelectedStorage → Prop
  | directory {s t : ItemDirectory} : ItemDirectory.SameButKey s t →
    SameButKey (.directory s) (.directory t)
  | partition {p q : Partition FlashImageFile} : Partition.SameButKeyInFile p q →
    SameButKey (.partition p) (.partition q)
  | absent {d d' : Disk} : SameButKey (.absent d) (.absent d')

theorem same_within {ε σ τ α : Type} {R : σ → σ → Prop} {S : τ → τ → Prop} {wrap wrap' : σ → τ}
    {change : Update ε σ α} {s t : σ} (hwrap : ∀ {s t}, R s t → S (wrap s) (wrap' t))
    (h : Same R (change s) (change t)) :
    Same S (within wrap change s) (within wrap' change t) := by
  unfold within
  generalize change s = left at h ⊢
  generalize change t = right at h ⊢
  cases h with
  | ok hst => exact .ok (hwrap hst)
  | error hst => exact .error (hwrap hst)

/-- **No storage shows more of the private key than its length.** -/
theorem hidesKey : HidesKey SameButKey where
  read_eq := by
    intro s t item h hne
    cases h with
    | directory h => exact ItemDirectory.hidesKey.read_eq item h hne
    | partition h => exact Partition.hidesKey.read_eq item h hne
    | absent => rfl
  length_eq := by
    intro s t h
    cases h with
    | directory h => exact ItemDirectory.hidesKey.length_eq h
    | partition h => exact Partition.hidesKey.length_eq h
    | absent => rfl
  access_same := by
    intro s t access h hspares
    cases h with
    | @directory s t h =>
      rw [run_directory, run_directory]
      exact same_within SameButKey.directory (ItemDirectory.hidesKey.access_same h hspares)
    | @partition p q h =>
      rw [run_partition, run_partition]
      exact same_within SameButKey.partition (Partition.hidesKey.access_same h hspares)
    | @absent d d' =>
      rw [run_absent, run_absent]
      have hrefused : Same Eq (access.run NoStorage.mk) (access.run NoStorage.mk) := by
        cases access with
        | write item data => exact .error rfl
        | delete item => exact .error rfl
      exact same_within (fun _ => SameButKey.absent) hrefused

end SelectedStorage

end UpdateVault
