import Mathlib.Data.List.Flatten
import UpdateVault.Partition.Table
import UpdateVault.Proofs.Bytes
import UpdateVault.Proofs.SortedMap

/-!
# The item table of a partition

`decode?_encode`: a table is read back from its bytes as long as every item is shorter than
its length field can say. Every table that a bank has room for is such a table
(`items_lt_of_encode_le`). A table that is read from other bytes takes no more room than they do
(`length_encode_of_decode?`).
-/

namespace UpdateVault.ItemTable

/-! ## Lengths -/

@[simp] theorem length_entryBytes (e : UInt16 × Bytes) :
    (entryBytes e).length = entryHeaderLength + e.2.length := by
  simp [entryBytes, entryHeaderLength]
  omega

@[simp] theorem encode_empty : encode .empty = [] := rfl

/-- An item is no longer than the table it is in. -/
theorem length_le_of_mem {t : ItemTable} {e : UInt16 × Bytes} (h : e ∈ t.toList) :
    entryHeaderLength + e.2.length ≤ t.encode.length := by
  have := ((List.singleton_sublist.2 h).flatMap entryBytes).length_le
  rw [List.flatMap_singleton, length_entryBytes] at this
  exact this

theorem items_lt_of_encode_le {t : ItemTable} {n : Nat} (h : t.encode.length ≤ n)
    (hn : n < 2 ^ 32) : ∀ e ∈ t.toList, e.2.length < 2 ^ 32 := by
  intro e he
  have := length_le_of_mem he
  omega

/-- Taking an item out makes no table longer. -/
theorem length_encode_erase_le (t : ItemTable) (id : UInt16) :
    (ItemTable.encode (t.erase id)).length ≤ t.encode.length :=
  (List.filter_sublist.flatMap entryBytes).length_le

/-- The room that a table takes: what an entry takes besides its data, and the data. -/
def room (t : ItemTable) : Nat := (t.toList.map fun e => entryHeaderLength + e.2.length).sum

theorem length_encode (t : ItemTable) : t.encode.length = t.room := by
  rw [encode, List.length_flatMap, room]
  simp only [length_entryBytes]

/-- A table's length depends on the lengths of its items only. -/
theorem length_encode_eq {t u : ItemTable}
    (h : ∀ id, (t.get? id).map List.length = (u.get? id).map List.length) :
    t.encode.length = u.encode.length := by
  have hroom : ∀ t : ItemTable, t.encode.length
      = ((t.toList.map fun e => (e.1, e.2.length)).map fun e => entryHeaderLength + e.2).sum := by
    intro t
    rw [length_encode, room, List.map_map]
    rfl
  rw [hroom, hroom, SortedMap.map_toList_eq List.length h]

theorem length_put_le (id : UInt16) (data : Bytes) (l : List (UInt16 × Bytes)) :
    ((SortedMap.put id data l).flatMap entryBytes).length
      ≤ (l.flatMap entryBytes).length + (entryBytes (id, data)).length := by
  induction l with
  | nil => simp [SortedMap.put]
  | cons x rest ih =>
    rw [SortedMap.put]
    split <;> simp only [List.flatMap_cons, List.length_append] <;> omega

theorem length_foldl_insert_le (es : List (UInt16 × Bytes)) (t : ItemTable) :
    (ItemTable.encode (es.foldl (fun t e => t.insert e.1 e.2) t)).length
      ≤ t.encode.length + (es.flatMap entryBytes).length := by
  induction es generalizing t with
  | nil => exact Nat.le_refl _
  | cons e rest ih =>
    have hfirst : (ItemTable.encode (t.insert e.1 e.2)).length
        ≤ t.encode.length + (entryBytes e).length := length_put_le e.1 e.2 t.toList
    have hrest := ih (t.insert e.1 e.2)
    rw [List.foldl_cons, List.flatMap_cons, List.length_append]
    omega

/-- A table is no longer than entries that it is made of. -/
theorem length_encode_ofList_le (es : List (UInt16 × Bytes)) :
    (ItemTable.encode (SortedMap.ofList es)).length ≤ (es.flatMap entryBytes).length := by
  have := length_foldl_insert_le es .empty
  rwa [encode_empty, List.length_nil, Nat.zero_add] at this

/-! ## Reading back -/

theorem ofLittleEndian_id (id : UInt16) :
    UInt16.ofNat (Bytes.ofLittleEndian (Bytes.littleEndian 2 id.toNat)) = id := by
  have hlt : id.toNat < 256 ^ 2 := id.toNat_lt
  rw [Bytes.ofLittleEndian_of_lt hlt, UInt16.ofNat_toNat]

/-- The entry at the front is found first, and the rest is read after it. -/
theorem readEntries_entryBytes_append {e : UInt16 × Bytes} (h : e.2.length < 2 ^ 32)
    (fuel : Nat) (rest : Bytes) :
    readEntries (fuel + 1) (entryBytes e ++ rest) = (readEntries fuel rest).map (e :: ·) := by
  obtain ⟨id, data⟩ := e
  have hlen : Bytes.ofLittleEndian (Bytes.littleEndian 4 data.length) = data.length :=
    Bytes.ofLittleEndian_of_lt h
  have hid := ofLittleEndian_id id
  simp only [Bytes.littleEndian] at hlen hid
  simp only [entryBytes, Bytes.littleEndian, List.cons_append, List.nil_append, readEntries, hlen,
    hid]
  simp

theorem readEntries_flatMap_entryBytes {es : List (UInt16 × Bytes)}
    (hlen : ∀ e ∈ es, e.2.length < 2 ^ 32) {fuel : Nat} (hfuel : es.length ≤ fuel) :
    readEntries fuel (es.flatMap entryBytes) = some es := by
  induction es generalizing fuel with
  | nil => cases fuel <;> rfl
  | cons e rest ih =>
    cases fuel with
    | zero => simp at hfuel
    | succ fuel =>
      rw [List.flatMap_cons, readEntries_entryBytes_append (hlen e List.mem_cons_self),
        ih (fun x hx => hlen x (List.mem_cons_of_mem _ hx)) (by simpa using hfuel)]
      rfl

/-- An entry takes at least one byte, so the length of the bytes is fuel enough. -/
theorem length_le_length_flatMap (es : List (UInt16 × Bytes)) :
    es.length ≤ (es.flatMap entryBytes).length := by
  induction es with
  | nil => exact Nat.le_refl 0
  | cons e rest ih =>
    rw [List.flatMap_cons, List.length_append, length_entryBytes, List.length_cons,
      entryHeaderLength]
    omega

theorem decode?_encode {t : ItemTable} (h : ∀ e ∈ t.toList, e.2.length < 2 ^ 32) :
    decode? t.encode = some t := by
  rw [decode?, entries?, encode, readEntries_flatMap_entryBytes h (length_le_length_flatMap _),
    Option.map_some, SortedMap.ofList_toList]

/-! ## Other payloads -/

/-- An entry that is read has the bytes it is read from. -/
theorem entryBytes_of_header {i₀ i₁ n₀ n₁ n₂ n₃ : UInt8} {data : Bytes}
    (hlen : data.length = Bytes.ofLittleEndian [n₀, n₁, n₂, n₃]) :
    entryBytes (UInt16.ofNat (Bytes.ofLittleEndian [i₀, i₁]), data)
      = i₀ :: i₁ :: n₀ :: n₁ :: n₂ :: n₃ :: data := by
  have hid : (UInt16.ofNat (Bytes.ofLittleEndian [i₀, i₁])).toNat
      = Bytes.ofLittleEndian [i₀, i₁] := by
    have hlt : Bytes.ofLittleEndian [i₀, i₁] < 256 ^ 2 := Bytes.ofLittleEndian_lt [i₀, i₁]
    rw [UInt16.toNat_ofNat']
    exact Nat.mod_eq_of_lt hlt
  rw [entryBytes, hid, hlen]
  have htwo : Bytes.littleEndian 2 (Bytes.ofLittleEndian [i₀, i₁]) = [i₀, i₁] :=
    Bytes.littleEndian_ofLittleEndian [i₀, i₁]
  have hfour : Bytes.littleEndian 4 (Bytes.ofLittleEndian [n₀, n₁, n₂, n₃]) = [n₀, n₁, n₂, n₃] :=
    Bytes.littleEndian_ofLittleEndian [n₀, n₁, n₂, n₃]
  rw [htwo, hfour]
  rfl

/-- Entries that are read are the bytes they are read from. -/
theorem flatMap_of_readEntries {fuel : Nat} {payload : Bytes} {es : List (UInt16 × Bytes)}
    (h : readEntries fuel payload = some es) :
    es.flatMap entryBytes = payload ∧ ∀ e ∈ es, e.2.length < 2 ^ 32 := by
  fun_induction readEntries fuel payload generalizing es with
  | case1 => cases h; exact ⟨rfl, fun _ he => by cases he⟩
  | case2 => cases h
  | case3 fuel i₀ i₁ n₀ n₁ n₂ n₃ rest id len data hlen =>
    rename_i ih
    obtain ⟨es', hes', rfl⟩ := Option.map_eq_some_iff.1 h
    obtain ⟨hrest, hsmall⟩ := ih hes'
    have hdata : data.length = len :=
      Nat.le_antisymm (List.length_take_le ..) (Nat.not_lt.1 hlen)
    have hlt : data.length < 256 ^ 4 := by
      rw [hdata]
      exact Bytes.ofLittleEndian_lt [n₀, n₁, n₂, n₃]
    constructor
    · rw [List.flatMap_cons, hrest, entryBytes_of_header hdata]
      simp only [List.cons_append]
      rw [List.take_append_drop]
    · rintro e (_ | ⟨_, he⟩)
      · exact hlt
      · exact hsmall e he
  | case4 => cases h

/-- **A payload has a table exactly if it splits into entries**, and nothing is left over. -/
theorem decode?_eq_some_iff {payload : Bytes} {t : ItemTable} :
    decode? payload = some t ↔ ∃ es : List (UInt16 × Bytes),
      (∀ e ∈ es, e.2.length < 2 ^ 32) ∧ payload = es.flatMap entryBytes ∧
        t = SortedMap.ofList es := by
  constructor
  · intro h
    obtain ⟨es, hes, rfl⟩ := Option.map_eq_some_iff.1 h
    obtain ⟨hpayload, hsmall⟩ := flatMap_of_readEntries hes
    exact ⟨es, hsmall, hpayload.symm, rfl⟩
  · rintro ⟨es, hsmall, rfl, rfl⟩
    rw [decode?, entries?, readEntries_flatMap_entryBytes hsmall (length_le_length_flatMap es)]
    rfl

/-- **The table of a payload takes no more room than the payload**, whoever wrote it. -/
theorem length_encode_of_decode? {payload : Bytes} {t : ItemTable}
    (h : decode? payload = some t) : t.encode.length ≤ payload.length := by
  obtain ⟨es, -, rfl, rfl⟩ := decode?_eq_some_iff.1 h
  exact length_encode_ofList_le es

end UpdateVault.ItemTable
