import UpdateVault.Proofs.Partition.Table

/-!
# The entries of a payload

`Splits` says what a payload is made of: an item's number, the length of its data, and the data,
any number of times. A payload is made of entries in one way only (`Splits.unique`), and reading it
takes no more readings than it has room for headers (`readEntries_eq_of_le`).
`codec_by_entries` is the whole codec: what tables become when they are written, and payloads when
they are read and written again.
-/

namespace UpdateVault.ItemTable

variable {payload rest : Bytes} {es es' : List (UInt16 × Bytes)} {t : ItemTable} {fuel : Nat}

/-! ## What a payload is made of -/

/-- Bytes that are entries one after the other: the number of an item in two bytes, the length of
its data in four, and so many bytes of data. -/
inductive Splits : Bytes → List (UInt16 × Bytes) → Prop
  | nil : Splits [] []
  | cons {number length data rest : Bytes} {id : UInt16} {es : List (UInt16 × Bytes)} :
      number.length = 2 → Bytes.ofLittleEndian number = id.toNat →
      length.length = 4 → Bytes.ofLittleEndian length = data.length →
      Splits rest es → Splits (number ++ length ++ data ++ rest) ((id, data) :: es)

theorem splits_flatMap (h : ∀ e ∈ es, e.2.length < 2 ^ 32) :
    Splits (es.flatMap entryBytes) es := by
  induction es with
  | nil => exact .nil
  | cons e rest ih =>
    obtain ⟨id, data⟩ := e
    have hdata : data.length < 256 ^ 4 := h (id, data) List.mem_cons_self
    have hid : id.toNat < 256 ^ 2 := id.toNat_lt
    rw [List.flatMap_cons, entryBytes]
    exact .cons (Bytes.length_littleEndian ..) (Bytes.ofLittleEndian_of_lt hid)
      (Bytes.length_littleEndian ..) (Bytes.ofLittleEndian_of_lt hdata)
      (ih fun x hx => h x (List.mem_cons_of_mem _ hx))

/-- The bytes of an entry are determined by what it is. -/
theorem Splits.eq_flatMap (h : Splits payload es) :
    payload = es.flatMap entryBytes ∧ ∀ e ∈ es, e.2.length < 2 ^ 32 := by
  induction h with
  | nil => exact ⟨rfl, fun _ he => by cases he⟩
  | @cons number length data rest id es hnumber hid hlength hdata _ ih =>
    obtain ⟨hrest, hsmall⟩ := ih
    have hnumber' : Bytes.littleEndian 2 id.toNat = number := by
      rw [← hid, ← hnumber, Bytes.littleEndian_ofLittleEndian]
    have hlength' : Bytes.littleEndian 4 data.length = length := by
      rw [← hdata, ← hlength, Bytes.littleEndian_ofLittleEndian]
    constructor
    · rw [List.flatMap_cons, entryBytes, hnumber', hlength', ← hrest]
    · have hlt := Bytes.ofLittleEndian_lt length
      rw [hdata, hlength] at hlt
      rintro e (_ | ⟨_, he⟩)
      · exact hlt
      · exact hsmall e he

/-- Reading a payload finds the entries it is made of. -/
theorem entries?_eq_some_iff : entries? payload = some es ↔ Splits payload es := by
  constructor
  · intro h
    obtain ⟨rfl, hsmall⟩ := flatMap_of_readEntries h
    exact splits_flatMap hsmall
  · intro h
    obtain ⟨rfl, hsmall⟩ := h.eq_flatMap
    exact readEntries_flatMap_entryBytes hsmall (length_le_length_flatMap es)

/-- **A payload is made of entries in one way only.** -/
theorem Splits.unique (h : Splits payload es) (h' : Splits payload es') : es = es' :=
  Option.some.inj ((entries?_eq_some_iff.2 h).symm.trans (entries?_eq_some_iff.2 h'))

/-! ## How long it takes -/

theorem exists_header (h : entryHeaderLength ≤ payload.length) :
    ∃ i₀ i₁ n₀ n₁ n₂ n₃ rest, payload = i₀ :: i₁ :: n₀ :: n₁ :: n₂ :: n₃ :: rest := by
  rw [entryHeaderLength] at h
  rcases payload with _ | ⟨i₀, _ | ⟨i₁, _ | ⟨n₀, _ | ⟨n₁, _ | ⟨n₂, _ | ⟨n₃, rest⟩⟩⟩⟩⟩⟩
  case cons.cons.cons.cons.cons.cons => exact ⟨i₀, i₁, n₀, n₁, n₂, n₃, rest, rfl⟩
  all_goals simp at h

/-- Bytes that are too few for a header are no entry. -/
theorem readEntries_of_short (h : payload.length < entryHeaderLength) (fuel : Nat) :
    readEntries fuel payload = if payload = [] then some [] else none := by
  rw [readEntries.eq_def]
  split
  · rfl
  · simp [entryHeaderLength] at h
    omega
  · rename_i hne _
    rw [if_neg hne]

/-- Every reading takes at least a header off the payload, so there are no more of them than the
payload has room for headers. -/
theorem readEntries_eq_of_le {fuel' : Nat} (h : payload.length / entryHeaderLength ≤ fuel)
    (h' : payload.length / entryHeaderLength ≤ fuel') :
    readEntries fuel payload = readEntries fuel' payload := by
  induction fuel generalizing fuel' payload with
  | zero =>
    have hshort : payload.length < entryHeaderLength := by
      rw [entryHeaderLength] at h ⊢
      omega
    rw [readEntries_of_short hshort, readEntries_of_short hshort]
  | succ fuel ih =>
    rcases Nat.lt_or_ge payload.length entryHeaderLength with hshort | hlong
    · rw [readEntries_of_short hshort, readEntries_of_short hshort]
    · obtain ⟨i₀, i₁, n₀, n₁, n₂, n₃, rest, rfl⟩ := exists_header hlong
      simp only [List.length_cons, entryHeaderLength] at h h'
      obtain ⟨fuel', rfl⟩ : ∃ n, fuel' = n + 1 := ⟨fuel' - 1, by omega⟩
      have hrest : (rest.drop (Bytes.ofLittleEndian [n₀, n₁, n₂, n₃])).length
          / entryHeaderLength ≤ min fuel fuel' := by
        rw [List.length_drop, entryHeaderLength]
        omega
      simp only [readEntries]
      rw [ih (hrest.trans (Nat.min_le_left ..)) (hrest.trans (Nat.min_le_right ..))]

/-! ## Tables -/

/-- A payload has the table of its entries, in which a later entry of an item replaces an earlier
one. -/
theorem decode?_eq_some_iff_splits : decode? payload = some t ↔
    ∃ es, Splits payload es ∧ ∀ id, t.get? id = es.reverse.lookup id := by
  have hget : ∀ es id, SortedMap.get? (.ofList es : ItemTable) id = es.reverse.lookup id := by
    intro es id
    rw [SortedMap.get?_ofList, SortedMap.lookup_eq]
  rw [decode?, Option.map_eq_some_iff]
  constructor
  · rintro ⟨es, hes, rfl⟩
    exact ⟨es, entries?_eq_some_iff.1 hes, hget es⟩
  · rintro ⟨es, hsplits, ht⟩
    refine ⟨es, entries?_eq_some_iff.2 hsplits, SortedMap.ext fun id => ?_⟩
    rw [hget, ht]

/-- The items of a table that is read are short enough to be written. -/
theorem small_of_decode? (h : decode? payload = some t) : ∀ e ∈ t.toList, e.2.length < 2 ^ 32 := by
  obtain ⟨es, hsplits, hget⟩ := decode?_eq_some_iff_splits.1 h
  intro e he
  rw [show e = (e.1, e.2) from rfl, SortedMap.mem_toList_iff, hget, ← SortedMap.lookup_eq] at he
  exact hsplits.eq_flatMap.2 _ (List.mem_reverse.1 (SortedMap.mem_of_lookup he))

/-- A table is written as the payload it was read from if the payload has its entries in the order
of their numbers, each item once. -/
theorem encode_eq_iff (h : decode? payload = some t) (hsplits : Splits payload es) :
    t.encode = payload ↔ es.Pairwise fun e e' => e.1 < e'.1 := by
  have htable : t = .ofList es := by
    rw [decode?, entries?_eq_some_iff.2 hsplits] at h
    exact (Option.some.inj h).symm
  have hsorted : (es.Pairwise fun e e' => e.1 < e'.1) ↔ t.toList = es := by
    rw [htable, SortedMap.toList_ofList_iff]
    simp only [Std.compare_eq_lt]
  rw [hsorted]
  constructor
  · intro hencode
    have hown : Splits t.encode t.toList := splits_flatMap (small_of_decode? h)
    rw [hencode] at hown
    exact hown.unique hsplits
  · intro hlist
    rw [encode, hlist]
    exact hsplits.eq_flatMap.1.symm

/-- **Tables and payloads.** A table whose items are short enough is what is read of its own bytes.
Reading a payload comes to an end after as many readings as there is room for headers in it, and
gives a table exactly if the payload is made of entries: the one that has the last entry of each
item. That table is written in no more bytes than the payload has, which read as the same table
again; it is written as the payload itself exactly if its entries are in the order of their
numbers. -/
theorem codec_by_entries :
    (∀ t : ItemTable, (∀ id data, t.get? id = some data → data.length < 2 ^ 32) →
      decode? t.encode = some t) ∧
    ∀ payload : Bytes,
      (∀ fuel, payload.length / entryHeaderLength ≤ fuel →
        (readEntries fuel payload).map .ofList = decode? payload) ∧
      (∀ t, decode? payload = some t ↔
        ∃ es, Splits payload es ∧ ∀ id, t.get? id = es.reverse.lookup id) ∧
      ∀ t es, decode? payload = some t → Splits payload es →
        t.encode.length ≤ payload.length ∧ decode? t.encode = some t ∧
          (t.encode = payload ↔ es.Pairwise fun e e' => e.1 < e'.1) := by
  refine ⟨fun t hsmall => decode?_encode fun e he => ?_, fun payload => ⟨fun fuel hfuel => ?_,
    fun t => decode?_eq_some_iff_splits, fun t es h hsplits => ?_⟩⟩
  · exact hsmall e.1 e.2 (SortedMap.mem_toList_iff.1 he)
  · rw [decode?, entries?, readEntries_eq_of_le hfuel (Nat.div_le_self ..)]
  · exact ⟨length_encode_of_decode? h, decode?_encode (small_of_decode? h), encode_eq_iff h hsplits⟩

/-- Two entries of item 2 around an empty one of item 1. -/
def unordered : List (UInt16 × Bytes) := [(2, [5, 5]), (1, []), (2, [7])]

theorem codec_by_entries_unordered :
    ∃ t, decode? (unordered.flatMap entryBytes) = some t ∧ t.toList = [(1, []), (2, [7])] ∧
      (readEntries 3 (unordered.flatMap entryBytes)).map .ofList = some t ∧
      decode? t.encode = some t ∧ t.encode.length ≤ (unordered.flatMap entryBytes).length ∧
      t.encode ≠ unordered.flatMap entryBytes := by
  obtain ⟨hwritten, hread⟩ := codec_by_entries
  obtain ⟨hfuel, htable, hagain⟩ := hread (unordered.flatMap entryBytes)
  have hsplits : Splits (unordered.flatMap entryBytes) unordered := splits_flatMap (by decide)
  have ht : decode? (unordered.flatMap entryBytes) = some (.ofList unordered) :=
    (htable _).2 ⟨unordered, hsplits, fun id => by
      rw [SortedMap.get?_ofList, SortedMap.lookup_eq]⟩
  have hlist : SortedMap.toList (.ofList unordered : ItemTable) = [(1, []), (2, [7])] := by decide
  obtain ⟨hlength, -, hiff⟩ := hagain _ _ ht hsplits
  refine ⟨_, ht, hlist, (hfuel 3 (by decide)).trans ht, hwritten _ fun id data hdata => ?_,
    hlength, fun heq => absurd (hiff.1 heq) (by decide)⟩
  have hmem := SortedMap.mem_toList_iff.2 hdata
  rw [hlist] at hmem
  have hshort : ∀ e ∈ [((1 : UInt16), ([] : Bytes)), (2, [7])], e.2.length < 2 ^ 32 := by decide
  exact hshort _ hmem

end UpdateVault.ItemTable
