import UpdateVault.Flash.Chip
import UpdateVault.Partition.Bank
import UpdateVault.Proofs.Flash.Chip
import UpdateVault.Proofs.Partition.Table

/-!
# The bytes of a bank

`ofBytes?` is what a mount finds in the bytes of one bank (`recover_eq`). A bank that took a
whole image holds its table (`ofBytes?_image`). One that took the first bytes of an image and is
erased behind them holds nothing, or the whole table, unless the eight bytes of the checksum fit
a payload by accident (`ofBytes?_torn`).
-/

namespace UpdateVault.Bank

open Bytes (erased littleEndian ofLittleEndian)
open Flash (readAt)

variable {bs payload tail : Bytes} {sequence : UInt32} {keep len : Nat}

theorem other_other (bank : Bank) : bank.other.other = bank := by cases bank <;> rfl

/-- There is no third bank. -/
theorem eq_other_of_ne {bank bank' : Bank} (h : bank ≠ bank') : bank = bank'.other := by
  cases bank <;> cases bank' <;> first | rfl | exact absurd rfl h

/-- The content of a bank with the given bytes; none if it is not whole. -/
def ofBytes? (bs : Bytes) : Option Content :=
  match header? bs.length (bs.take headerLength) with
  | none => none
  | some header => content? header ((bs.drop headerLength).take header.payloadLength)

/-- A mount looks at the bytes of a bank and at nothing else. -/
theorem recover_eq {φ : Type} [FlashMemory φ] {f : φ} {chip : FlashChip} {bank : Bank}
    (h : FlashMemory.ReadsAs f chip) (hheader : headerLength ≤ len)
    (hin : bank.base len + len ≤ chip.image.length) :
    recover f len bank = .ok (ofBytes? (readAt chip.image (bank.base len) len)) := by
  have hfirst : bank.base len + headerLength ≤ chip.image.length := by omega
  rw [recover, h.read_eq hfirst, ofBytes?, Flash.length_readAt hin, Flash.take_readAt hheader,
    Flash.drop_readAt]
  simp only [bind, Except.bind]
  cases hh : header? len (readAt chip.image (bank.base len) headerLength) with
  | none => rfl
  | some header =>
    -- the header was taken, so its payload lies within the bank
    have hpayload : header.payloadLength ≤ len - headerLength := by
      simp only [header?] at hh
      split at hh
      · rename_i hfit
        cases hh
        exact hfit.2
      · cases hh
    simp only [Flash.take_readAt hpayload]
    rw [h.read_eq (by omega)]
    rfl

/-! ## Fields -/

/-- The sequence number in the bytes of a bank. -/
def sequenceIn (bs : Bytes) : UInt32 := UInt32.ofNat (ofLittleEndian ((bs.drop 4).take 4))

/-- The length that the bytes of a bank declare for the payload. -/
def lengthIn (bs : Bytes) : Nat := ofLittleEndian ((bs.drop 8).take 4)

/-- The bytes behind the header, as many as are declared. -/
def payloadIn (bs : Bytes) : Bytes := (bs.drop headerLength).take (lengthIn bs)

/-- The header is read from the first bytes of a bank, field by field. -/
theorem header?_take (n : Nat) (bs : Bytes) :
    header? n (bs.take headerLength) =
      if bs.take 4 = magic ∧ lengthIn bs ≤ n - headerLength then
        some ⟨sequenceIn bs, lengthIn bs, (bs.drop 12).take 8⟩
      else none := by
  have hfield : ∀ i k, i + k ≤ headerLength →
      ((bs.take headerLength).drop i).take k = (bs.drop i).take k := by
    intro i k hk
    rw [List.drop_take, List.take_take, Nat.min_eq_left (by omega)]
  have hfront : (bs.take headerLength).take 4 = bs.take 4 := hfield 0 4 (by decide)
  rw [header?, hfront, hfield 4 4 (by decide), hfield 8 4 (by decide), hfield 12 8 (by decide)]
  rfl

/-! ## What a bank holds -/

/-- The bytes of a whole bank: they begin with the letters, the payload has the declared length
and lies within the bank, the checksum is that of the payload, and entries use the payload up. -/
structure Whole (bs : Bytes) (entries : List (UInt16 × Bytes)) : Prop where
  letters : bs.take 4 = magic
  fits : lengthIn bs ≤ bs.length - headerLength
  checksum : (bs.drop 12).take 8 = Digest.checksum (payloadIn bs)
  small : ∀ e ∈ entries, e.2.length < 2 ^ 32
  splits : payloadIn bs = entries.flatMap ItemTable.entryBytes

/-- **A bank has a content exactly if it is whole.** -/
theorem ofBytes?_eq_some_iff {c : Content} :
    ofBytes? bs = some c ↔
      ∃ entries, Whole bs entries ∧ c = ⟨sequenceIn bs, SortedMap.ofList entries⟩ := by
  rw [ofBytes?, header?_take]
  constructor
  · intro h
    split at h
    · cases h
    · rename_i header hheader
      obtain ⟨⟨hletters, hfits⟩, hheader⟩ := Option.ite_none_right_eq_some.1 hheader
      obtain rfl := Option.some.inj hheader
      rw [content?] at h
      split at h
      · rename_i hchecksum
        obtain ⟨table, htable, rfl⟩ := Option.map_eq_some_iff.1 h
        obtain ⟨entries, hsmall, hsplits, rfl⟩ := ItemTable.decode?_eq_some_iff.1 htable
        exact ⟨entries, ⟨hletters, hfits, hchecksum, hsmall, hsplits⟩, rfl⟩
      · cases h
  · rintro ⟨entries, h, rfl⟩
    have hdecode := ItemTable.decode?_eq_some_iff.2 ⟨entries, h.small, h.splits, rfl⟩
    rw [if_pos ⟨h.letters, h.fits⟩]
    show content? _ (payloadIn bs) = _
    rw [content?, if_pos h.checksum, hdecode]
    rfl

/-- The table in a bank is one that the bank has room for. -/
theorem length_items_le {c : Content} (h : ofBytes? bs = some c) :
    c.items.encode.length ≤ bs.length - headerLength := by
  obtain ⟨entries, hwhole, rfl⟩ := ofBytes?_eq_some_iff.1 h
  refine (ItemTable.length_encode_ofList_le entries).trans ?_
  rw [← hwhole.splits, payloadIn, List.length_take, List.length_drop]
  exact Nat.min_le_right ..

/-- The payload in the bytes of a bank, if its checksum is the one in the header. -/
def passing? (bs : Bytes) : Option Bytes :=
  match header? bs.length (bs.take headerLength) with
  | none => none
  | some header =>
    let payload := (bs.drop headerLength).take header.payloadLength
    if header.checksum = Digest.checksum payload then some payload else none

/-- A bank does not pass its checksum by accident: what passes is the intended payload. -/
def Honest (payload bs : Bytes) : Prop := ∀ held, passing? bs = some held → held = payload

theorem passing?_of_ofBytes? {c : Content} (h : ofBytes? bs = some c) :
    ∃ held, passing? bs = some held := by
  rw [ofBytes?] at h
  rw [passing?]
  split at h
  · cases h
  · rename_i header hheader
    rw [content?] at h
    split at h
    · rename_i hchecksum
      exact ⟨_, if_pos hchecksum⟩
    · cases h

/-- There is no header without the magic letters. -/
theorem header?_of_not_magic (h : bs.take 4 ≠ magic) :
    header? bs.length (bs.take headerLength) = none := by
  rw [header?_take, if_neg (fun hm => h hm.1)]

/-- There is no header of a payload that would not fit. -/
theorem header?_of_long (h : bs.length - headerLength < lengthIn bs) :
    header? bs.length (bs.take headerLength) = none := by
  rw [header?_take, if_neg (fun hm => Nat.not_lt.2 hm.2 h)]

theorem ofBytes?_of_not_magic (h : bs.take 4 ≠ magic) : ofBytes? bs = none := by
  rw [ofBytes?, header?_of_not_magic h]

@[simp] theorem length_image :
    (image sequence payload).length = headerLength + payload.length := by
  simp [image, magic, headerLength]
  omega

/-- The magic letters, the sequence number and the length of an image. -/
theorem take_image : (image sequence payload).take 12
    = magic ++ littleEndian 4 sequence.toNat ++ littleEndian 4 payload.length := by
  simp [image, magic, littleEndian]

theorem ofLittleEndian_sequence (sequence : UInt32) :
    UInt32.ofNat (ofLittleEndian (littleEndian 4 sequence.toNat)) = sequence := by
  have hlt : sequence.toNat < 256 ^ 4 := sequence.toNat_lt
  rw [Bytes.ofLittleEndian_of_lt hlt, UInt32.ofNat_toNat]

/-- Magic, sequence number and length of an image make its header, with the checksum that
stands behind them. -/
theorem header?_of_front (hfit : headerLength + payload.length ≤ bs.length)
    (hlen : payload.length < 2 ^ 32) (hfront : bs.take 12 = (image sequence payload).take 12) :
    header? bs.length (bs.take headerLength)
      = some ⟨sequence, payload.length, (bs.drop 12).take 8⟩ := by
  rw [take_image] at hfront
  have hvalue : ofLittleEndian (littleEndian 4 payload.length) = payload.length :=
    Bytes.ofLittleEndian_of_lt hlen
  have hmagic : (bs.take headerLength).take 4 = magic := by
    have := congrArg (List.take 4) hfront
    simpa [List.take_take, headerLength, magic, littleEndian] using this
  have hsequence : ((bs.take headerLength).drop 4).take 4 = littleEndian 4 sequence.toNat := by
    have := congrArg (fun l => (l.drop 4).take 4) hfront
    simpa [List.drop_take, List.take_take, headerLength, magic, littleEndian] using this
  have hlength : ((bs.take headerLength).drop 8).take 4 = littleEndian 4 payload.length := by
    have := congrArg (fun l => (l.drop 8).take 4) hfront
    simpa [List.drop_take, List.take_take, headerLength, magic, littleEndian] using this
  have hchecksum : ((bs.take headerLength).drop 12).take 8 = (bs.drop 12).take 8 := by
    simp [List.drop_take, List.take_take, headerLength]
  rw [header?, hmagic, hsequence, hlength, hchecksum, hvalue, ofLittleEndian_sequence,
    if_pos ⟨rfl, by omega⟩]

/-- A bank that took a whole image holds its table, whatever is behind the image. -/
theorem ofBytes?_image (hlen : payload.length < 2 ^ 32) :
    ofBytes? (image sequence payload ++ tail) =
      (ItemTable.decode? payload).map (⟨sequence, ·⟩) := by
  have hpayload : ((image sequence payload ++ tail).drop headerLength).take payload.length
      = payload := by
    simp [image, magic, headerLength, littleEndian]
  have hchecksum : ((image sequence payload ++ tail).drop 12).take 8
      = Digest.checksum payload := by
    simp [image, magic, littleEndian]
  have hfront : (image sequence payload ++ tail).take 12 = (image sequence payload).take 12 :=
    List.take_append_of_le_length (by rw [length_image, headerLength]; omega)
  rw [ofBytes?, header?_of_front (by rw [List.length_append, length_image]; omega) hlen hfront]
  simp only [content?, hpayload, hchecksum, if_pos]

/-! ## Torn banks -/

/-- A bank that took the first `keep` bytes of an image and is erased behind them. -/
def torn (sequence : UInt32) (payload : Bytes) (keep len : Nat) : Bytes :=
  (image sequence payload).take keep ++ erased (len - keep)

theorem length_torn (hkeep : keep ≤ headerLength + payload.length)
    (hfit : headerLength + payload.length ≤ len) :
    (torn sequence payload keep len).length = len := by
  rw [torn, List.length_append, List.length_take, length_image, Flash.length_erased]
  omega

/-- The first byte that a torn bank did not take is an erased one. -/
theorem getElem?_torn (hkeep : keep < headerLength + payload.length) {i : Nat} (hi : keep ≤ i)
    (hlen : i < len) : (torn sequence payload keep len)[i]? = some 0xFF := by
  have hfront : ((image sequence payload).take keep).length = keep := by
    rw [List.length_take, length_image]
    omega
  rw [torn, List.getElem?_append_right (by omega), hfront, Flash.getElem?_erased,
    if_pos (by omega)]

theorem ofLittleEndian_append (l m : Bytes) :
    ofLittleEndian (l ++ m) = ofLittleEndian l + 256 ^ l.length * ofLittleEndian m := by
  induction l with
  | nil => simp [ofLittleEndian]
  | cons b rest ih =>
    rw [List.cons_append, ofLittleEndian, ofLittleEndian, ih, List.length_cons, Nat.pow_succ]
    ring

/-- A bank whose magic letters or whose length are not complete has no header: an erased byte
is none of the letters, and makes the length too large. -/
theorem header?_torn_of_lt (hkeep : keep < headerLength + payload.length)
    (hfit : headerLength + payload.length ≤ len) (hsmall : len - headerLength < 0xFF000000)
    (h12 : keep < 12) :
    header? (torn sequence payload keep len).length
      ((torn sequence payload keep len).take headerLength) = none := by
  have hlen : (torn sequence payload keep len).length = len :=
    length_torn (Nat.le_of_lt hkeep) hfit
  rcases Nat.lt_or_ge keep 4 with h4 | h4
  · -- one of the first four bytes is erased
    refine header?_of_not_magic fun hmagic => ?_
    have hcell : (torn sequence payload keep len)[keep]? = some 0xFF :=
      getElem?_torn hkeep (Nat.le_refl _) (by omega)
    have hmem : 0xFF ∈ (torn sequence payload keep len).take 4 :=
      List.mem_of_getElem? (i := keep) (by rw [List.getElem?_take, if_pos h4, hcell])
    rw [hmagic] at hmem
    exact absurd hmem (by decide)
  · -- the highest byte of the length is erased
    refine header?_of_long ?_
    have hcell : (torn sequence payload keep len)[11]? = some 0xFF :=
      getElem?_torn hkeep (by omega) (by rw [headerLength] at hfit; omega)
    have hfour : ((torn sequence payload keep len).drop 8).take 4
        = ((torn sequence payload keep len).drop 8).take 3 ++ [0xFF] := by
      rw [List.take_add_one, List.getElem?_drop, hcell]
      rfl
    have hthree : (((torn sequence payload keep len).drop 8).take 3).length = 3 := by
      rw [List.length_take, List.length_drop, hlen]
      rw [headerLength] at hfit
      omega
    rw [lengthIn, hlen, hfour, ofLittleEndian_append, hthree]
    simp [ofLittleEndian]
    omega

/-- A bank that took the magic letters, the sequence number and the length begins like the whole
image. -/
theorem take_torn (hkeep : keep ≤ headerLength + payload.length) (h12 : 12 ≤ keep) :
    (torn sequence payload keep len).take 12 = (image sequence payload).take 12 := by
  rw [torn, List.take_append_of_le_length, List.take_take, Nat.min_eq_left h12]
  rw [List.length_take, length_image]
  omega

/-- **What is found in a torn bank has the sequence number that was to be written**, whatever its
checksum is worth: a header that was cut off before its length is none. -/
theorem sequence_of_torn {c : Content} (hkeep : keep < headerLength + payload.length)
    (hfit : headerLength + payload.length ≤ len) (hsmall : len - headerLength < 0xFF000000)
    (h : ofBytes? (torn sequence payload keep len) = some c) : c.sequence = sequence := by
  have hlen : (torn sequence payload keep len).length = len :=
    length_torn (Nat.le_of_lt hkeep) hfit
  rcases Nat.lt_or_ge keep 12 with h12 | h12
  · rw [ofBytes?, header?_torn_of_lt hkeep hfit hsmall h12] at h
    cases h
  · have hfront : (torn sequence payload keep len).take 12 = (image sequence payload).take 12 :=
      take_torn (Nat.le_of_lt hkeep) h12
    have hheader := header?_of_front (by omega) (by rw [headerLength] at hfit hsmall; omega) hfront
    simp only [ofBytes?, hheader, content?] at h
    obtain ⟨-, h⟩ := Option.ite_none_right_eq_some.1 h
    obtain ⟨items, -, rfl⟩ := Option.map_eq_some_iff.1 h
    rfl

/-- A torn bank that passes its checksum with the intended payload holds the whole image. -/
theorem torn_of_passing (hkeep : keep < headerLength + payload.length)
    (hfit : headerLength + payload.length ≤ len) (hsmall : len - headerLength < 0xFF000000)
    (hpass : passing? (torn sequence payload keep len) = some payload) :
    ∃ tail, torn sequence payload keep len = image sequence payload ++ tail := by
  have hlen : (torn sequence payload keep len).length = len :=
    length_torn (Nat.le_of_lt hkeep) hfit
  rcases Nat.lt_or_ge keep 12 with h12 | h12
  · rw [passing?, header?_torn_of_lt hkeep hfit hsmall h12] at hpass
    cases hpass
  have hfront : (torn sequence payload keep len).take 12 = (image sequence payload).take 12 :=
    take_torn (Nat.le_of_lt hkeep) h12
  have hheader := header?_of_front (by omega) (by rw [headerLength] at hfit hsmall; omega) hfront
  generalize torn sequence payload keep len = bs at *
  -- the header is whole, so what is left to compare is the checksum and the payload behind it
  simp only [passing?, hheader] at hpass
  split at hpass
  · rename_i hchecksum
    rw [Option.some.injEq] at hpass
    rw [hpass] at hchecksum
    have hbody := List.take_append_drop 8 (bs.drop 12)
    rw [hchecksum, List.drop_drop] at hbody
    have hrest := List.take_append_drop payload.length (bs.drop headerLength)
    rw [hpass] at hrest
    refine ⟨(bs.drop headerLength).drop payload.length, ?_⟩
    calc bs = bs.take 12 ++ bs.drop 12 := (List.take_append_drop 12 bs).symm
      _ = bs.take 12 ++ (Digest.checksum payload ++ bs.drop headerLength) := by
        rw [← hbody]
        rfl
      _ = bs.take 12 ++ (Digest.checksum payload
          ++ (payload ++ (bs.drop headerLength).drop payload.length)) := by rw [hrest]
      _ = image sequence payload ++ (bs.drop headerLength).drop payload.length := by
        rw [hfront, take_image, image]
        simp only [List.append_assoc]
  · cases hpass

/-- **A torn bank holds nothing or all.** -/
theorem ofBytes?_torn (hkeep : keep < headerLength + payload.length)
    (hfit : headerLength + payload.length ≤ len) (hsmall : len - headerLength < 0xFF000000)
    (honest : Honest payload (torn sequence payload keep len)) :
    ofBytes? (torn sequence payload keep len) = none ∨
      ofBytes? (torn sequence payload keep len) =
        (ItemTable.decode? payload).map (⟨sequence, ·⟩) := by
  cases hheld : ofBytes? (torn sequence payload keep len) with
  | none => exact .inl rfl
  | some c =>
    obtain ⟨held, hpass⟩ := passing?_of_ofBytes? hheld
    rw [honest held hpass] at hpass
    obtain ⟨tail, htail⟩ := torn_of_passing hkeep hfit hsmall hpass
    rw [htail, ofBytes?_image (by rw [headerLength] at hfit hsmall; omega)] at hheld
    exact .inr hheld.symm

/-- A bank that lost nothing but erased bytes holds the whole image. -/
theorem torn_eq_iff (hkeep : keep ≤ headerLength + payload.length)
    (hfit : headerLength + payload.length ≤ len) :
    (∃ tail, torn sequence payload keep len = image sequence payload ++ tail) ↔
      (image sequence payload).drop keep = erased (headerLength + payload.length - keep) := by
  have hsplit : erased (len - keep) = erased (headerLength + payload.length - keep)
      ++ erased (len - (headerLength + payload.length)) := by
    rw [erased, erased, erased, List.replicate_append_replicate]
    congr 1
    omega
  rw [torn, hsplit, ← List.append_assoc]
  constructor
  · rintro ⟨tail, htail⟩
    have hlength : ((image sequence payload).take keep
        ++ erased (headerLength + payload.length - keep)).length
        = (image sequence payload).length := by
      rw [List.length_append, List.length_take, length_image, Flash.length_erased]
      omega
    have himage := (List.append_inj htail hlength).1
    exact (List.append_cancel_left
      (himage.trans (List.take_append_drop keep (image sequence payload)).symm)).symm
  · intro hdrop
    exact ⟨_, by rw [← hdrop, List.take_append_drop]⟩

end UpdateVault.Bank
