import UpdateVault.Proofs.Checkpoint.Codec

/-!
# Damaged checkpoints

A checkpoint in an envelope whose bytes are damaged is not read as a checkpoint. Bytes that are cut
off (`decode_take_envelope`), or have others behind them (`decode_envelope_append`), disagree with
the length in the envelope; a single byte that is changed is in one of four fields, each of which
shows it in its own way (`decode_set_magic` to `decode_set_payload`). Only a change of the payload
can go unseen, and only if the payload keeps its checksum (`damage_detected`).
-/

namespace UpdateVault.Checkpoint

variable {size digest payload more : Bytes} {n i : Nat} {b : UInt8}

/-! ## Fields -/

/-- What begins like an envelope and is long enough is read field by field. -/
theorem decode_fields (hsize : size.length = 4) (hdigest : digest.length = 8) (payload : Bytes) :
    decode (magic ++ size ++ digest ++ payload) =
      if payload.length ≠ Bytes.ofLittleEndian size then
        .error (.lengthMismatch (Bytes.ofLittleEndian size) payload.length)
      else if digest ≠ Digest.checksum payload then .error .checksumMismatch
      else ofPlainBytes payload := by
  have hm : magic.isPrefixOf (magic ++ size ++ digest ++ payload) := by
    simp [List.append_assoc]
  have hlen : ¬ (magic ++ size ++ digest ++ payload).length < envelopeLength := by
    simp only [List.length_append, hsize, hdigest, magic, List.length_cons, List.length_nil,
      envelopeLength]
    omega
  have hfront : (magic ++ size).length = 8 := by simp [magic, hsize]
  have hheader : (magic ++ size ++ digest).length = envelopeLength := by
    rw [List.length_append, hfront, hdigest, envelopeLength]
  have hfour : ((magic ++ size ++ digest ++ payload).drop 4).take 4 = size := by
    rw [List.append_assoc, List.append_assoc]
    exact List.take_left' hsize
  have height : ((magic ++ size ++ digest ++ payload).drop 8).take 8 = digest := by
    rw [List.append_assoc, List.drop_left' hfront]
    exact List.take_left' hdigest
  have hpayload : (magic ++ size ++ digest ++ payload).drop envelopeLength = payload :=
    List.drop_left' hheader
  rw [decode_of_magic hm, openEnvelope, if_neg hlen]
  simp only [hfour, height, hpayload]
  split
  · rfl
  · split <;> rfl

/-! ## Envelopes that are cut off or go on -/

/-- The header of an envelope, and as much of its payload as there is. -/
theorem take_envelope (hn : envelopeLength ≤ n) :
    (envelope payload).take n
      = magic ++ Bytes.littleEndian 4 payload.length ++ Digest.checksum payload
        ++ payload.take (n - envelopeLength) := by
  have hheader : (magic ++ Bytes.littleEndian 4 payload.length
      ++ Digest.checksum payload).length = envelopeLength := by
    simp [magic, envelopeLength]
  rw [envelope, List.take_append, hheader, List.take_of_length_le (hheader.trans_le hn)]

/-- The length of an envelope that has less or more than its payload behind its header is wrong. -/
theorem decode_of_length_ne (h : payload.length < 2 ^ 32) (hmore : more.length ≠ payload.length) :
    decode (magic ++ Bytes.littleEndian 4 payload.length ++ Digest.checksum payload ++ more)
      = .error (.lengthMismatch payload.length more.length) := by
  rw [decode_fields (Bytes.length_littleEndian ..) (Digest.length_checksum _),
    Bytes.ofLittleEndian_of_lt h, if_pos hmore]

/-- **A record that is cut off is no checkpoint**: too little is left for a phase, or for the
header, or for the payload. -/
theorem decode_take_envelope (h : payload.length < 2 ^ 32) (hn : n < (envelope payload).length) :
    decode ((envelope payload).take n) = .error (
      if n < valueLength then .tooShort n
      else if n < envelopeLength then .truncatedEnvelope
      else .lengthMismatch payload.length (n - envelopeLength)) := by
  have hlen : ((envelope payload).take n).length = n := by
    rw [List.length_take, Nat.min_eq_left hn.le]
  rw [length_envelope] at hn
  split
  · rename_i hshort
    -- too short for the magic letters, so the plain layout is tried
    have hm : ¬ magic.isPrefixOf ((envelope payload).take n) := by
      rw [List.isPrefixOf_iff_prefix]
      intro hprefix
      have hle := hprefix.length_le
      rw [hlen] at hle
      exact absurd hle (Nat.not_le.2 hshort)
    rw [decode, if_neg hm, ofPlainBytes, hlen, if_pos hshort]
  · rename_i hlong
    split
    · rename_i hheader
      have hm : magic.isPrefixOf ((envelope payload).take n) := by
        have hmagic := List.isPrefixOf_iff_prefix.1 (magic_isPrefixOf_envelope payload)
        exact List.isPrefixOf_iff_prefix.2
          (List.prefix_take_iff.2 ⟨hmagic, Nat.not_lt.1 hlong⟩)
      rw [decode_of_magic hm, openEnvelope, hlen, if_pos hheader]
      rfl
    · rename_i hheader
      have hfound : (payload.take (n - envelopeLength)).length = n - envelopeLength := by
        rw [List.length_take]
        omega
      rw [take_envelope (Nat.not_lt.1 hheader), decode_of_length_ne h (by omega), hfound]

/-- **A record that goes on behind its end is no checkpoint.** -/
theorem decode_envelope_append (h : payload.length < 2 ^ 32) (hmore : more ≠ []) :
    decode (envelope payload ++ more)
      = .error (.lengthMismatch payload.length (payload.length + more.length)) := by
  have hpos : 0 < more.length := List.length_pos_iff.2 hmore
  have hlonger : (payload ++ more).length ≠ payload.length := by
    rw [List.length_append]
    omega
  rw [envelope, List.append_assoc _ payload more, decode_of_length_ne h hlonger, List.length_append]

/-! ## Envelopes with a changed byte -/

theorem set_ne_self {bs : Bytes} (hi : i < bs.length) (hb : bs[i]? ≠ some b) : bs.set i b ≠ bs := by
  intro hset
  rw [← hset, List.getElem?_set_self hi] at hb
  exact hb rfl

/-- One letter that is changed makes the magic letters a number of no phase. -/
theorem ofValue?_set_magic (i : Nat) (b : UInt8) :
    Phase.ofValue? (Bytes.ofLittleEndian (magic.set i b)) = none := by
  have hbig : 11 ≤ Bytes.ofLittleEndian (magic.set i b) := by
    -- of the first two letters one is as it was
    cases i with
    | zero =>
      show 11 ≤ b.toNat + 256 * Bytes.ofLittleEndian [0x54, 0x53, 0x31]
      have : 1 ≤ Bytes.ofLittleEndian [0x54, 0x53, 0x31] := by decide
      omega
    | succ i =>
      show 11 ≤ (0x4F : UInt8).toNat + 256 * Bytes.ofLittleEndian (List.set [0x54, 0x53, 0x31] i b)
      have : 11 ≤ (0x4F : UInt8).toNat := by decide
      omega
  exact List.getElem?_eq_none hbig

/-- A record with a changed letter is tried as a plain one, and has no phase. -/
theorem decode_set_magic (hi : i < magic.length)
    (hne : (envelope payload).set i b ≠ envelope payload) :
    decode ((envelope payload).set i b)
      = .error (.unknownPhase (Bytes.ofLittleEndian (magic.set i b))) := by
  obtain ⟨rest, hrest⟩ := List.isPrefixOf_iff_prefix.1 (magic_isPrefixOf_envelope payload)
  have hset : (envelope payload).set i b = magic.set i b ++ rest := by
    rw [← hrest, List.set_append, if_pos hi]
  have hlen : (magic.set i b).length = valueLength := List.length_set
  have hm : ¬ magic.isPrefixOf (magic.set i b ++ rest) := by
    rw [List.isPrefixOf_iff_prefix]
    intro hprefix
    have hsame : magic = magic.set i b :=
      (List.prefix_of_prefix_length_le hprefix (List.prefix_append _ _) hlen.ge).eq_of_length
        hlen.symm
    rw [hset, ← hsame] at hne
    exact hne hrest
  have hlong : ¬ (magic.set i b ++ rest).length < valueLength := by
    rw [List.length_append, hlen]
    omega
  rw [hset, decode, if_neg hm, ofPlainBytes, if_neg hlong, List.take_left' hlen]
  simp only [ofValue?_set_magic]

/-- A changed byte of the length is found out by the payload. -/
theorem decode_set_size (hlow : 4 ≤ i) (hhigh : i < 8)
    (hne : (envelope payload).set i b ≠ envelope payload) :
    decode ((envelope payload).set i b)
      = .error (.lengthMismatch
          (Bytes.ofLittleEndian ((Bytes.littleEndian 4 payload.length).set (i - 4) b))
          payload.length) := by
  have hset : (envelope payload).set i b
      = magic ++ (Bytes.littleEndian 4 payload.length).set (i - 4) b ++ Digest.checksum payload
        ++ payload := by
    rw [envelope, List.set_append_left _ _ (by simp [magic]; omega),
      List.set_append_left _ _ (by simp [magic]; omega), List.set_append_right _ _ hlow]
    rfl
  have hlen : ((Bytes.littleEndian 4 payload.length).set (i - 4) b).length = 4 := by
    rw [List.length_set, Bytes.length_littleEndian]
  -- four bytes that say the length of the payload are those that were written
  have hwrong : payload.length
      ≠ Bytes.ofLittleEndian ((Bytes.littleEndian 4 payload.length).set (i - 4) b) := by
    intro hsame
    have hback := Bytes.littleEndian_ofLittleEndian
      ((Bytes.littleEndian 4 payload.length).set (i - 4) b)
    rw [hlen, ← hsame] at hback
    rw [hset, ← hback] at hne
    exact hne rfl
  rw [hset, decode_fields hlen (Digest.length_checksum payload), if_pos hwrong]

/-- A changed byte of the checksum is found out by the payload as well. -/
theorem decode_set_digest (h : payload.length < 2 ^ 32) (hlow : 8 ≤ i) (hhigh : i < envelopeLength)
    (hne : (envelope payload).set i b ≠ envelope payload) :
    decode ((envelope payload).set i b) = .error .checksumMismatch := by
  have hset : (envelope payload).set i b
      = magic ++ Bytes.littleEndian 4 payload.length ++ (Digest.checksum payload).set (i - 8) b
        ++ payload := by
    rw [envelope, List.set_append_left _ _ (by simpa [magic, envelopeLength] using hhigh),
      List.set_append_right _ _ (by simpa [magic] using hlow)]
    simp [magic]
  have hlen : ((Digest.checksum payload).set (i - 8) b).length = 8 := by
    rw [List.length_set, Digest.length_checksum]
  have hwrong : (Digest.checksum payload).set (i - 8) b ≠ Digest.checksum payload := by
    intro hsame
    rw [hset, hsame] at hne
    exact hne rfl
  rw [hset, decode_fields (Bytes.length_littleEndian ..) hlen, Bytes.ofLittleEndian_of_lt h,
    if_neg (not_not.2 rfl), if_pos hwrong]

/-- A changed byte of the payload is found out by the checksum, unless the payload keeps it. -/
theorem decode_set_payload (h : payload.length < 2 ^ 32) (hlow : envelopeLength ≤ i) :
    decode ((envelope payload).set i b) =
      if Digest.checksum payload ≠ Digest.checksum (payload.set (i - envelopeLength) b) then
        .error .checksumMismatch
      else ofPlainBytes (payload.set (i - envelopeLength) b) := by
  have hset : (envelope payload).set i b
      = magic ++ Bytes.littleEndian 4 payload.length ++ Digest.checksum payload
        ++ payload.set (i - envelopeLength) b := by
    rw [envelope, List.set_append_right _ _ (by simpa [magic, envelopeLength] using hlow)]
    simp [magic, envelopeLength]
  rw [hset, decode_fields (Bytes.length_littleEndian ..) (Digest.length_checksum payload),
    Bytes.ofLittleEndian_of_lt h, List.length_set, if_neg (not_not.2 rfl)]

end UpdateVault.Checkpoint

namespace UpdateVault.Vault

open Checkpoint (envelope envelopeLength)

variable {c : Checkpoint} {bs : Bytes}

/-- The bytes are reported as a corrupt checkpoint. -/
def IsCorrupt (bs : Bytes) : Prop := ∃ fault, checkpointOf bs = .error (.corrupt fault)

theorem isCorrupt_of_decode {fault : Checkpoint.Fault} (h : Checkpoint.decode bs = .error fault) :
    IsCorrupt bs :=
  ⟨fault, by rw [checkpointOf, h]; rfl⟩

/-- Stored bytes that were damaged are reported as corrupt. -/
structure DamageDetected (bs : Bytes) : Prop where
  /-- They were cut off at some place, or nothing is left. -/
  cutOff : ∀ front, front <+: bs → front ≠ bs → IsCorrupt front
  /-- There are others behind them. -/
  continued : ∀ more, more ≠ [] → IsCorrupt (bs ++ more)
  /-- A byte of the envelope was changed. -/
  header : ∀ i b, i < envelopeLength → bs[i]? ≠ some b → IsCorrupt (bs.set i b)
  /-- A byte of the payload was changed: this goes unseen only if the checksum stays the same. -/
  payload : ∀ i b, envelopeLength ≤ i → i < bs.length → bs[i]? ≠ some b →
    IsCorrupt (bs.set i b) ∨
      (∃ c, checkpointOf (bs.set i b) = .ok c) ∧
        Digest.checksum ((bs.set i b).drop envelopeLength)
          = Digest.checksum (bs.drop envelopeLength)

theorem damageDetected_envelope {payload : Bytes} (h : payload.length < 2 ^ 32) :
    DamageDetected (envelope payload) where
  cutOff front hfront hne := by
    have hshorter : front.length < (envelope payload).length :=
      lt_of_le_of_ne hfront.length_le fun hlen => hne (hfront.eq_of_length hlen)
    rw [List.prefix_iff_eq_take.1 hfront]
    exact isCorrupt_of_decode (Checkpoint.decode_take_envelope h hshorter)
  continued more hmore := isCorrupt_of_decode (Checkpoint.decode_envelope_append h hmore)
  header i b hi hb := by
    have hlen : i < (envelope payload).length := by
      rw [Checkpoint.length_envelope]
      omega
    have hne := Checkpoint.set_ne_self hlen hb
    by_cases hmagic : i < 4
    · exact isCorrupt_of_decode (Checkpoint.decode_set_magic hmagic hne)
    by_cases hsize : i < 8
    · exact isCorrupt_of_decode (Checkpoint.decode_set_size (Nat.not_lt.1 hmagic) hsize hne)
    · exact isCorrupt_of_decode (Checkpoint.decode_set_digest h (Nat.not_lt.1 hsize) hi hne)
  payload i b hi _ _ := by
    have hdecode := Checkpoint.decode_set_payload (b := b) h hi
    rcases checkpointOf_ok_or_corrupt ((envelope payload).set i b) with ⟨c, hc⟩ | hcorrupt
    · refine .inr ⟨⟨c, hc⟩, ?_⟩
      split at hdecode
      · obtain ⟨fault, hfault⟩ := isCorrupt_of_decode hdecode
        rw [hfault] at hc
        cases hc
      · rename_i hsame
        rw [List.drop_set, if_neg (Nat.not_lt.2 hi), Checkpoint.drop_envelope]
        exact (not_not.1 hsame).symm
    · exact .inl hcorrupt

/-- **Damage to a checkpoint in an envelope is detected**, whatever the checksum does, but for a
change in the payload that leaves its checksum as it was. -/
theorem damage_detected (h : checkpointBytes .checked c = .ok bs)
    (hsmall : c.plainBytes.length < 2 ^ 32) : DamageDetected bs := by
  obtain ⟨-, rfl⟩ := Checkpoint.encode?_checked_eq_some_iff.1 (checkpointBytes_eq_ok_iff.1 h)
  exact damageDetected_envelope hsmall

/-- What is left of a record that is cut off may be as long as a plain record, and a changed letter
may be the number of a phase. -/
theorem damage_detected_commit :
    ∃ bs, checkpointBytes .checked ⟨.commit, "rootfs-image"⟩ = .ok bs ∧ bs.length = 32 ∧
      IsCorrupt (bs.take 20) ∧ IsCorrupt (bs ++ [0]) ∧ IsCorrupt (bs.set 0 4) := by
  obtain ⟨bs, hbytes⟩ : ∃ bs, checkpointBytes .checked ⟨.commit, "rootfs-image"⟩ = .ok bs :=
    exists_checkpointBytes_iff.2 (by decide)
  have hdetected := damage_detected hbytes (by decide)
  obtain ⟨-, rfl⟩ := Checkpoint.encode?_checked_eq_some_iff.1 (checkpointBytes_eq_ok_iff.1 hbytes)
  have hlen : (envelope (Checkpoint.plainBytes ⟨.commit, "rootfs-image"⟩)).length = 32 := by
    rw [Checkpoint.length_envelope]
    decide
  refine ⟨_, hbytes, hlen, hdetected.cutOff _ (List.take_prefix _ _) fun hsame => ?_,
    hdetected.continued _ (List.cons_ne_nil _ _), hdetected.header 0 4 (by decide) nofun⟩
  have hshort := congrArg List.length hsame
  rw [List.length_take, hlen] at hshort
  exact absurd hshort (by decide)

end UpdateVault.Vault
