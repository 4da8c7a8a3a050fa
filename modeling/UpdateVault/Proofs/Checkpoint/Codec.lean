import UpdateVault.Proofs.Bytes
import UpdateVault.Vault

/-!
# The bytes of a checkpoint

Reading and writing are two directions of one correspondence: `ofPlainBytes_eq_ok_iff` for
the plain layout, `openEnvelope_envelope` and `eq_envelope_of_openEnvelope` for the envelope, and
from these `decode_eq_ok_iff` for a reader that takes either layout.

The letters of the envelope keep the layouts apart: read as a number they are no phase
(`not_magic_of_ofPlainBytes`), so plain bytes never begin with them.
-/

namespace UpdateVault.Checkpoint

/-! ## Plain layout -/

theorem isShortType_iff {type : Bytes} : isShortType type ↔ type.length = 1 := by
  rw [isShortType, Bool.and_eq_true, decide_eq_true_iff, decide_eq_true_iff]
  simp only [minTypeLength]
  omega

/-- The number of a phase fits its four bytes. -/
theorem ofLittleEndian_value (p : Phase) :
    Bytes.ofLittleEndian (Bytes.littleEndian valueLength p.value) = p.value :=
  Bytes.ofLittleEndian_of_lt (Nat.lt_trans p.value_lt (by decide))

@[simp] theorem take_plainBytes (c : Checkpoint) :
    c.plainBytes.take valueLength = Bytes.littleEndian valueLength c.phase.value :=
  List.take_left' (Bytes.length_littleEndian _ _)

@[simp] theorem drop_plainBytes (c : Checkpoint) :
    c.plainBytes.drop valueLength = Utf8.encode c.artifactType :=
  List.drop_left' (Bytes.length_littleEndian _ _)

theorem length_plainBytes (c : Checkpoint) :
    c.plainBytes.length = valueLength + (Utf8.encode c.artifactType).length := by
  simp [plainBytes]

theorem ofPlainBytes_plainBytes {c : Checkpoint}
    (h : isShortType (Utf8.encode c.artifactType) = false) :
    ofPlainBytes c.plainBytes = .ok c := by
  have hlen : ¬ c.plainBytes.length < valueLength := by rw [length_plainBytes]; omega
  simp [ofPlainBytes, hlen, ofLittleEndian_value, h, Utf8.decode?_encode]

/-- What the plain reader accepts is the plain writing of what it finds. -/
theorem eq_plainBytes_of_ofPlainBytes {bs : Bytes} {c : Checkpoint}
    (h : ofPlainBytes bs = .ok c) :
    bs = c.plainBytes ∧ isShortType (Utf8.encode c.artifactType) = false := by
  simp only [ofPlainBytes] at h
  split at h
  · cases h
  · rename_i hlen
    split at h
    · cases h
    · rename_i phase hphase
      split at h
      · cases h
      · rename_i hshort
        split at h
        · cases h
        · rename_i type htype
          cases h
          -- the phase gives back the number, and the number its four bytes
          have hvalue : Bytes.littleEndian valueLength phase.value = bs.take valueLength := by
            rw [Phase.value_of_ofValue? hphase]
            have := Bytes.littleEndian_ofLittleEndian (bs.take valueLength)
            rwa [List.length_take, Nat.min_eq_left (Nat.not_lt.1 hlen)] at this
          have hrest : bs.drop valueLength = Utf8.encode type := Utf8.eq_encode_of_decode? htype
          refine ⟨?_, by simpa [hrest] using hshort⟩
          rw [plainBytes, hvalue, ← hrest, List.take_append_drop]

theorem encode?_plain_eq_some_iff {c : Checkpoint} {bs : Bytes} :
    c.encode? .plain = some bs ↔
      bs = c.plainBytes ∧ isShortType (Utf8.encode c.artifactType) = false := by
  by_cases h : isShortType (Utf8.encode c.artifactType) <;> simp [encode?, h, eq_comm]

theorem ofPlainBytes_eq_ok_iff {bs : Bytes} {c : Checkpoint} :
    ofPlainBytes bs = .ok c ↔ c.encode? .plain = some bs := by
  rw [encode?_plain_eq_some_iff]
  constructor
  · exact eq_plainBytes_of_ofPlainBytes
  · rintro ⟨rfl, hshort⟩
    exact ofPlainBytes_plainBytes hshort

/-- The letters of an envelope are the number of no phase. -/
theorem not_magic_of_ofPlainBytes {bs : Bytes} {c : Checkpoint} (h : ofPlainBytes bs = .ok c) :
    magic.isPrefixOf bs = false := by
  obtain ⟨rfl, -⟩ := eq_plainBytes_of_ofPlainBytes h
  rw [Bool.eq_false_iff, ne_eq, List.isPrefixOf_iff_prefix]
  intro hm
  have hfour : magic = Bytes.littleEndian valueLength c.phase.value := by
    rw [← take_plainBytes]
    exact List.prefix_iff_eq_take.1 hm
  have hvalue : Bytes.ofLittleEndian magic = c.phase.value := by
    rw [hfour, ofLittleEndian_value]
  have hbig : 11 ≤ Bytes.ofLittleEndian magic := by decide
  have := c.phase.value_lt
  omega

/-! ## Envelope -/

@[simp] theorem length_envelope (payload : Bytes) :
    (envelope payload).length = envelopeLength + payload.length := by
  simp [envelope, envelopeLength, magic]
  omega

theorem magic_isPrefixOf_envelope (payload : Bytes) : magic.isPrefixOf (envelope payload) := by
  simp [envelope, List.append_assoc]

/-- The four fields of an envelope, each of its own length. -/
theorem envelope_fields {bs : Bytes} (hm : magic.isPrefixOf bs) :
    bs = magic ++ (bs.drop 4).take 4 ++ (bs.drop 8).take 8 ++ bs.drop envelopeLength := by
  obtain ⟨rest, rfl⟩ := List.isPrefixOf_iff_prefix.1 hm
  have h4 : (magic ++ rest).drop 4 = rest := rfl
  have h8 : (magic ++ rest).drop 8 = rest.drop 4 := by simp [magic]
  have h16 : (magic ++ rest).drop envelopeLength = (rest.drop 4).drop 8 := by
    simp [magic, envelopeLength]
  rw [h4, h8, h16, List.append_assoc, List.append_assoc, List.take_append_drop,
    List.take_append_drop]

theorem drop_envelope (payload : Bytes) : (envelope payload).drop envelopeLength = payload :=
  List.drop_left' (by simp [magic, envelopeLength])

theorem openEnvelope_envelope {payload : Bytes} (h : payload.length < 2 ^ 32) :
    openEnvelope (envelope payload) = .ok payload := by
  have hdeclared : ((envelope payload).drop 4).take 4 = Bytes.littleEndian 4 payload.length := by
    simp [envelope, magic, List.append_assoc]
  have hdigest : ((envelope payload).drop 8).take 8 = Digest.checksum payload := by
    simp [envelope, magic, Bytes.littleEndian]
  have hvalue : Bytes.ofLittleEndian (Bytes.littleEndian 4 payload.length) = payload.length :=
    Bytes.ofLittleEndian_of_lt h
  simp [openEnvelope, hdeclared, hdigest, drop_envelope, hvalue]

/-- What the reader takes out of an envelope is what was put into it. -/
theorem eq_envelope_of_openEnvelope {bs payload : Bytes} (hm : magic.isPrefixOf bs)
    (h : openEnvelope bs = .ok payload) :
    bs = envelope payload ∧ payload.length < 2 ^ 32 := by
  simp only [openEnvelope] at h
  split at h
  · cases h
  · rename_i hlen
    split at h
    · cases h
    · rename_i hdeclared
      split at h
      · cases h
      · rename_i hdigest
        cases h
        have hfour : ((bs.drop 4).take 4).length = 4 := by
          simp only [envelopeLength] at hlen
          simp only [List.length_take, List.length_drop]
          omega
        have hdeclared := Decidable.not_not.1 hdeclared
        have hlength : (bs.drop 4).take 4
            = Bytes.littleEndian 4 (bs.drop envelopeLength).length := by
          have := Bytes.littleEndian_ofLittleEndian ((bs.drop 4).take 4)
          rw [hfour] at this
          rw [hdeclared, this]
        refine ⟨?_, ?_⟩
        · rw [envelope, ← hlength, ← Decidable.not_not.1 hdigest]
          exact envelope_fields hm
        · have := Bytes.ofLittleEndian_lt ((bs.drop 4).take 4)
          rw [hfour] at this
          rw [hdeclared]
          simpa using this

/-! ## Either layout -/

theorem decode_of_magic {bs : Bytes} (hm : magic.isPrefixOf bs) :
    decode bs = openEnvelope bs >>= ofPlainBytes :=
  if_pos hm

theorem decode_envelope {payload : Bytes} (h : payload.length < 2 ^ 32) :
    decode (envelope payload) = ofPlainBytes payload := by
  rw [decode_of_magic (magic_isPrefixOf_envelope payload), openEnvelope_envelope h]
  rfl

theorem encode?_checked_eq_some_iff {c : Checkpoint} {bs : Bytes} :
    c.encode? .checked = some bs ↔
      c.encode? .plain = some c.plainBytes ∧ bs = envelope c.plainBytes := by
  by_cases h : isShortType (Utf8.encode c.artifactType) <;> simp [encode?, h, eq_comm]

/-- Reading takes the plain bytes of a checkpoint, and their envelope as far as its length
field reaches, and nothing else. -/
theorem decode_eq_ok_iff {bs : Bytes} {c : Checkpoint} :
    decode bs = .ok c ↔
      c.encode? .plain = some bs ∨
        c.encode? .checked = some bs ∧ c.plainBytes.length < 2 ^ 32 := by
  constructor
  · intro h
    by_cases hm : magic.isPrefixOf bs
    · rw [decode_of_magic hm] at h
      cases hopen : openEnvelope bs with
      | error f => simp [hopen, bind, Except.bind] at h
      | ok payload =>
        simp only [hopen, bind, Except.bind] at h
        obtain ⟨rfl, hlen⟩ := eq_envelope_of_openEnvelope hm hopen
        obtain ⟨rfl, -⟩ := eq_plainBytes_of_ofPlainBytes h
        exact .inr ⟨encode?_checked_eq_some_iff.2 ⟨ofPlainBytes_eq_ok_iff.1 h, rfl⟩, hlen⟩
    · rw [decode, if_neg hm] at h
      exact .inl (ofPlainBytes_eq_ok_iff.1 h)
  · rintro (h | ⟨h, hlen⟩)
    · have hplain := ofPlainBytes_eq_ok_iff.2 h
      rw [decode, not_magic_of_ofPlainBytes hplain]
      exact hplain
    · obtain ⟨hplain, rfl⟩ := encode?_checked_eq_some_iff.1 h
      rw [decode_envelope hlen]
      exact ofPlainBytes_eq_ok_iff.2 hplain

/-- Plain bytes are no envelope, whatever is in it. -/
theorem envelope_ne_of_encode?_plain {bs : Bytes} {c : Checkpoint}
    (h : c.encode? .plain = some bs) (payload : Bytes) : bs ≠ envelope payload := by
  rintro rfl
  have := not_magic_of_ofPlainBytes (ofPlainBytes_eq_ok_iff.2 h)
  rw [magic_isPrefixOf_envelope] at this
  cases this

/-- An envelope in an envelope is no checkpoint. -/
theorem decode_envelope_envelope (payload : Bytes) (c : Checkpoint) :
    decode (envelope (envelope payload)) ≠ .ok c := by
  intro h
  rcases decode_eq_ok_iff.1 h with h | ⟨h, -⟩
  · exact envelope_ne_of_encode?_plain h _ rfl
  · obtain ⟨hplain, heq⟩ := encode?_checked_eq_some_iff.1 h
    have : envelope payload = c.plainBytes := by
      have := congrArg (List.drop envelopeLength) heq
      simpa [envelope, magic, envelopeLength, Bytes.littleEndian] using this
    exact envelope_ne_of_encode?_plain hplain payload this.symm

/-- A written checkpoint is not empty. -/
theorem ne_nil_of_encode? {layout : CheckpointLayout} {c : Checkpoint} {bs : Bytes}
    (h : c.encode? layout = some bs) : bs ≠ [] := by
  refine List.ne_nil_of_length_pos ?_
  unfold encode? at h
  split at h
  · cases h
  · cases layout with
    | plain =>
      cases h
      rw [length_plainBytes, valueLength]
      omega
    | checked =>
      cases h
      rw [length_envelope, envelopeLength]
      omega

end UpdateVault.Checkpoint

namespace UpdateVault.Vault

open Checkpoint (envelope)

theorem checkpointBytes_eq_ok_iff {layout : CheckpointLayout} {c : Checkpoint} {bs : Bytes} :
    checkpointBytes layout c = .ok bs ↔ c.encode? layout = some bs := by
  rw [checkpointBytes]
  split <;> rename_i h <;> simp [h]

theorem checkpointOf_eq_ok_iff {bs : Bytes} {c : Checkpoint} :
    checkpointOf bs = .ok c ↔
      checkpointBytes .plain c = .ok bs ∨
        checkpointBytes .checked c = .ok bs ∧ c.plainBytes.length < 2 ^ 32 := by
  rw [checkpointBytes_eq_ok_iff, checkpointBytes_eq_ok_iff, ← Checkpoint.decode_eq_ok_iff,
    checkpointOf]
  cases Checkpoint.decode bs <;> simp [Except.mapError]

/-- Only an artifact type of a single byte has no written form, in either layout. -/
theorem exists_checkpointBytes_iff {layout : CheckpointLayout} {c : Checkpoint} :
    (∃ bs, checkpointBytes layout c = .ok bs) ↔ (Utf8.encode c.artifactType).length ≠ 1 := by
  simp only [checkpointBytes_eq_ok_iff, Checkpoint.encode?, ne_eq, ← Checkpoint.isShortType_iff]
  cases layout <;> by_cases h : Checkpoint.isShortType (Utf8.encode c.artifactType) <;> simp [h]

/-- Bytes that cannot be read are reported as a corrupt record, and as nothing else. -/
theorem checkpointOf_ok_or_corrupt (bs : Bytes) :
    (∃ c, checkpointOf bs = .ok c) ∨ ∃ fault, checkpointOf bs = .error (.corrupt fault) := by
  rw [checkpointOf]
  cases Checkpoint.decode bs with
  | ok c => exact .inl ⟨c, rfl⟩
  | error fault => exact .inr ⟨fault, rfl⟩

/-- **A stored checkpoint has one reading, and a reading one writing in each layout.** Bytes
read as a checkpoint exactly if they are its plain bytes, or its envelope with a payload that
the length field can measure. So no bytes are both a plain record and an envelope, an envelope
around an envelope is corrupt, what was written in either layout is read back by the one reader
there is, and all other bytes are corrupt. Only a type of a single byte cannot be written. -/
theorem checkpointOf_reads_exactly_written :
    (∀ bs c, checkpointOf bs = .ok c ↔
      checkpointBytes .plain c = .ok bs ∨
        checkpointBytes .checked c = .ok bs ∧ c.plainBytes.length < 2 ^ 32) ∧
    (∀ bs c c', ¬ (checkpointBytes .plain c = .ok bs ∧ checkpointBytes .checked c' = .ok bs)) ∧
    (∀ payload, ∃ fault, checkpointOf (envelope (envelope payload)) = .error (.corrupt fault)) ∧
    (∀ layout c, (∃ bs, checkpointBytes layout c = .ok bs) ↔
      (Utf8.encode c.artifactType).length ≠ 1) ∧
    (∀ layout c bs, checkpointBytes layout c = .ok bs → c.plainBytes.length < 2 ^ 32 →
      checkpointOf bs = .ok c) ∧
    (∀ bs, (∀ c, checkpointBytes .plain c ≠ .ok bs ∧
        ¬ (checkpointBytes .checked c = .ok bs ∧ c.plainBytes.length < 2 ^ 32)) →
      ∃ fault, checkpointOf bs = .error (.corrupt fault)) := by
  refine ⟨fun _ _ => checkpointOf_eq_ok_iff, ?_, ?_, fun _ _ => exists_checkpointBytes_iff,
    ?_, ?_⟩
  · rintro bs c c' ⟨hplain, hchecked⟩
    rw [checkpointBytes_eq_ok_iff] at hplain hchecked
    obtain ⟨-, rfl⟩ := Checkpoint.encode?_checked_eq_some_iff.1 hchecked
    exact Checkpoint.envelope_ne_of_encode?_plain hplain _ rfl
  · intro payload
    rcases checkpointOf_ok_or_corrupt (envelope (envelope payload)) with ⟨c, h⟩ | h
    · rw [checkpointOf_eq_ok_iff, checkpointBytes_eq_ok_iff, checkpointBytes_eq_ok_iff,
        ← Checkpoint.decode_eq_ok_iff] at h
      exact absurd h (Checkpoint.decode_envelope_envelope payload c)
    · exact h
  · intro layout c bs h hlen
    cases layout with
    | plain => exact checkpointOf_eq_ok_iff.2 (.inl h)
    | checked => exact checkpointOf_eq_ok_iff.2 (.inr ⟨h, hlen⟩)
  · intro bs h
    rcases checkpointOf_ok_or_corrupt bs with ⟨c, hc⟩ | hf
    · rcases checkpointOf_eq_ok_iff.1 hc with hplain | hchecked
      · exact absurd hplain (h c).1
      · exact absurd hchecked (h c).2
    · exact hf

end UpdateVault.Vault
