import UpdateVault.Boot
import UpdateVault.Proofs.Checkpoint.Codec
import UpdateVault.Proofs.Provides.Text
import UpdateVault.Proofs.Storage.Kept

/-!
# Five records

`Records` is what was set last of each record of a vault. Stored items that hold the records
(`Held`) are read as what the records say: `Held.answeredBy`.
-/

namespace UpdateVault.Vault

open Text (withoutTerminator)

/-! ## Records -/

/-- What was set last of each record. The two keys are set one after the other, and a checkpoint
comes with the layout it was saved in. -/
structure Records where
  privateKey : Option Bytes
  publicKey : Option Bytes
  deployment : Option Bytes
  checkpoint : Option (CheckpointLayout × Checkpoint)
  provides : Option Provides
  artifactName : Option String

/-- Nothing was ever set. -/
def Records.blank : Records := ⟨none, none, none, none, none, none⟩

/-! ## Answers -/

variable {σ : Type} [ItemStorage σ] {reopen : σ → Except StorageError σ}
  {K : KeptItems σ reopen} {s : σ} {r : Records} {m : Item → Option Bytes}

/-- The answer of a record: the value that was set, or that there is none. -/
def answer {α : Type} (item : Item) : Option α → Except StorageError α
  | some a => .ok a
  | none => .error (.notFound item.name)

/-- The answer for the keys, which takes both of them. -/
def Records.keys (r : Records) : Except StorageError KeyPair := do
  let privateKey ← answer .privateKey r.privateKey
  let publicKey ← answer .publicKey r.publicKey
  return { privateKey, publicKey }

/-- The answer for the checkpoint: what its bytes are read as. -/
def Records.reread (r : Records) : Except StorageError Checkpoint := do
  let (layout, c) ← answer .checkpoint r.checkpoint
  checkpointOf (← checkpointBytes layout c)

/-- A checkpoint in an envelope is short enough for the length in the envelope. -/
def Records.Readable (r : Records) : Prop :=
  ∀ c, r.checkpoint = some (.checked, c) → c.plainBytes.length < 2 ^ 32

/-- A vault answers what the records say, whatever the policy for repeated keys. -/
structure Records.AnsweredBy (r : Records) (s : σ) : Prop where
  keys : Vault.keys s = r.keys
  deployment : Vault.deployment s = answer .deployment r.deployment
  checkpoint : Vault.checkpoint s = r.reread
  reread : r.Readable → r.reread = answer .checkpoint (r.checkpoint.map (·.2))
  boot : bootDecision s = decisionFor r.reread
  provides : ∀ policy,
    Vault.provides policy s = answer .provides (r.provides.map Provides.terminated)
  artifactName : Vault.artifactName s = .ok ((r.artifactName.map withoutTerminator).getD
    unknownArtifact)

/-! ## What is held -/

/-- Stored bytes hold a record: its written form, which is not empty. -/
inductive Holds {α : Type} (encode : α → Option Bytes) : Option α → Option Bytes → Prop
  | absent : Holds encode none none
  | present {a : α} {bytes : Bytes} :
      encode a = some bytes → bytes ≠ [] → Holds encode (some a) (some bytes)

/-- The stored items hold the records. -/
structure Held (r : Records) (m : Item → Option Bytes) : Prop where
  privateKey : Holds some r.privateKey (m .privateKey)
  publicKey : Holds some r.publicKey (m .publicKey)
  deployment : Holds some r.deployment (m .deployment)
  checkpoint : Holds (fun e => e.2.encode? e.1) r.checkpoint (m .checkpoint)
  provides : Holds (fun p => p.encode.toOption.map Utf8.encode) r.provides (m .provides)
  artifactName : Holds (fun name => some (Utf8.encode name)) r.artifactName (m .artifactName)

theorem held_blank : Held .blank fun _ => none :=
  ⟨.absent, .absent, .absent, .absent, .absent, .absent⟩

/-- What a reader is told of an item that holds a record. -/
theorem Holds.answer_eq {α : Type} {encode : α → Option Bytes} {a? : Option α}
    {stored : Option Bytes} (h : Holds encode a? stored) (item : Item) :
    a? = none ∧ item.answer stored = .error (.notFound item.name) ∨
      ∃ a bytes, a? = some a ∧ encode a = some bytes ∧ bytes ≠ [] ∧
        item.answer stored = .ok bytes := by
  cases h with
  | absent => exact .inl ⟨rfl, rfl⟩
  | @present a bytes hencode hne =>
    obtain ⟨b, rest, rfl⟩ := List.exists_cons_of_ne_nil hne
    exact .inr ⟨a, b :: rest, rfl, hencode, hne, rfl⟩

theorem Holds.answer_some {a? stored : Option Bytes} (h : Holds some a? stored) (item : Item) :
    item.answer stored = answer item a? := by
  rcases h.answer_eq item with ⟨ha, hanswer⟩ | ⟨a, bytes, ha, hbytes, -, hanswer⟩
  · rw [hanswer, ha]
    rfl
  · cases hbytes
    rw [hanswer, ha]
    rfl

/-! ## Stored texts -/

/-- A stored text is read as capabilities without NUL characters at its end. -/
theorem provides_of_read {text : String} (h : Vault.read s .provides = .ok (Utf8.encode text))
    (policy : RepeatPolicy) :
    Vault.provides policy s = providesOf policy (withoutTerminator text) := by
  rw [Vault.provides, h]
  simp only [bind, Except.bind, Utf8.decode?_encode]

theorem artifactName_of_read {name : String}
    (h : Vault.read s .artifactName = .ok (Utf8.encode name)) :
    Vault.artifactName s = .ok (withoutTerminator name) := by
  rw [Vault.artifactName, h]
  simp only [Utf8.decode?_encode]

/-! ## Looking records up -/

namespace Held

theorem reread_eq (h : Held r m) (hreadable : r.Readable) :
    r.reread = answer .checkpoint (r.checkpoint.map (·.2)) := by
  rw [Records.reread]
  rcases h.checkpoint.answer_eq .checkpoint with ⟨ha, -⟩ | ⟨⟨layout, c⟩, bytes, ha, hbytes, -, -⟩
  · rw [ha]
    rfl
  · have hencode : checkpointBytes layout c = .ok bytes := checkpointBytes_eq_ok_iff.2 hbytes
    have hof : checkpointOf bytes = .ok c := by
      rw [checkpointOf_eq_ok_iff]
      cases layout with
      | plain => exact .inl hencode
      | checked => exact .inr ⟨hencode, hreadable c ha⟩
    simp only [ha, answer, bind, Except.bind, hencode, hof, Option.map_some]

/-- Stored bytes that are short enough are readable. -/
theorem readable (h : Held r m) (hshort : ∀ bytes, m .checkpoint = some bytes →
    bytes.length < 2 ^ 32) : r.Readable := by
  intro c hc
  have hheld := h.checkpoint
  rw [hc] at hheld
  generalize hbytes : m .checkpoint = stored at hheld
  cases hheld with
  | @present _ bytes hencode hne =>
    obtain ⟨-, hbytes'⟩ := Checkpoint.encode?_checked_eq_some_iff.1 hencode
    have hlen : bytes.length = Checkpoint.envelopeLength + c.plainBytes.length := by
      rw [hbytes', Checkpoint.length_envelope]
    have := hshort bytes hbytes
    omega

variable (h : Held r (K.stored? s)) (hs : K.Valid s)

include h hs

theorem privateKey_eq : Vault.read s .privateKey = answer .privateKey r.privateKey := by
  rw [K.read_eq _ hs]
  exact h.privateKey.answer_some .privateKey

theorem publicKey_eq : Vault.read s .publicKey = answer .publicKey r.publicKey := by
  rw [K.read_eq _ hs]
  exact h.publicKey.answer_some .publicKey

theorem keys_eq : Vault.keys s = r.keys := by
  rw [Vault.keys, h.privateKey_eq hs, h.publicKey_eq hs]
  rfl

theorem deployment_eq : Vault.deployment s = answer .deployment r.deployment := by
  rw [Vault.deployment, K.read_eq _ hs]
  exact h.deployment.answer_some .deployment

theorem checkpoint_eq : Vault.checkpoint s = r.reread := by
  rw [Vault.checkpoint, Records.reread, K.read_eq _ hs]
  rcases h.checkpoint.answer_eq .checkpoint with ⟨ha, hanswer⟩ | ⟨⟨layout, c⟩, bytes, ha, hbytes,
    -, hanswer⟩
  · rw [hanswer, ha]
    rfl
  · have hencode : checkpointBytes layout c = .ok bytes := checkpointBytes_eq_ok_iff.2 hbytes
    rw [hanswer, ha]
    simp only [answer, bind, Except.bind, hencode]

theorem provides_eq (policy : RepeatPolicy) :
    Vault.provides policy s = answer .provides (r.provides.map Provides.terminated) := by
  have hread := K.read_eq .provides hs
  rcases h.provides.answer_eq .provides with ⟨ha, hanswer⟩ | ⟨p, bytes, ha, hbytes, hne, hanswer⟩
  · rw [Vault.provides, hread, hanswer, ha]
    rfl
  · cases hencode : p.encode with
    | error f =>
      rw [hencode] at hbytes
      cases hbytes
    | ok text =>
      rw [hencode] at hbytes
      cases hbytes
      have hp : p.toList ≠ [] := by
        intro hnil
        have := (Provides.isEmpty_text_iff hencode).2 hnil
        rw [String.isEmpty_iff] at this
        exact hne (this ▸ rfl)
      rw [provides_of_read (hread.trans hanswer), ha, providesOf,
        Provides.decode_encode policy hp hencode]
      rfl

theorem artifactName_eq : Vault.artifactName s
    = .ok ((r.artifactName.map withoutTerminator).getD unknownArtifact) := by
  have hread := K.read_eq .artifactName hs
  rcases h.artifactName.answer_eq .artifactName with ⟨ha, hanswer⟩ | ⟨name, bytes, ha, hbytes,
    -, hanswer⟩
  · rw [Vault.artifactName, hread, hanswer, ha]
    rfl
  · cases hbytes
    rw [artifactName_of_read (hread.trans hanswer), ha]
    rfl

theorem answeredBy : r.AnsweredBy s where
  keys := h.keys_eq hs
  deployment := h.deployment_eq hs
  checkpoint := h.checkpoint_eq hs
  reread := h.reread_eq
  boot := by rw [bootDecision, h.checkpoint_eq hs]
  provides := h.provides_eq hs
  artifactName := h.artifactName_eq hs

end Held

end UpdateVault.Vault
