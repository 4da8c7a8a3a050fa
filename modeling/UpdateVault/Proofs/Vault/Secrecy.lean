import UpdateVault.Boot
import UpdateVault.Proofs.Vault.Access

/-!
# What a vault shows of the private key

A relation of storages `HidesKey` if no call tells related ones apart but by the length of the
private key. Then all records but the keys read the same (`HidesKey.bootDecision_eq` and the like),
the key pairs are the same but for the bytes that `KeyPair.masked` takes away (`HidesKey.keys_eq`),
and every call that does not store keys goes the same way on both (`HidesKey.call_same`).
-/

namespace UpdateVault

/-! ## Key pairs -/

namespace KeyPair

/-- A key pair without the bytes of its private key. -/
def masked (k : KeyPair) : KeyPair :=
  { k with privateKey := List.replicate k.privateKey.length 0 }

@[simp] theorem length_privateKey_masked (k : KeyPair) :
    k.masked.privateKey.length = k.privateKey.length := List.length_replicate

@[simp] theorem publicKey_masked (k : KeyPair) : k.masked.publicKey = k.publicKey := rfl

theorem lengthMark_masked (k : KeyPair) :
    lengthMark k.masked.privateKey = lengthMark k.privateKey := by
  rw [lengthMark, lengthMark, length_privateKey_masked]

/-- Neither description of a key pair depends on the bytes of its private key. -/
theorem describe_masked (k : KeyPair) :
    k.masked.describe = k.describe ∧ k.masked.describeLines = k.describeLines := by
  unfold describe describeLines
  rw [lengthMark_masked]
  exact ⟨rfl, rfl⟩

end KeyPair

namespace Vault

open Update (Same)

variable {σ : Type} [ItemStorage σ] {R : σ → σ → Prop} {s t : σ}

/-! ## Storages that differ in the private key -/

/-- Related storages answer alike, but for the bytes of the private key, and stay related by all
changes but those of the private key. -/
structure HidesKey (R : σ → σ → Prop) : Prop where
  read_eq : ∀ {s t : σ} (item : Item), R s t → item ≠ .privateKey → read s item = read t item
  length_eq : ∀ {s t : σ}, R s t →
    (read s .privateKey).map List.length = (read t .privateKey).map List.length
  access_same : ∀ {s t : σ} {access : Access}, R s t →
    (∀ data, access ≠ .write .privateKey data) → Same R (access.run s) (access.run t)

namespace HidesKey

section

variable (hides : HidesKey R) (h : R s t)

include hides h

/-! ## Looking up -/

theorem checkpoint_eq : checkpoint s = checkpoint t := by
  rw [checkpoint, checkpoint, hides.read_eq .checkpoint h (by decide)]

theorem bootDecision_eq : bootDecision s = bootDecision t := by
  rw [bootDecision, bootDecision, hides.checkpoint_eq h]

theorem deployment_eq : deployment s = deployment t := hides.read_eq .deployment h (by decide)

theorem provides_eq (policy : RepeatPolicy) : provides policy s = provides policy t := by
  rw [provides, provides, hides.read_eq .provides h (by decide)]

theorem artifactName_eq : artifactName s = artifactName t := by
  rw [artifactName, artifactName, hides.read_eq .artifactName h (by decide)]

/-- **Two key pairs differ in the bytes of the private key only.** -/
theorem keys_eq : (keys s).map KeyPair.masked = (keys t).map KeyPair.masked := by
  have hpublic : read s .publicKey = read t .publicKey := hides.read_eq .publicKey h (by decide)
  rw [keys, keys, hpublic]
  rcases Update.except_map_eq_cases (hides.length_eq h) with
    ⟨e, hs, ht⟩ | ⟨a, b, hs, ht, hlength⟩
  · rw [hs, ht]
  · rw [hs, ht]
    cases read t .publicKey with
    | error e => rfl
    | ok c => simp [bind, Except.bind, pure, Except.pure, Except.map, KeyPair.masked, hlength]

end

/-! ## Changes -/

variable (hides : HidesKey R)

include hides

theorem perform_same {accesses : List Access}
    (hspares : ∀ access ∈ accesses, ∀ data, access ≠ .write .privateKey data) (h : R s t) :
    Same R (perform accesses s) (perform accesses t) := by
  induction accesses generalizing s t with
  | nil => exact .ok h
  | cons access rest ih =>
    refine (hides.access_same h (hspares access List.mem_cons_self)).bind fun _ {_ _} hnext => ?_
    exact ih (fun a ha => hspares a (List.mem_cons_of_mem _ ha)) hnext

theorem deleteKeys_same (h : R s t) : Same R (deleteKeys s) (deleteKeys t) := by
  have hdelete : ∀ {s t} (item : Item), R s t → Same R (delete item s) (delete item t) :=
    fun item h => @access_same _ _ _ hides _ _ (.delete item) h nofun
  have hprivate := hdelete .privateKey h
  unfold deleteKeys
  generalize delete .privateKey s = left at hprivate ⊢
  generalize delete .privateKey t = right at hprivate ⊢
  cases hprivate with
  | ok hnext => exact hdelete .publicKey hnext
  | @error e s' t' hnext =>
    have hpublic := hdelete .publicKey hnext
    dsimp only
    generalize delete .publicKey s' = left at hpublic ⊢
    generalize delete .publicKey t' = right at hpublic ⊢
    cases hpublic with
    | ok hlast => exact .error hlast
    | error hlast => exact .error hlast

/-- **A call that does not store keys goes the same way on both.** -/
theorem call_same {call : Call} (hcall : ∀ k, call ≠ .setKeys k) (h : R s t) :
    Same R (call.run s) (call.run t) := by
  by_cases hdelete : call = .deleteKeys
  · subst hdelete
    exact hides.deleteKeys_same h
  · rw [call.run_eq hdelete, call.run_eq hdelete]
    cases hplan : call.plan with
    | error e => exact .error h
    | ok accesses =>
      have hspares : Item.privateKey ∉ call.items := by
        cases call with
        | setKeys k => exact absurd rfl (hcall k)
        | deleteKeys => exact absurd rfl hdelete
        | _ => simp [Call.items]
      refine hides.perform_same (fun access ha data heq => hspares ?_) h
      subst heq
      exact Call.item_mem_items hplan ha

end HidesKey

end Vault

end UpdateVault
