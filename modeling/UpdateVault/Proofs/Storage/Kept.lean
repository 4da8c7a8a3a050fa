import Mathlib.Logic.Function.Basic
import UpdateVault.Proofs.Update
import UpdateVault.Vault

/-!
# Storage that keeps its items

`KeptItems` says what a vault relies on: a storage holds each item apart from the others, also
when a call fails and when the storage is opened anew. A storage that does what another one does
keeps its items like that one (`KeptItems.along`).
-/

namespace UpdateVault

/-- What a reader is told of stored data; empty data counts as absent. -/
def Item.answer (item : Item) : Option Bytes → Except StorageError Bytes
  | some (b :: rest) => .ok (b :: rest)
  | _ => .error (.notFound item.name)

/-- How a deletion ends, given what there was to delete; empty data is something to delete. -/
def Item.deletion {σ : Type} (item : Item) (stored? : Option Bytes) (s : σ) :
    EStateM.Result StorageError σ Unit :=
  if stored?.isSome then .ok () s else .error (.notFound item.name) s

/-- A storage that keeps its items. `stored?` is what it holds of each of them. -/
structure KeptItems (σ : Type) [ItemStorage σ] (reopen : σ → Except StorageError σ) where
  Valid : σ → Prop
  stored? : σ → Item → Option Bytes
  read_eq : ∀ {s : σ} (item : Item), Valid s → Vault.read s item = item.answer (stored? s item)
  write_cases : ∀ {s : σ} (item : Item) (data : Bytes), Valid s →
    (∃ s', Vault.write item data s = .ok () s' ∧ Valid s' ∧
      stored? s' = Function.update (stored? s) item (some data)) ∨
    ∃ e s', Vault.write item data s = .error e s' ∧ Valid s' ∧ stored? s' = stored? s
  delete_eq : ∀ {s : σ} (item : Item), Valid s →
    ∃ s', Vault.delete item s = .ok () s' ∧ Valid s' ∧
      stored? s' = Function.update (stored? s) item none
  reopen_eq : ∀ {s : σ}, Valid s → ∃ s', reopen s = .ok s' ∧ Valid s' ∧ stored? s' = stored? s

/-- A deletion that goes through, or finds nothing to delete, leaves the item absent. -/
theorem Vault.delete_of_deletion {σ : Type} [ItemStorage σ] {item : Item} {stored? : Option Bytes}
    {s s' : σ} (h : ItemStorage.delete item.name s = item.deletion stored? s') :
    Vault.delete item s = .ok () s' := by
  rw [Vault.delete, h]
  cases stored? <;> rfl

namespace KeptItems

open Update (Same)

variable {σ τ : Type} [ItemStorage σ] [ItemStorage τ] {reopen : σ → Except StorageError σ}
  {reopen' : τ → Except StorageError τ} {R : τ → σ → Prop} {item : Item}

section

variable (K : KeptItems σ reopen) {s s' : σ} {data : Bytes}

theorem stored?_of_write (hs : K.Valid s) (h : Vault.write item data s = .ok () s') :
    K.stored? s' = Function.update (K.stored? s) item (some data) := by
  rcases K.write_cases item data hs with ⟨t, hok, -, hstored⟩ | ⟨e, t, herror, -⟩
  · cases hok.symm.trans h
    exact hstored
  · cases herror.symm.trans h

theorem stored?_of_write_error {e : StorageError} (hs : K.Valid s)
    (h : Vault.write item data s = .error e s') : K.stored? s' = K.stored? s := by
  rcases K.write_cases item data hs with ⟨t, hok, -⟩ | ⟨e, t, herror, -, hstored⟩
  · cases hok.symm.trans h
  · cases herror.symm.trans h
    exact hstored

end

theorem delete_same {t : τ} {s : σ}
    (h : Same R (ItemStorage.delete item.name t) (ItemStorage.delete item.name s)) :
    Same R (Vault.delete item t) (Vault.delete item s) := by
  unfold Vault.delete
  generalize ItemStorage.delete item.name t = left at h ⊢
  generalize ItemStorage.delete item.name s = right at h ⊢
  cases h with
  | ok hst => exact .ok hst
  | @error e _ _ hst =>
    dsimp only
    cases e.isAbsence
    · exact .error hst
    · exact .ok hst

/-- A storage that answers and changes like one that keeps its items keeps its items. -/
def along (K : KeptItems σ reopen) (stored? : τ → Item → Option Bytes)
    (hstored : ∀ {t s}, R t s → stored? t = K.stored? s)
    (hread : ∀ {t s} (name), R t s → ItemStorage.read t name = ItemStorage.read s name)
    (hwrite : ∀ {t s} (name data), R t s →
      Same R (ItemStorage.write name data t) (ItemStorage.write name data s))
    (hdelete : ∀ {t s} (name), R t s →
      Same R (ItemStorage.delete name t) (ItemStorage.delete name s))
    (hreopen : ∀ {t s s'}, R t s → reopen s = .ok s' → ∃ t', reopen' t = .ok t' ∧ R t' s') :
    KeptItems τ reopen' where
  Valid t := ∃ s, K.Valid s ∧ R t s
  stored? := stored?
  read_eq := by
    rintro t item ⟨s, hs, hts⟩
    rw [hstored hts, ← K.read_eq item hs]
    exact hread item.name hts
  write_cases := by
    rintro t item data ⟨s, hs, hts⟩
    have hsame : Same R (Vault.write item data t) (Vault.write item data s) :=
      hwrite item.name data hts
    rw [hstored hts]
    rcases K.write_cases item data hs with ⟨s', hs', hvalid, hupdate⟩ | ⟨e, s', hs', hvalid, hkept⟩
    · rw [hs'] at hsame
      generalize Vault.write item data t = result at hsame ⊢
      cases hsame with
      | @ok _ t' _ hts' =>
        exact .inl ⟨t', rfl, ⟨s', hvalid, hts'⟩, (hstored hts').trans hupdate⟩
    · rw [hs'] at hsame
      generalize Vault.write item data t = result at hsame ⊢
      cases hsame with
      | @error _ t' _ hts' =>
        exact .inr ⟨e, t', rfl, ⟨s', hvalid, hts'⟩, (hstored hts').trans hkept⟩
  delete_eq := by
    rintro t item ⟨s, hs, hts⟩
    have hsame := delete_same (hdelete item.name hts)
    rw [hstored hts]
    obtain ⟨s', hs', hvalid, hupdate⟩ := K.delete_eq item hs
    rw [hs'] at hsame
    generalize Vault.delete item t = result at hsame ⊢
    cases hsame with
    | @ok _ t' _ hts' => exact ⟨t', rfl, ⟨s', hvalid, hts'⟩, (hstored hts').trans hupdate⟩
  reopen_eq := by
    rintro t ⟨s, hs, hts⟩
    obtain ⟨s', hs', hvalid, hkept⟩ := K.reopen_eq hs
    obtain ⟨t', ht', hts'⟩ := hreopen hts hs'
    exact ⟨t', ht', ⟨s', hvalid, hts'⟩, (hstored hts').trans (hkept.trans (hstored hts).symm)⟩

end KeptItems

end UpdateVault
