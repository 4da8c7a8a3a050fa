import UpdateVault.Proofs.Provides.Layout
import UpdateVault.Proofs.Provides.Meaning
import UpdateVault.Proofs.Storage.Selected
import UpdateVault.Storage.Memory

/-!
# Writing back what was read

To a reader of capabilities one carriage return at the end of a line belongs to the line end, and
any other is text; a writer takes none of them. So what was read can be written, and is then read
again as it was, unless a key or a value holds a carriage return (`WrittenBack`), and a vault takes
the capabilities that it gave out unless one of them does (`provides_written_back`).
-/

namespace UpdateVault.Provides

variable {policy : RepeatPolicy} {m : Provides} {text key value : String} {line : List Char}
  {f : Fault}

/-- A key or a value has a carriage return. -/
def HoldsReturn (m : Provides) : Prop :=
  ∃ key value, m.get? key = some value ∧ ('\r' ∈ key.toList ∨ '\r' ∈ value.toList)

/-! ## What is read -/

theorem feed_notMem_of_textLines (h : line ∈ textLines text) : '\n' ∉ line := by
  obtain ⟨raw, hraw, rfl⟩ := List.mem_map.1 h
  rw [← Text.pieces_eq_splitOn] at hraw
  have hfree : '\n' ∉ raw := Text.mem_pieces_free hraw
  rw [withoutReturn]
  split
  · exact fun hmem => hfree (List.dropLast_subset raw hmem)
  · exact hfree

/-- Every entry that is read is on a line of the text. -/
theorem exists_line_of_decode (h : decode policy text = .ok m) (hget : m.get? key = some value) :
    ∃ line ∈ textLines text, PairLine line key value := by
  obtain ⟨before, line, after, hls, hpair, -⟩ := (get?_of_decode h).1 hget
  exact ⟨line, hls ▸ List.mem_append_cons_self, hpair⟩

/-- Of what a writer refuses, an entry that is read has no more than carriage returns. -/
theorem entry_of_decode (h : decode policy text = .ok m) (hget : m.get? key = some value) :
    key ≠ "" ∧ '=' ∉ key.toList ∧ '\n' ∉ key.toList ∧ '\n' ∉ value.toList := by
  obtain ⟨line, hline, rfl, hne, hequals⟩ := exists_line_of_decode h hget
  have hfeed := feed_notMem_of_textLines hline
  rw [List.mem_append, List.mem_cons, not_or, not_or] at hfeed
  exact ⟨hne, hequals, hfeed.1, hfeed.2.2⟩

theorem writable_iff_of_decode (h : decode policy text = .ok m) (hget : m.get? key = some value) :
    Writable (key, value) ↔ '\r' ∉ key.toList ∧ '\r' ∉ value.toList := by
  obtain ⟨hne, hequals, hkey, hvalue⟩ := entry_of_decode h hget
  simp [writable_iff, hne, hequals, hkey, hvalue]

theorem forall_writable_iff_of_decode (h : decode policy text = .ok m) :
    (∀ e ∈ m.toList, Writable e) ↔ ¬ m.HoldsReturn := by
  constructor
  · rintro hm ⟨key, value, hget, hreturn⟩
    obtain ⟨hkey, hvalue⟩ := (writable_iff_of_decode h hget).1
      (hm (key, value) (SortedMap.mem_toList_iff.2 hget))
    exact hreturn.elim hkey hvalue
  · intro hm e he
    have hget : m.get? e.1 = some e.2 := SortedMap.mem_toList_iff.1 he
    refine (writable_iff_of_decode h hget).2 (not_or.1 fun hreturn => ?_)
    exact hm ⟨e.1, e.2, hget, hreturn⟩

/-- A carriage return that is read is one within a line. -/
theorem return_mem_line (h : decode policy text = .ok m) (hm : m.HoldsReturn) :
    ∃ line ∈ textLines text, '\r' ∈ line := by
  obtain ⟨key, value, hget, hreturn⟩ := hm
  obtain ⟨line, hline, rfl, -⟩ := exists_line_of_decode h hget
  refine ⟨_, hline, List.mem_append.2 ?_⟩
  exact hreturn.imp_right fun hvalue => List.mem_cons_of_mem _ hvalue

/-! ## What is written -/

theorem encodeEntry_eq_error (h : encodeEntry key value = .error f) :
    f = .invalidKey key ∧ isWritableKey key = false ∨
      f = .lineBreakInValue key ∧ value.toList.any isLineBreak = true := by
  rw [encodeEntry] at h
  cases hkey : isWritableKey key with
  | false =>
    rw [hkey] at h
    cases h
    exact .inl ⟨rfl, rfl⟩
  | true =>
    rw [hkey] at h
    cases hvalue : value.toList.any isLineBreak with
    | false =>
      rw [hvalue] at h
      cases h
    | true =>
      rw [hvalue] at h
      cases h
      exact .inr ⟨rfl, rfl⟩

/-- A map is refused for one of its entries. -/
theorem encode_eq_error (h : encode m = .error f) :
    ∃ e ∈ m.toList, encodeEntry e.1 e.2 = .error f := by
  rw [encode] at h
  cases hls : m.toList.mapM (fun e => encodeEntry e.1 e.2) with
  | ok ls =>
    rw [hls] at h
    cases h
  | error f' =>
    rw [hls] at h
    cases h
    exact Update.except_mapM_eq_error hls

/-! ## Writing back -/

/-- What a text is read as can be written, but for carriage returns. -/
structure WrittenBack (text : String) (m : Provides) : Prop where
  /-- It can be written unless a key or a value has a carriage return. -/
  written : (∃ text', encode m = .ok text') ↔ ¬ m.HoldsReturn
  /-- What is written is read as what was read, whatever the policy. -/
  reread : ∀ text', encode m = .ok text' → ∀ policy, decode policy text' = .ok m
  /-- What is refused is a key or a value with a carriage return. -/
  refused : ∀ f, encode m = .error f → ∃ key value, m.get? key = some value ∧
    (f = .invalidKey key ∧ '\r' ∈ key.toList ∨ f = .lineBreakInValue key ∧ '\r' ∈ value.toList)
  /-- Carriage returns at the ends of lines do no harm. -/
  within : m.HoldsReturn → ∃ line ∈ textLines text, '\r' ∈ line

theorem writtenBack_of_decode (h : decode policy text = .ok m) : WrittenBack text m where
  written := exists_encode_iff.trans (forall_writable_iff_of_decode h)
  reread text' hencode policy' := by
    obtain ⟨hm, htext⟩ := encode_eq_ok hencode
    exact decode_of_laid (.refl _) hm (htext ▸ laid_joinPieces m.toList)
  refused f herror := by
    obtain ⟨⟨key, value⟩, hmem, hentry⟩ := encode_eq_error herror
    have hget : m.get? key = some value := SortedMap.mem_toList_iff.1 hmem
    obtain ⟨hne, hequals, hkey, hvalue⟩ := entry_of_decode h hget
    refine ⟨key, value, hget, ?_⟩
    rcases encodeEntry_eq_error hentry with ⟨rfl, hrefused⟩ | ⟨rfl, hrefused⟩
    · refine .inl ⟨rfl, ?_⟩
      by_contra hreturn
      rw [isWritableKey_iff.2 ⟨hne, hequals, hkey, hreturn⟩] at hrefused
      cases hrefused
    · refine .inr ⟨rfl, ?_⟩
      by_contra hreturn
      rw [any_isLineBreak_eq_false.2 ⟨hvalue, hreturn⟩] at hrefused
      cases hrefused
  within := return_mem_line h

end UpdateVault.Provides

namespace UpdateVault

open Vault (Access)

variable {σ : Type} [ItemStorage σ] {s : σ} {policy : RepeatPolicy} {m : Provides}

/-- No change of an item fails because of a text. -/
def KnowsNoText (s : σ) : Prop :=
  ∀ (access : Access) (f : CodecFault) (s' : σ), access.run s ≠ .error (.codec f) s'

/-- A deletion fails as the deletion of the storage does. -/
theorem Vault.delete_eq_error {item : Item} {e : StorageError} {s' : σ}
    (h : Vault.delete item s = .error e s') : ItemStorage.delete item.name s = .error e s' := by
  rw [Vault.delete] at h
  split at h
  · cases h
  · rename_i hdelete
    split at h
    · cases h
    · cases h
      exact hdelete

theorem ItemDirectory.knowsNoText (s : ItemDirectory) : KnowsNoText s := by
  intro access f s' h
  cases access with
  | write item data =>
    replace h : write item.name data s = .error (.codec f) s' := h
    rw [write, if_pos (isItemName_name item)] at h
    split at h
    · cases h
    · rw [onDisk] at h
      split at h <;> cases h
  | delete item =>
    replace h : delete item.name s = .error (.codec f) s' := Vault.delete_eq_error h
    rw [delete, if_pos (isItemName_name item)] at h
    split at h <;> cases h

theorem Partition.knowsNoText {φ : Type} [FlashMemory φ] (p : Partition φ) : KnowsNoText p := by
  have hcommit : ∀ items f q, commit items p ≠ .error (.codec f) q := by
    intro items f q h
    rcases commit_cases items p with
      ⟨-, hcommit⟩ | ⟨-, ⟨e, device, hcommit⟩ | ⟨device, hcommit⟩⟩ <;>
      rw [hcommit] at h <;> cases h
  intro access f q h
  cases access with
  | write item data =>
    replace h : write item.name data p = .error (.codec f) q := h
    simp only [write, Call.idOf_eq (Item.ofName?_name item)] at h
    split at h
    · cases h
    · exact hcommit _ _ _ h
  | delete item =>
    replace h : delete item.name p = .error (.codec f) q := Vault.delete_eq_error h
    simp only [delete, Call.idOf_eq (Item.ofName?_name item)] at h
    split at h
    · exact hcommit _ _ _ h
    · cases h

/-- The changes of items in memory fail as they are made to. -/
theorem MemoryStorage.knowsNoText {s : MemoryStorage}
    (hs : ∀ call name f, s.fault? call name ≠ some (.codec f)) : KnowsNoText s := by
  intro access f s' h
  cases access with
  | write item data =>
    replace h : write item.name data s = .error (.codec f) s' := h
    rw [write] at h
    split at h
    · rename_i hfault
      cases h
      exact hs _ _ _ hfault
    · cases h
  | delete item =>
    replace h : delete item.name s = .error (.codec f) s' := Vault.delete_eq_error h
    rw [delete] at h
    split at h
    · rename_i hfault
      cases h
      exact hs _ _ _ hfault
    · split at h <;> cases h

/-- A storage that passes changes on to a part of it fails as the part does. -/
theorem SelectedStorage.knowsNoText (s : SelectedStorage) : KnowsNoText s := by
  intro access f s' h
  cases s with
  | directory items =>
    rw [run_directory] at h
    obtain ⟨t, ht, -⟩ := within_eq_error h
    exact items.knowsNoText access f t ht
  | partition items =>
    rw [run_partition] at h
    obtain ⟨t, ht, -⟩ := within_eq_error h
    exact items.knowsNoText access f t ht
  | absent disk =>
    rw [run_absent] at h
    obtain ⟨t, ht, -⟩ := within_eq_error h
    cases access <;> cases ht

namespace Vault

/-- What a vault gives out was read from a text. -/
theorem decode_of_provides (h : Vault.provides policy s = .ok m) :
    ∃ text, Provides.decode policy text = .ok m := by
  obtain ⟨bytes, -, hbytes⟩ := Update.except_bind_eq_ok_iff.1 h
  split at hbytes
  · cases hbytes
  · rename_i text hdecode
    refine ⟨Text.withoutTerminator text, ?_⟩
    rw [providesOf] at hbytes
    cases hread : Provides.decode policy (Text.withoutTerminator text) with
    | error f =>
      rw [hread] at hbytes
      cases hbytes
    | ok m' =>
      rw [hread] at hbytes
      cases hbytes
      rfl

/-- Capabilities that were looked up can be set, but for a carriage return in a key or a value. -/
def TakesBack (s : σ) : Prop :=
  ∀ policy m, Vault.provides policy s = .ok m →
    ((∃ f s', Vault.setProvides m s = .error (.codec f) s') ↔ m.HoldsReturn)

theorem takesBack_of_knowsNoText (hs : KnowsNoText s) : TakesBack s := by
  intro policy m h
  obtain ⟨text, hdecode⟩ := decode_of_provides h
  have hwritten := (Provides.writtenBack_of_decode hdecode).written
  cases hencode : m.encode with
  | error f =>
    have hreturn : m.HoldsReturn := by
      by_contra hno
      obtain ⟨text', htext'⟩ := hwritten.2 hno
      cases hencode.symm.trans htext'
    exact iff_of_true ⟨_, _, setProvides_of_error hencode s⟩ hreturn
  | ok text' =>
    refine iff_of_false ?_ (hwritten.1 ⟨text', hencode⟩)
    rintro ⟨f, s', herror⟩
    rw [setProvides_of_encode hencode] at herror
    split at herror
    · exact hs (.delete .provides) f s' herror
    · exact hs (.write .provides (Utf8.encode text')) f s' herror

/-- **Capabilities that were read can be written back**, but for those with a carriage return: from
a text to a text, and from a vault to the vault, on every storage whose own calls do not fail
because of a text. -/
theorem provides_written_back :
    (∀ policy text m, Provides.decode policy text = .ok m → Provides.WrittenBack text m) ∧
    (∀ s : ItemDirectory, TakesBack s) ∧
    (∀ {φ : Type} [FlashMemory φ] (p : Partition φ), TakesBack p) ∧
    (∀ s : SelectedStorage, TakesBack s) ∧
    (∀ s : MemoryStorage, (∀ call name f, s.fault? call name ≠ some (.codec f)) → TakesBack s) ∧
    ∀ {σ : Type} [ItemStorage σ] (s : σ), KnowsNoText s → TakesBack s := by
  refine ⟨fun policy text m h => ?_, fun s => ?_, fun p => ?_, fun s => ?_, fun s hs => ?_,
    fun s hs => ?_⟩
  · exact Provides.writtenBack_of_decode h
  · exact takesBack_of_knowsNoText s.knowsNoText
  · exact takesBack_of_knowsNoText p.knowsNoText
  · exact takesBack_of_knowsNoText s.knowsNoText
  · exact takesBack_of_knowsNoText (MemoryStorage.knowsNoText hs)
  · exact takesBack_of_knowsNoText hs

/-- Items in memory of which one is the text of capabilities. -/
def withProvides (text : String) : MemoryStorage :=
  { MemoryStorage.empty with items := .ofList [(Item.provides.name, Utf8.encode text)] }

theorem provides_written_back_lineEnds :
    Provides.WrittenBack "a=1\r\nb=2\r\n" (.ofList [("a", "1"), ("b", "2")]) ∧
      Vault.provides .reject (withProvides "a=1\r\nb=2\r\n")
        = .ok (.ofList [("a", "1"), ("b", "2")]) ∧
      ¬ ∃ f s', Vault.setProvides (.ofList [("a", "1"), ("b", "2")])
        (withProvides "a=1\r\nb=2\r\n") = .error (.codec f) s' := by
  obtain ⟨htext, -, -, -, hmemory, -⟩ := provides_written_back
  have hread : Vault.provides .reject (withProvides "a=1\r\nb=2\r\n")
      = .ok (.ofList [("a", "1"), ("b", "2")]) := by decide
  have hback : Provides.WrittenBack "a=1\r\nb=2\r\n" (.ofList [("a", "1"), ("b", "2")]) :=
    htext .reject _ _ (by decide)
  have hencode : Provides.encode (.ofList [("a", "1"), ("b", "2")]) = .ok "a=1\nb=2" := by decide
  have hnone := hback.written.1 ⟨_, hencode⟩
  have htakes : TakesBack (withProvides "a=1\r\nb=2\r\n") := hmemory _ fun _ _ _ => nofun
  exact ⟨hback, hread, fun herror => hnone ((htakes _ _ hread).1 herror)⟩

/-- A value with a carriage return within a line is read, and is refused when it is written. -/
theorem read_not_written :
    (∀ policy, Provides.decode policy "a=1\r2" = .ok (.ofList [("a", "1\r2")])) ∧
      Provides.encode (.ofList [("a", "1\r2")]) = .error (.lineBreakInValue "a") ∧
      (∀ policy, Vault.provides policy (withProvides "a=1\r2") = .ok (.ofList [("a", "1\r2")])) ∧
      Vault.setProvides (.ofList [("a", "1\r2")]) (withProvides "a=1\r2")
        = .error (.codec (.provides (.lineBreakInValue "a"))) (withProvides "a=1\r2") := by
  refine ⟨?_, by decide, ?_, setProvides_of_error (by decide) _⟩
  · intro policy
    cases policy <;> decide
  · intro policy
    cases policy <;> decide

end Vault

end UpdateVault
