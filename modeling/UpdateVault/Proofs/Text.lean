import Mathlib.Data.List.DropRight
import Mathlib.Data.List.TakeDrop
import Mathlib.Data.List.TakeWhile
import Mathlib.Tactic.Ring
import UpdateVault.Text

/-!
# Pieces and ends of text

`pieces_joinPieces`: joined pieces are found again if none of them holds the separator.
`trimEnd_append_cons`: trimming the end of a text stops at the first character to keep.
-/

namespace UpdateVault.Text

variable {sep c : Char} {p : Char → Bool} {piece text tail : List Char}

/-! ## Pieces -/

theorem pieces_of_free (h : sep ∉ piece) : pieces sep piece = [piece] := by
  induction piece with
  | nil => rfl
  | cons c rest ih =>
    obtain ⟨hc, hrest⟩ := not_or.1 (mt List.mem_cons.2 h)
    rw [pieces, if_neg (Ne.symm hc), ih hrest]

theorem pieces_append (h : sep ∉ piece) :
    pieces sep (piece ++ sep :: text) = piece :: pieces sep text := by
  induction piece with
  | nil => simp [pieces]
  | cons c rest ih =>
    obtain ⟨hc, hrest⟩ := not_or.1 (mt List.mem_cons.2 h)
    rw [List.cons_append, pieces, if_neg (Ne.symm hc), ih hrest]

theorem pieces_joinPieces {ps : List (List Char)} (hne : ps ≠ [])
    (hfree : ∀ piece ∈ ps, sep ∉ piece) : pieces sep (joinPieces sep ps) = ps := by
  induction ps with
  | nil => exact absurd rfl hne
  | cons piece more ih =>
    have hpiece : sep ∉ piece := hfree piece List.mem_cons_self
    cases more with
    | nil => exact pieces_of_free hpiece
    | cons next rest =>
      have hrest := ih (List.cons_ne_nil _ _) fun q hq => hfree q (List.mem_cons_of_mem _ hq)
      rw [joinPieces, pieces_append hpiece, hrest]
      exact List.cons_ne_nil _ _

theorem joinPieces_eq_intercalate (ps : List (List Char)) :
    joinPieces sep ps = [sep].intercalate ps := by
  induction ps with
  | nil => rfl
  | cons piece more ih =>
    cases more with
    | nil => simp [joinPieces]
    | cons next rest => rw [joinPieces, ih, List.intercalate_cons_cons] <;> simp

theorem pieces_eq_splitOn (sep : Char) (text : List Char) : pieces sep text = text.splitOn sep := by
  have hsplit := List.splitOn_intercalate sep (fun _ => mem_pieces_free) (pieces_ne_nil sep text)
  rw [← joinPieces_eq_intercalate, joinPieces_pieces] at hsplit
  exact hsplit.symm

/-- The last piece ends the text. -/
theorem joinPieces_concat (ps : List (List Char)) (last : List Char) :
    joinPieces sep (ps ++ [last]) = ps.flatMap (· ++ [sep]) ++ last := by
  induction ps with
  | nil => rfl
  | cons piece more ih =>
    rw [List.cons_append, joinPieces, ih, List.flatMap_cons]
    · simp
    · simp

/-! ## Ends -/

theorem trimEnd_append_cons (hc : p c = false) :
    trimEnd p (text ++ c :: tail) = text ++ c :: trimEnd p tail := by
  have hstop : (c :: text.reverse).dropWhile p = c :: text.reverse := by
    rw [List.dropWhile_cons, hc]
    rfl
  rw [trimEnd, trimEnd, List.reverse_append, List.reverse_cons, List.append_assoc,
    List.singleton_append, List.dropWhile_append, hstop]
  split
  · rename_i hnil
    rw [List.isEmpty_iff.1 hnil]
    simp
  · simp

/-- What is trimmed off was there. -/
theorem mem_of_mem_trimEnd (h : c ∈ trimEnd p text) : c ∈ text := by
  rw [trimEnd, List.mem_reverse] at h
  exact List.mem_reverse.1 ((List.dropWhile_suffix p).subset h)

/-- Only a text with a NUL at its end loses anything. -/
theorem withoutTerminator_eq_self_iff {s : String} :
    withoutTerminator s = s ↔ s.toList.getLast? ≠ some '\x00' := by
  have hchars : withoutTerminator s = s ↔ s.toList.rdropWhile (· == '\x00') = s.toList := by
    rw [← String.toList_inj, withoutTerminator, String.toList_ofList]
    rfl
  rw [hchars, List.rdropWhile_eq_self_iff]
  constructor
  · intro h hlast
    obtain ⟨hne, hnul⟩ := List.mem_getLast?_eq_getLast hlast
    exact h hne (by simp [← hnul])
  · intro h hne hnul
    refine h ?_
    rw [List.getLast?_eq_some_getLast hne]
    simpa using hnul

/-! ## Pairs -/

/-- What stands before the first separator. -/
theorem span_of_free {before after : List Char} (hfree : sep ∉ before) :
    (before ++ sep :: after).span (· != sep) = (before, sep :: after) := by
  rw [List.span_eq_takeWhile_dropWhile, List.takeWhile_append_of_pos, List.dropWhile_append_of_pos]
  · simp
  · intro a ha
    exact bne_iff_ne.2 fun he => hfree (he ▸ ha)
  · intro a ha
    exact bne_iff_ne.2 fun he => hfree (he ▸ ha)

theorem splitPair_append {key value : List Char} (hne : key ≠ []) (hfree : '=' ∉ key) :
    splitPair (key ++ '=' :: value) = some (String.ofList key, String.ofList value) := by
  rw [splitPair, span_of_free hfree]
  obtain ⟨a, rest, rfl⟩ := List.exists_cons_of_ne_nil hne
  rfl

/-- A text is a pair if something that is not empty stands before its first `=`. -/
theorem splitPair_eq_some_iff {key value : String} : splitPair text = some (key, value) ↔
    text = key.toList ++ '=' :: value.toList ∧ key ≠ "" ∧ '=' ∉ key.toList := by
  constructor
  · intro h
    rw [splitPair, List.span_eq_takeWhile_dropWhile] at h
    have htext : text.takeWhile (· != '=') ++ text.dropWhile (· != '=') = text :=
      List.takeWhile_append_dropWhile
    split at h
    · cases h
    · cases h
    · rename_i before c after hkey heq
      obtain ⟨htake, hdrop⟩ := Prod.mk.inj heq
      rw [htake, hdrop] at htext
      obtain ⟨rfl, rfl⟩ := Prod.mk.inj (Option.some.inj h)
      have hc : c = '=' := by
        have hstop := List.head?_dropWhile_not (· != '=') text
        rw [hdrop] at hstop
        simpa using hstop
      have hfree : '=' ∉ before := by
        intro hmem
        have := List.mem_takeWhile_imp (htake ▸ hmem : '=' ∈ text.takeWhile (· != '='))
        simp at this
      refine ⟨by simp [← htext, hc], ?_, by simpa using hfree⟩
      simpa using hkey
  · rintro ⟨rfl, hne, hfree⟩
    rw [splitPair_append (by simpa using hne) hfree, String.ofList_toList, String.ofList_toList]

end UpdateVault.Text
