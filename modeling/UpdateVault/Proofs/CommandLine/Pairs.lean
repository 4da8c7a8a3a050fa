import Mathlib.Data.List.Sort
import UpdateVault.Proofs.CommandLine.Step
import UpdateVault.Proofs.Provides.Layout
import UpdateVault.Proofs.Provides.Meaning
import UpdateVault.Proofs.Utf8

/-!
# Pairs on a command line

Arguments `key=value` are collected as the lines of a text are, where the last value of a key counts
(`collectPairs_ok`). What they mean is the list of their keys with the last values, in the order of
the bytes of the keys (`Means`). It can be written unless the arguments are refused: because one of
them is no pair, or because of a line break in what they mean (`exists_encode_iff_not_refused`).
-/

namespace UpdateVault

open Provides (KeyLine PairLine LastValue)

namespace Provides

/-- A line has a pair if something stands before its first `=`. -/
theorem exists_keyLine_iff {line : List Char} :
    (∃ key, KeyLine line key) ↔ '=' ∈ line ∧ line.head? ≠ some '=' := by
  constructor
  · rintro ⟨key, value, rfl, hne, hfree⟩
    obtain ⟨c, rest, hkey⟩ := List.exists_cons_of_ne_nil (mt String.toList_eq_nil_iff.1 hne)
    rw [hkey, List.mem_cons, not_or] at hfree
    rw [hkey]
    exact ⟨by simp, by simpa using Ne.symm hfree.1⟩
  · rintro ⟨hmem, hhead⟩
    obtain ⟨before, after, rfl, hfree⟩ := List.eq_append_cons_of_mem hmem
    refine ⟨String.ofList before, String.ofList after, ?_, ?_, ?_⟩
    · rw [String.toList_ofList, String.toList_ofList]
    · cases before with
      | nil => exact absurd rfl hhead
      | cons c rest => simp
    · rwa [String.toList_ofList]

end Provides

namespace CommandLine

variable {args rest : List String} {a key value : String} {m m' : Provides} {desk : Desk}
  {es es' : List (String × String)} {n : Nat}

/-! ## Collecting -/

/-- The arguments as lines. -/
def linesOf (args : List String) : List (List Char) := args.map String.toList

theorem collectPairs_pair (h : PairLine a.toList key value) (rest : List String) (m : Provides)
    (desk : Desk) : ∃ warnings, collectPairs (a :: rest) m desk
      = collectPairs rest (m.insert key value) { desk with warnings } := by
  rw [collectPairs, Text.splitPair_eq_some_iff.2 h]
  cases hknown : m.contains key with
  | true =>
    simp only [hknown, if_true]
    exact ⟨_, rfl⟩
  | false =>
    simp only [hknown, Bool.false_eq_true, if_false]
    exact ⟨_, rfl⟩

theorem collectPairs_other (h : ∀ key, ¬ KeyLine a.toList key) :
    collectPairs (a :: rest) m desk = .error (.notAPair a) desk := by
  rw [collectPairs]
  cases hsplit : Text.splitPair a.toList with
  | none => rfl
  | some e => exact absurd ⟨e.2, Text.splitPair_eq_some_iff.1 hsplit⟩ (h e.1)

/-- **Pairs are collected as lines are**, where the last value of a key counts. -/
theorem collectPairs_ok (hpairs : ∀ a ∈ args, ∃ key, KeyLine a.toList key)
    (hcollect : Provides.collect .lastWins n m ((linesOf args).map .of) = .ok m') (desk : Desk) :
    ∃ warnings, collectPairs args m desk = .ok m' { desk with warnings } := by
  induction args generalizing n m desk with
  | nil =>
    cases hcollect
    exact ⟨desk.warnings, rfl⟩
  | cons a rest ih =>
    obtain ⟨⟨key, value, hpair⟩, hrest⟩ := List.forall_mem_cons.1 hpairs
    rw [linesOf, List.map_cons, List.map_cons, Provides.collect_pairLine hpair,
      if_neg (by simp)] at hcollect
    obtain ⟨warnings, hstep⟩ := collectPairs_pair hpair rest m desk
    obtain ⟨warnings', hcollected⟩ := ih hrest hcollect { desk with warnings }
    exact ⟨warnings', hstep.trans hcollected⟩

/-- An argument that is no pair is refused. -/
theorem collectPairs_error (hother : ∃ a ∈ args, ∀ key, ¬ KeyLine a.toList key) (m : Provides)
    (desk : Desk) : ∃ text warnings,
      collectPairs args m desk = .error (.notAPair text) { desk with warnings } := by
  induction args generalizing m desk with
  | nil => simp at hother
  | cons a rest ih =>
    by_cases hkey : ∃ key, KeyLine a.toList key
    · obtain ⟨key, value, hpair⟩ := hkey
      have hrest : ∃ a ∈ rest, ∀ key, ¬ KeyLine a.toList key := by
        obtain ⟨b, hb, hno⟩ := hother
        rcases List.mem_cons.1 hb with rfl | hb
        · exact absurd ⟨value, hpair⟩ (hno key)
        · exact ⟨b, hb, hno⟩
      obtain ⟨warnings, hstep⟩ := collectPairs_pair hpair rest m desk
      obtain ⟨text, warnings', hcollected⟩ := ih hrest (m.insert key value) { desk with warnings }
      exact ⟨text, warnings', hstep.trans hcollected⟩
    · exact ⟨a, desk.warnings, collectPairs_other (not_exists.1 hkey)⟩

/-! ## Meaning -/

/-- Arguments that are not to be stored: one has no `=`, or nothing before its first `=`, or there
is a line break in a key or in the last value of one. -/
def Refused (args : List String) : Prop :=
  (∃ a ∈ args, '=' ∉ a.toList ∨ a.toList.head? = some '=') ∨
    ∃ key value c, LastValue (linesOf args) key value ∧ (c = '\n' ∨ c = '\r') ∧
      (c ∈ key.toList ∨ c ∈ value.toList)

/-- The keys of arguments with their last values, in the order of the bytes of the keys. -/
structure Means (args : List String) (es : List (String × String)) : Prop where
  sorted : es.Pairwise fun x y => Utf8.encode x.1 < Utf8.encode y.1
  mem_iff : ∀ key value, (key, value) ∈ es ↔ LastValue (linesOf args) key value

theorem means_of_collect
    (h : Provides.collect .lastWins n .empty ((linesOf args).map .of) = .ok m) :
    Means args m.toList := by
  refine ⟨m.sorted.imp Utf8.encode_lt_of_compare, fun key value => ?_⟩
  obtain ⟨m', hm', hget⟩ := Provides.collect_lastWins (linesOf args) n .empty
  cases h.symm.trans hm'
  rw [SortedMap.mem_toList_iff, hget]
  simp

theorem exists_collect (args : List String) :
    ∃ m, Provides.collect .lastWins 1 .empty ((linesOf args).map .of) = .ok m := by
  obtain ⟨m, hm, -⟩ := Provides.collect_lastWins (linesOf args) 1 .empty
  exact ⟨m, hm⟩

/-- Arguments have one meaning. -/
theorem Means.unique (h : Means args es) (h' : Means args es') : es = es' := by
  have hnodup : ∀ {es : List (String × String)},
      es.Pairwise (fun x y => Utf8.encode x.1 < Utf8.encode y.1) → es.Nodup := by
    intro es hsorted
    refine hsorted.imp fun hlt heq => ?_
    rw [heq] at hlt
    exact List.lt_irrefl _ hlt
  have hperm : es.Perm es' := by
    refine (List.perm_ext_iff_of_nodup (hnodup h.sorted) (hnodup h'.sorted)).2 fun e => ?_
    exact (h.mem_iff e.1 e.2).trans (h'.mem_iff e.1 e.2).symm
  refine hperm.eq_of_pairwise (fun x y _ _ hlt hgt => ?_) h.sorted h'.sorted
  exact absurd hgt (List.lt_asymm hlt)

theorem pairs_of_not_refused (h : ¬ Refused args) : ∀ a ∈ args, ∃ key, KeyLine a.toList key := by
  intro a ha
  rw [Provides.exists_keyLine_iff]
  by_contra hno
  exact h (.inl ⟨a, ha, by tauto⟩)

/-- **Pairs mean something that can be written unless they are refused.** -/
theorem exists_encode_iff_not_refused (hpairs : ∀ a ∈ args, ∃ key, KeyLine a.toList key)
    (hmeans : Means args m.toList) : (∃ text, m.encode = .ok text) ↔ ¬ Refused args := by
  have hfirst : ¬ ∃ a ∈ args, '=' ∉ a.toList ∨ a.toList.head? = some '=' := by
    rintro ⟨a, ha, hother⟩
    have := Provides.exists_keyLine_iff.1 (hpairs a ha)
    tauto
  rw [Provides.exists_encode_iff, Refused, or_iff_right hfirst]
  constructor
  · rintro hwritable ⟨key, value, c, hlast, hbreak, hmem⟩
    have := Provides.writable_iff.1 (hwritable (key, value) ((hmeans.mem_iff key value).2 hlast))
    rcases hbreak with rfl | rfl <;> tauto
  · rintro hplain ⟨key, value⟩ he
    have hlast := (hmeans.mem_iff key value).1 he
    have ⟨_, _, _, _, ⟨_, hne, hfree⟩, _⟩ := hlast
    have hbreak {c : Char} (hc : c = '\n' ∨ c = '\r') : c ∉ key.toList ∧ c ∉ value.toList := by
      rw [← not_or]
      exact fun hmem => hplain ⟨key, value, c, hlast, hc, hmem⟩
    obtain ⟨hkeyFeed, hvalueFeed⟩ := hbreak (.inl rfl)
    obtain ⟨hkeyReturn, hvalueReturn⟩ := hbreak (.inr rfl)
    exact Provides.writable_iff.2 ⟨⟨hne, hfree, hkeyFeed, hkeyReturn⟩, hvalueFeed, hvalueReturn⟩

/-- What is on the arguments is all that a value holds. -/
theorem Means.mem_of_mem_value (h : Means args es) (he : (key, value) ∈ es) {c : Char}
    (hc : c ∈ value.toList) : ∃ a ∈ args, c ∈ a.toList := by
  obtain ⟨before, line, after, hlines, ⟨hline, -⟩, -⟩ := (h.mem_iff key value).1 he
  have hmem : line ∈ linesOf args := by
    rw [hlines]
    exact List.mem_append_right _ List.mem_cons_self
  obtain ⟨a, ha, rfl⟩ := List.mem_map.1 hmem
  refine ⟨a, ha, ?_⟩
  rw [hline]
  exact List.mem_append_right _ (List.mem_cons_of_mem _ hc)

/-- Some key is on the arguments. -/
theorem Means.ne_nil (h : Means args es) (hne : args ≠ [])
    (hpairs : ∀ a ∈ args, ∃ key, KeyLine a.toList key) : es ≠ [] := by
  obtain ⟨a, rest, rfl⟩ := List.exists_cons_of_ne_nil hne
  obtain ⟨key, hkey⟩ := hpairs a List.mem_cons_self
  have hline : ∃ line ∈ linesOf (a :: rest), KeyLine line key :=
    ⟨a.toList, List.mem_cons_self, hkey⟩
  obtain ⟨value, hlast⟩ := Provides.exists_lastValue hline
  exact List.ne_nil_of_mem ((h.mem_iff key value).2 hlast)

end CommandLine

end UpdateVault
