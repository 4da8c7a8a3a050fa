import Mathlib.Tactic.Ring
import UpdateVault.SortedMap

/-!
# Sorted maps from lists

`get?_ofList` says which entry of a list its map keeps under a key: the last one. For a list
with distinct keys the order of insertion does not matter (`lookup_of_perm`), so the entries of
a map, in any order, are a writing of it (`ofList_of_perm`).
-/

namespace UpdateVault.SortedMap

variable {κ α : Type} [Ord κ] [Std.TransOrd κ] [Std.LawfulEqOrd κ]

/-! ## Looking up -/

omit [Std.TransOrd κ] [Std.LawfulEqOrd κ] in
theorem lookup_append (k : κ) (l₁ l₂ : List (κ × α)) :
    lookup k (l₁ ++ l₂) = (lookup k l₁).or (lookup k l₂) := by
  induction l₁ with
  | nil => rfl
  | cons e rest ih =>
    by_cases h : compare k e.1 = .eq <;> simp [lookup, h, ih]

omit [Std.TransOrd κ] in
theorem mem_of_lookup {k : κ} {v : α} {l : List (κ × α)} (h : lookup k l = some v) :
    (k, v) ∈ l := by
  induction l with
  | nil => cases h
  | cons e rest ih =>
    rw [lookup] at h
    split at h
    · rename_i hk
      have : k = e.1 := Std.LawfulEqCmp.eq_of_compare hk
      cases h
      subst this
      exact List.mem_cons_self
    · exact List.mem_cons_of_mem _ (ih h)

omit [Std.TransOrd κ] in
theorem lookup_eq_none_iff {k : κ} {l : List (κ × α)} :
    lookup k l = none ↔ ∀ e ∈ l, e.1 ≠ k := by
  induction l with
  | nil => simp [lookup]
  | cons e rest ih =>
    by_cases h : compare k e.1 = .eq
    · have hk : k = e.1 := Std.LawfulEqCmp.eq_of_compare h
      simp [lookup, hk]
    · have hk : e.1 ≠ k := fun hk => h (hk ▸ Std.ReflCmp.compare_self)
      simp [lookup, h, hk, ih]

omit [Std.TransOrd κ] in
theorem lookup_eq [BEq κ] [LawfulBEq κ] (k : κ) (l : List (κ × α)) :
    lookup k l = l.lookup k := by
  induction l with
  | nil => rfl
  | cons e rest ih =>
    obtain ⟨key, value⟩ := e
    by_cases h : k = key
    · simp [lookup, h]
    · simp [lookup, List.lookup_cons, h, ih, beq_eq_false_iff_ne.2 h]

/-- The entries of a sorted list may as well be searched in any other order. -/
theorem lookup_of_perm {l l' : List (κ × α)}
    (h : l.Pairwise fun x y => compare x.1 y.1 = .lt) (hperm : l'.Perm l) (k : κ) :
    lookup k l' = lookup k l := by
  cases hl : lookup k l with
  | none =>
    rw [lookup_eq_none_iff] at hl ⊢
    intro e he
    exact hl e (hperm.mem_iff.1 he)
  | some v =>
    cases hl' : lookup k l' with
    | none =>
      rw [lookup_eq_none_iff] at hl'
      exact absurd rfl (hl' _ (hperm.mem_iff.2 (mem_of_lookup hl)))
    | some w =>
      have hw : lookup k l = some w :=
        (lookup_eq_some_iff h).2 (hperm.mem_iff.1 (mem_of_lookup hl'))
      rw [← hl, hw]

omit [Std.TransOrd κ] in
/-- No two entries of a map have one key. -/
theorem pairwise_ne (m : SortedMap κ α) : m.toList.Pairwise fun x y => x.1 ≠ y.1 :=
  m.sorted.imp fun hlt heq => by simp [heq, Std.ReflCmp.compare_self] at hlt

/-! ## Maps of lists -/

/-- An inserted entry hides those that were inserted before it. -/
theorem get?_foldl_insert (l : List (κ × α)) (m : SortedMap κ α) (k : κ) :
    (l.foldl (fun m e => m.insert e.1 e.2) m).get? k = (lookup k l.reverse).or (m.get? k) := by
  induction l generalizing m with
  | nil => rfl
  | cons e rest ih =>
    rw [List.foldl_cons, ih, List.reverse_cons, lookup_append, Option.or_assoc]
    congr 1
    rw [get?, insert, lookup_put]
    by_cases h : compare k e.1 = .eq <;> simp [lookup, h, get?]

/-- The map of a list holds the last entry of each key. -/
theorem get?_ofList (l : List (κ × α)) (k : κ) : (ofList l).get? k = lookup k l.reverse := by
  rw [ofList, get?_foldl_insert]
  exact Option.or_none

/-- The entries of a map, in any order, are a writing of it. -/
theorem ofList_of_perm {m : SortedMap κ α} {l : List (κ × α)} (h : l.Perm m.toList) :
    ofList l = m := by
  ext1 k
  rw [get?_ofList, lookup_of_perm m.sorted ((List.reverse_perm l).trans h)]
  rfl

theorem ofList_toList (m : SortedMap κ α) : ofList m.toList = m := ofList_of_perm (.refl _)

/-- A map of a list has the list's entries in the list's order if that is the order of the keys. -/
theorem toList_ofList_iff {l : List (κ × α)} :
    (ofList l).toList = l ↔ l.Pairwise fun x y => compare x.1 y.1 = .lt := by
  constructor
  · intro h
    rw [← h]
    exact (ofList l).sorted
  · intro h
    exact congrArg toList (ofList_toList ⟨l, h⟩)

/-- A map of a list has no entries but the list's. -/
theorem mem_of_mem_ofList {l : List (κ × α)} {e : κ × α} (h : e ∈ (ofList l).toList) : e ∈ l := by
  have hget := mem_toList_iff.1 h
  rw [get?_ofList] at hget
  exact List.mem_reverse.1 (mem_of_lookup hget)

/-- Putting what is there already changes nothing. -/
theorem insert_eq_self {m : SortedMap κ α} {k : κ} {v : α} (h : m.get? k = some v) :
    m.insert k v = m := by
  ext1 k'
  by_cases hk : k' = k
  · subst hk
    rw [get?_insert_self, h]
  · rw [get?_insert_ne m v hk]

/-- The second of two values of a key is the one that stays. -/
theorem insert_insert (m : SortedMap κ α) (k : κ) (v w : α) :
    (m.insert k v).insert k w = m.insert k w := by
  ext1 k'
  by_cases hk : k' = k
  · subst hk
    rw [get?_insert_self, get?_insert_self]
  · rw [get?_insert_ne _ w hk, get?_insert_ne _ v hk, get?_insert_ne _ w hk]

/-- Taking out what is not there changes nothing. -/
theorem erase_eq_self {m : SortedMap κ α} {k : κ} (h : m.get? k = none) : m.erase k = m := by
  ext1 k'
  by_cases hk : k' = k
  · subst hk
    rw [get?_erase_self, h]
  · rw [get?_erase_ne m hk]

/-! ## Maps that look alike -/

/-- Maps whose values look the same under every key have entries that look the same. -/
theorem map_toList_eq {β : Type} (f : α → β) {m n : SortedMap κ α}
    (h : ∀ k, (m.get? k).map f = (n.get? k).map f) :
    m.toList.map (fun e => (e.1, f e.2)) = n.toList.map (fun e => (e.1, f e.2)) := by
  have hsorted : ∀ m : SortedMap κ α, (m.toList.map fun e => (e.1, f e.2)).Pairwise
      fun x y => compare x.1 y.1 = .lt := by
    intro m
    exact List.pairwise_map.2 m.sorted
  have hmem : ∀ (m : SortedMap κ α) (k : κ) (b : β),
      (k, b) ∈ m.toList.map (fun e => (e.1, f e.2)) ↔ (m.get? k).map f = some b := by
    intro m k b
    rw [List.mem_map, Option.map_eq_some_iff]
    constructor
    · rintro ⟨e, he, heq⟩
      obtain ⟨rfl, rfl⟩ := Prod.mk.inj heq
      exact ⟨e.2, mem_toList_iff.1 he, rfl⟩
    · rintro ⟨v, hv, rfl⟩
      exact ⟨(k, v), mem_toList_iff.2 hv, rfl⟩
  refine eq_of_mem_iff (hsorted m) (hsorted n) ?_
  rintro ⟨k, b⟩
  rw [hmem, hmem, h]

end UpdateVault.SortedMap
