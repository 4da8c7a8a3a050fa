/-!
Finite maps kept as lists sorted by key.

The list of entries is the map: two maps with the same answers are equal
(`SortedMap.ext`), so everything that is written out in key order has one form.
`get?_insert` and `get?_erase` say what the two changes do to the answers.
-/

namespace UpdateVault

/-- A finite map, as the list of its entries in strictly increasing key order. -/
structure SortedMap (κ : Type) (α : Type) [Ord κ] where
  toList : List (κ × α)
  sorted : toList.Pairwise fun x y => compare x.1 y.1 = .lt

namespace SortedMap

variable {κ α : Type} [Ord κ]

instance [DecidableEq κ] [DecidableEq α] : DecidableEq (SortedMap κ α) := fun m n =>
  decidable_of_iff (m.toList = n.toList) (by cases m; cases n; simp)

/-! ## Operations on sorted lists -/

def lookup (k : κ) : List (κ × α) → Option α
  | [] => none
  | e :: rest => if compare k e.1 = .eq then some e.2 else lookup k rest

/-- Puts an entry in its place, over one with the same key. -/
def put (k : κ) (v : α) : List (κ × α) → List (κ × α)
  | [] => [(k, v)]
  | e :: rest =>
    match compare k e.1 with
    | .lt => (k, v) :: e :: rest
    | .eq => (k, v) :: rest
    | .gt => e :: put k v rest

/-- Takes the entry of a key out. -/
def remove (k : κ) (l : List (κ × α)) : List (κ × α) :=
  l.filter fun e => compare k e.1 != .eq

theorem mem_put {k : κ} {v : α} {e : κ × α} {l : List (κ × α)} (h : e ∈ put k v l) :
    e = (k, v) ∨ e ∈ l := by
  induction l with
  | nil => simpa [put] using h
  | cons x rest ih => rw [put] at h; split at h <;> grind

/-! ## The map -/

def empty : SortedMap κ α := ⟨[], .nil⟩

instance : EmptyCollection (SortedMap κ α) := ⟨empty⟩

instance : Inhabited (SortedMap κ α) := ⟨empty⟩

def get? (m : SortedMap κ α) (k : κ) : Option α := lookup k m.toList

def contains (m : SortedMap κ α) (k : κ) : Bool := (m.get? k).isSome

def size (m : SortedMap κ α) : Nat := m.toList.length

def isEmpty (m : SortedMap κ α) : Bool := m.toList.isEmpty

/-- The map with only the entries of a kind. -/
def filter (p : κ → α → Bool) (m : SortedMap κ α) : SortedMap κ α :=
  ⟨m.toList.filter fun e => p e.1 e.2, m.sorted.filter _⟩

@[simp] theorem get?_empty (k : κ) : (empty : SortedMap κ α).get? k = none := rfl

section Lawful

variable [Std.TransOrd κ] [Std.LawfulEqOrd κ]

theorem sorted_put (k : κ) (v : α) {l : List (κ × α)}
    (h : l.Pairwise fun x y => compare x.1 y.1 = .lt) :
    (put k v l).Pairwise fun x y => compare x.1 y.1 = .lt := by
  induction l with
  | nil => simp [put]
  | cons x rest ih =>
    obtain ⟨hx, hrest⟩ := List.pairwise_cons.1 h
    rw [put]
    split
    · rename_i hlt
      refine List.pairwise_cons.2 ⟨fun y hy => ?_, h⟩
      rcases List.mem_cons.1 hy with rfl | hy
      · exact hlt
      · exact Std.TransCmp.lt_trans hlt (hx y hy)
    · rename_i heq
      have : k = x.1 := Std.LawfulEqCmp.eq_of_compare heq
      exact List.pairwise_cons.2 ⟨fun y hy => this ▸ hx y hy, hrest⟩
    · rename_i hgt
      refine List.pairwise_cons.2 ⟨fun y hy => ?_, ih hrest⟩
      rcases mem_put hy with rfl | hy
      · exact Std.OrientedCmp.lt_of_gt hgt
      · exact hx y hy

/-! ## Changes -/

/-- The map with a key set to a value, whatever it was before. -/
def insert (m : SortedMap κ α) (k : κ) (v : α) : SortedMap κ α :=
  ⟨put k v m.toList, sorted_put k v m.sorted⟩

def erase (m : SortedMap κ α) (k : κ) : SortedMap κ α :=
  ⟨remove k m.toList, m.sorted.filter _⟩

/-- The map of a list of entries, of which a later one replaces an earlier one. -/
def ofList (l : List (κ × α)) : SortedMap κ α :=
  l.foldl (fun m e => m.insert e.1 e.2) empty

/-! ## Laws -/

omit [Std.TransOrd κ] in
theorem lookup_put [Std.OrientedOrd κ] (k k' : κ) (v : α) (l : List (κ × α)) :
    lookup k' (put k v l) = if compare k' k = .eq then some v else lookup k' l := by
  induction l with
  | nil => simp [put, lookup]
  | cons x rest ih =>
    rw [put]
    split
    · simp [lookup]
    · rename_i heq
      have hk : k = x.1 := Std.LawfulEqCmp.eq_of_compare heq
      subst hk
      by_cases h : compare k' x.1 = .eq <;> simp [lookup, h]
    · rename_i hgt
      by_cases h : compare k' x.1 = .eq
      · have hk : k' = x.1 := Std.LawfulEqCmp.eq_of_compare h
        subst hk
        have : compare x.1 k ≠ .eq := fun e => by
          have := Std.LawfulEqCmp.eq_of_compare e
          subst this
          simp [Std.ReflCmp.compare_self] at hgt
        simp [lookup, this]
      · simp [lookup, h, ih]

theorem get?_insert [DecidableEq κ] (m : SortedMap κ α) (k k' : κ) (v : α) :
    (m.insert k v).get? k' = if k' = k then some v else m.get? k' := by
  rw [get?, insert, lookup_put]
  simp only [Std.LawfulEqCmp.compare_eq_iff_eq, get?]

@[simp] theorem get?_insert_self (m : SortedMap κ α) (k : κ) (v : α) :
    (m.insert k v).get? k = some v := by
  simp [get?, insert, lookup_put, Std.ReflCmp.compare_self]

theorem get?_insert_ne (m : SortedMap κ α) {k k' : κ} (v : α) (h : k' ≠ k) :
    (m.insert k v).get? k' = m.get? k' := by
  simp [get?, insert, lookup_put, Std.LawfulEqCmp.compare_eq_iff_eq, h]

omit [Std.TransOrd κ] in
theorem lookup_remove [Std.OrientedOrd κ] (k k' : κ) (l : List (κ × α)) :
    lookup k' (remove k l) = if compare k' k = .eq then none else lookup k' l := by
  induction l with
  | nil => simp [remove, lookup]
  | cons x rest ih =>
    rw [remove] at ih
    by_cases hx : compare k x.1 = .eq
    · have hk : k = x.1 := Std.LawfulEqCmp.eq_of_compare hx
      rw [remove, List.filter_cons_of_neg (by simp [hx]), ih]
      by_cases h : compare k' k = .eq
      · simp [h]
      · have : compare k' x.1 ≠ .eq := hk ▸ h
        simp [lookup, h, this]
    · rw [remove, List.filter_cons_of_pos (by simp [hx])]
      by_cases h : compare k' x.1 = .eq
      · have hk : k' = x.1 := Std.LawfulEqCmp.eq_of_compare h
        have : compare k' k ≠ .eq := fun e => hx (by
          rw [← Std.LawfulEqCmp.eq_of_compare e]; exact h)
        simp [lookup, h, this]
      · simp [lookup, h, ih]

theorem get?_erase [DecidableEq κ] (m : SortedMap κ α) (k k' : κ) :
    (m.erase k).get? k' = if k' = k then none else m.get? k' := by
  rw [get?, erase, lookup_remove]
  simp only [Std.LawfulEqCmp.compare_eq_iff_eq, get?]

@[simp] theorem get?_erase_self (m : SortedMap κ α) (k : κ) : (m.erase k).get? k = none := by
  simp [get?, erase, lookup_remove, Std.ReflCmp.compare_self]

theorem get?_erase_ne (m : SortedMap κ α) {k k' : κ} (h : k' ≠ k) :
    (m.erase k).get? k' = m.get? k' := by
  rw [get?, erase, lookup_remove]
  simp [Std.LawfulEqCmp.compare_eq_iff_eq, h, get?]

omit [Std.TransOrd κ] in
/-- An entry of a sorted list is what looking up its key finds. -/
theorem lookup_eq_some_iff [Std.OrientedOrd κ] {k : κ} {v : α} {l : List (κ × α)}
    (h : l.Pairwise fun x y => compare x.1 y.1 = .lt) :
    lookup k l = some v ↔ (k, v) ∈ l := by
  induction l with
  | nil => simp [lookup]
  | cons x rest ih =>
    obtain ⟨hx, hrest⟩ := List.pairwise_cons.1 h
    by_cases hk : compare k x.1 = .eq
    · have hkx : k = x.1 := Std.LawfulEqCmp.eq_of_compare hk
      subst hkx
      simp only [lookup, Std.ReflCmp.compare_self, if_true, Option.some.injEq, List.mem_cons]
      constructor
      · rintro rfl
        exact .inl rfl
      · rintro (e | m)
        · rw [← e]
        · have := hx _ m
          simp [Std.ReflCmp.compare_self] at this
    · simp only [lookup, hk, if_false, ih hrest, List.mem_cons]
      constructor
      · exact .inr
      · rintro (e | m)
        · rw [← e] at hk
          simp [Std.ReflCmp.compare_self] at hk
        · exact m

theorem mem_toList_iff {m : SortedMap κ α} {k : κ} {v : α} :
    (k, v) ∈ m.toList ↔ m.get? k = some v :=
  (lookup_eq_some_iff m.sorted).symm

/-- Sorted lists with the same members are the same list. -/
theorem eq_of_mem_iff {l₁ l₂ : List (κ × α)}
    (h₁ : l₁.Pairwise fun x y => compare x.1 y.1 = .lt)
    (h₂ : l₂.Pairwise fun x y => compare x.1 y.1 = .lt)
    (h : ∀ e, e ∈ l₁ ↔ e ∈ l₂) : l₁ = l₂ := by
  induction l₁ generalizing l₂ with
  | nil => exact (List.eq_nil_iff_forall_not_mem.2 fun e he => by simpa using (h e).2 he).symm
  | cons x rest₁ ih =>
    cases l₂ with
    | nil => simpa using (h x).1 (by simp)
    | cons y rest₂ =>
      obtain ⟨hx, hrest₁⟩ := List.pairwise_cons.1 h₁
      obtain ⟨hy, hrest₂⟩ := List.pairwise_cons.1 h₂
      have hxy : x = y := by
        rcases List.mem_cons.1 ((h x).1 (by simp)) with e | mx
        · exact e
        · rcases List.mem_cons.1 ((h y).2 (by simp)) with e | my
          · exact e.symm
          · have := Std.TransCmp.lt_trans (hx y my) (hy x mx)
            simp [Std.ReflCmp.compare_self] at this
      subst hxy
      congr 1
      refine ih hrest₁ hrest₂ fun e => ?_
      have := h e
      simp only [List.mem_cons] at this
      constructor
      · intro m
        rcases this.1 (.inr m) with rfl | m'
        · have := hx _ m
          simp [Std.ReflCmp.compare_self] at this
        · exact m'
      · intro m
        rcases this.2 (.inr m) with rfl | m'
        · have := hy _ m
          simp [Std.ReflCmp.compare_self] at this
        · exact m'

omit [Std.TransOrd κ] in
theorem get?_filter [Std.OrientedOrd κ] (p : κ → α → Bool) (m : SortedMap κ α) (k : κ) :
    (m.filter p).get? k = (m.get? k).filter (p k) := by
  refine Option.ext fun v => ?_
  rw [get?, lookup_eq_some_iff (m.filter p).sorted, filter, List.mem_filter,
    Option.filter_eq_some_iff, get?, lookup_eq_some_iff m.sorted]

@[ext] theorem ext {m n : SortedMap κ α} (h : ∀ k, m.get? k = n.get? k) : m = n := by
  have : m.toList = n.toList := eq_of_mem_iff m.sorted n.sorted fun e => by
    rw [show e = (e.1, e.2) from rfl, mem_toList_iff, mem_toList_iff, h]
  cases m
  cases n
  simpa using this

end Lawful

end SortedMap

end UpdateVault
