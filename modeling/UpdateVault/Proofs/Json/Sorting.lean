import UpdateVault.Json.Basic
import UpdateVault.Proofs.SortedMap

/-!
# Members in the order of their keys

An object with its members in the order of their keys has, under each key, the last member of that
key (`lookup_sorted`), and stays as it is when it is put in order again (`sortKeys_sorted`,
`sortKeys_ofMap`).
-/

namespace UpdateVault.Json.Value

variable {members : List (String × Value)}

/-- Members whose values are in order stay as they are. -/
theorem sortMembers_of_fixed (h : ∀ e ∈ members, e.2.sortKeys = e.2) :
    sortMembers members = members := by
  induction members with
  | nil => rfl
  | cons e rest ih =>
    rw [sortMembers, h e List.mem_cons_self, ih fun x hx => h x (List.mem_cons_of_mem _ hx)]

/-- An object whose members are in order already. -/
theorem sortKeys_of_fixed {m : SortedMap String Value} (h : ∀ e ∈ m.toList, e.2.sortKeys = e.2) :
    (object m.toList).sortKeys = object m.toList := by
  rw [sortKeys, sortMembers_of_fixed h, sorted, SortedMap.ofList_toList]

theorem sortKeys_sorted (h : ∀ e ∈ members, e.2.sortKeys = e.2) :
    (sorted members).sortKeys = sorted members :=
  sortKeys_of_fixed fun e he => h e (SortedMap.mem_of_mem_ofList he)

/-- The members of a map are in the order of their keys already. -/
theorem sortKeys_ofMap (m : SortedMap String String) : (ofMap m).sortKeys = ofMap m := by
  let strings : SortedMap String Value :=
    ⟨m.toList.map fun e => (e.1, string e.2), List.pairwise_map.2 m.sorted⟩
  refine sortKeys_of_fixed (m := strings) fun e he => ?_
  obtain ⟨_, -, rfl⟩ := List.mem_map.1 he
  simp only [sortKeys]

/-- The member that is found is the last one of its key. -/
theorem lookup_sorted (key : String) :
    (SortedMap.ofList members).toList.lookup key = members.reverse.lookup key := by
  rw [← SortedMap.lookup_eq, ← SortedMap.lookup_eq]
  exact SortedMap.get?_ofList members key

end UpdateVault.Json.Value
