import UpdateVault.Proofs.Disk.Frame
import UpdateVault.Proofs.SortedMap

/-!
# A file that is being replaced when the power is lost

`replaceSteps` replaces a file in the smallest steps there are, with its data written a byte at a
time; done to the end they are the one change of before (`run_replaceSteps`). What a loss of power
leaves is what some of the first steps did: the data up to some byte in the temporary sibling
(`cut_replaceSteps`), and once the sibling is renamed the file with all its data. What is left in
the sibling does not matter when the file is replaced again (`replace_set_temporary`).
-/

namespace UpdateVault.Disk

variable {d d' : Disk} {temporary target : Location} {data : Bytes} {k : Nat}
  {content : Bytes} {changes more : List Change}

/-- The steps in which a file is replaced. -/
def replaceSteps (temporary target : Location) (data : Bytes) : List Change :=
  .create temporary :: data.map (fun b => .append temporary [b]) ++ [.rename temporary target]

/-- The disk when the power is lost after so many steps. -/
def cut (steps : List Change) (k : Nat) (d : Disk) : Disk := (run (steps.take k)).after d

theorem cut_nil : cut [] k d = d := by
  rw [cut, List.take_nil]
  rfl

theorem length_replaceSteps : (replaceSteps temporary target data).length = data.length + 2 := by
  simp [replaceSteps]

/-! ## Byte by byte -/

theorem run_append : run (changes ++ more) d = (run changes >>= fun _ => run more) d := by
  induction changes generalizing d with
  | nil => rfl
  | cons c rest ih =>
    cases hc : c.apply d with
    | error e => simp only [List.cons_append, run, hc, bind, EStateM.bind]
    | ok d₁ =>
      rw [List.cons_append, run_cons hc, ih]
      simp only [bind, EStateM.bind, run_cons hc]

theorem set_set (place : Location) (node node' : Node) :
    (d.set place node).set place node' = d.set place node' := by
  simp only [set, SortedMap.insert_insert]

theorem set_eq_self {node : Node} (hplace : place ≠ []) (h : d.node? place = some node) :
    d.set place node = d := by
  rw [node?, if_neg hplace] at h
  rw [set, SortedMap.insert_eq_self h]

/-- A file grows a byte at a time. -/
theorem run_appends (h : Nameable temporary) (content data : Bytes) :
    run (data.map fun b => .append temporary [b]) (d.set temporary (.file content))
      = .ok () (d.set temporary (.file (content ++ data))) := by
  induction data generalizing content with
  | nil => rw [List.append_nil]; rfl
  | cons b rest ih =>
    have hcontent : (d.set temporary (.file content)).node? temporary = some (.file content) := by
      rw [node?_set h.1, if_pos rfl]
    rw [List.map_cons, run_cons (append_eq h hcontent), set_set, ih, List.append_assoc,
      List.singleton_append]

/-- A file that is there grows a byte at a time, up to where the power is lost. -/
theorem cut_appends (h : Nameable place) (hnode : d.node? place = some (.file content))
    (data : Bytes) (k : Nat) :
    cut (data.map fun b => .append place [b]) k d
      = d.set place (.file (content ++ data.take k)) := by
  refine Update.after_of_ok (a := ()) ?_
  rw [← List.map_take]
  have hrun := run_appends (d := d) h content (data.take k)
  rwa [set_eq_self h.1 hnode] at hrun

/-- All steps together are the change that writes the data at once. -/
theorem run_replaceSteps (h : Nameable temporary) (hfree : d.node? temporary ≠ some .directory) :
    run (replaceSteps temporary target data) d = run (replaceChanges temporary target data) d := by
  have hcreated : (d.set temporary (.file [])).node? temporary = some (.file []) := by
    rw [node?_set h.1, if_pos rfl]
  rw [replaceSteps, List.cons_append, run_cons (create_eq h hfree), run_append,
    Update.bind_ok (run_appends h [] data), replaceChanges, run_cons (create_eq h hfree),
    run_cons (append_eq h hcreated), set_set]

/-! ## What is left -/

/-- Before the rename the temporary sibling has the data up to some byte. -/
theorem cut_replaceSteps (h : Nameable temporary) (hfree : d.node? temporary ≠ some .directory)
    (hk : k ≤ data.length) :
    cut (replaceSteps temporary target data) (k + 1) d
      = d.set temporary (.file (data.take k)) := by
  have htake : (replaceSteps temporary target data).take (k + 1)
      = .create temporary :: (data.take k).map fun b => .append temporary [b] := by
    rw [replaceSteps, List.cons_append, List.take_succ_cons,
      List.take_append_of_le_length (by simpa using hk), List.map_take]
  refine Update.after_of_ok (a := ()) ?_
  rw [htake, run_cons (create_eq h hfree)]
  exact run_appends h [] _

/-- After the last step the file is replaced. -/
theorem cut_replaceSteps_of_le (hne : temporary ≠ target)
    (h : replace temporary target data d = .ok () d') (hk : data.length + 2 ≤ k) :
    cut (replaceSteps temporary target data) k d = d' := by
  obtain ⟨hname, -, hfree, -⟩ := replace_eq_ok hne h
  have hrun : run (replaceSteps temporary target data) d = .ok () d' := by
    rw [run_replaceSteps hname hfree]
    exact run_of_replace h
  rw [cut, List.take_of_length_le (length_replaceSteps ▸ hk)]
  exact Update.after_of_ok hrun

theorem places_of_mem_replaceSteps {c : Change} (h : c ∈ replaceSteps temporary target data) :
    c.places ⊆ [temporary, target] := by
  simp only [replaceSteps, List.cons_append, List.mem_cons, List.mem_append, List.mem_map,
    List.not_mem_nil, or_false] at h
  rcases h with rfl | ⟨b, -, rfl⟩ | rfl <;> simp [Change.places]

theorem cut_changesFiles :
    ChangesFiles [temporary, target] d (cut (replaceSteps temporary target data) k d) :=
  run_changesFiles fun _ hc => places_of_mem_replaceSteps (List.mem_of_mem_take hc)

/-- **The file has its old content up to the last step.** -/
theorem node?_cut_target (hne : temporary ≠ target)
    (h : replace temporary target data d = .ok () d') :
    (cut (replaceSteps temporary target data) k d).node? target
      = if k < data.length + 2 then d.node? target else some (.file data) := by
  obtain ⟨hname, htarget, hfree, hfile⟩ := replace_eq_ok hne h
  by_cases hk : k < data.length + 2
  · rw [if_pos hk]
    cases k with
    | zero => rfl
    | succ k =>
      rw [cut_replaceSteps hname hfree (by omega), node?_set hname.1, if_neg hne.symm]
  · obtain ⟨d₁, hreplace, -, hnode⟩ := replace_eq data hname htarget hne hfree hfile
    rw [hreplace] at h
    cases h
    rw [if_neg hk, cut_replaceSteps_of_le hne hreplace (by omega), hnode, if_pos rfl]

/-! ## Replacing a file again -/

theorem replace_of_occupied (h : Nameable temporary)
    (hnode : d.node? temporary = some .directory) :
    replace temporary target data d = .error .isDirectory d := by
  rw [replace, replaceChanges, run, create_of_directory h hnode]
  simp only [discardFile, remove_of_directory h hnode]

/-- With a directory in the place of the temporary sibling no step can be made. -/
theorem cut_replaceSteps_of_directory (h : Nameable temporary)
    (hnode : d.node? temporary = some .directory) :
    cut (replaceSteps temporary target data) k d = d := by
  cases k with
  | zero => rfl
  | succ k =>
    refine Update.after_of_error (e := .isDirectory) ?_
    rw [replaceSteps, List.cons_append, List.take_succ_cons, run, create_of_directory h hnode]

/-- Replacing a file has not begun, has got as far as the temporary sibling, or is done. -/
theorem cut_replaceSteps_cases (htemporary : Nameable temporary) (htarget : Nameable target)
    (hne : temporary ≠ target) (hfile : d.node? target ≠ some .directory) (data : Bytes) (k : Nat) :
    cut (replaceSteps temporary target data) k d = d ∨
    (d.node? temporary ≠ some .directory ∧ ∃ content,
      cut (replaceSteps temporary target data) k d = d.set temporary (.file content)) ∨
    replace temporary target data d
      = .ok () (cut (replaceSteps temporary target data) k d) := by
  by_cases hfree : d.node? temporary = some .directory
  · exact .inl (cut_replaceSteps_of_directory htemporary hfree)
  · cases k with
    | zero => exact .inl rfl
    | succ k =>
      by_cases hk : k ≤ data.length
      · exact .inr (.inl ⟨hfree, _, cut_replaceSteps htemporary hfree hk⟩)
      · obtain ⟨d', hreplace⟩ := exists_replace data htemporary htarget hfree hfile
        rw [cut_replaceSteps_of_le hne hreplace (by omega)]
        exact .inr (.inr hreplace)

/-- What is in the temporary sibling does not matter to a file that is replaced. -/
theorem replace_set_temporary (h : Nameable temporary)
    (hfree : d.node? temporary ≠ some .directory) (content : Bytes) :
    replace temporary target data (d.set temporary (.file content))
      = replace temporary target data d := by
  have hfree' : (d.set temporary (.file content)).node? temporary ≠ some .directory := by
    rw [node?_set h.1, if_pos rfl]
    nofun
  have hrun : run (replaceChanges temporary target data) (d.set temporary (.file content))
      = run (replaceChanges temporary target data) d := by
    rw [replaceChanges, run_cons (create_eq h hfree'), run_cons (create_eq h hfree), set_set]
  rw [replace, replace, hrun]

end UpdateVault.Disk
