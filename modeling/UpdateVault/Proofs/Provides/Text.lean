import UpdateVault.Proofs.SortedMap
import UpdateVault.Proofs.Text
import UpdateVault.Provides.Text

/-!
# The text of capabilities

`decode_encode`: capabilities that can be written are read back under either policy, but for NUL
characters at the end of the text, which a reader takes off (`Provides.terminated`).
-/

namespace UpdateVault.Provides

open Text (joinPieces pieces withoutTerminator)

variable {m : Provides} {text : String} {key value : String}

/-- The characters of the line of a pair. -/
def lineOf (e : String × String) : List Char := e.1.toList ++ '=' :: e.2.toList

/-- The text of pairs: their lines, with a line feed between them. -/
def textOf (es : List (String × String)) : String := String.ofList (joinPieces '\n' (es.map lineOf))

/-- Whether a pair can be written: a key that is one, and a value on one line. -/
def Writable (e : String × String) : Prop :=
  isWritableKey e.1 = true ∧ e.2.toList.any isLineBreak = false

/-- What is read back of capabilities: the last value without NUL characters at its end. -/
def terminated (m : Provides) : Provides :=
  match m.toList.getLast? with
  | none => m
  | some (key, value) => m.insert key (withoutTerminator value)

/-- Nothing is lost of capabilities whose last value loses nothing. -/
theorem terminated_eq_self_iff : m.terminated = m ↔
    ∀ e, m.toList.getLast? = some e → withoutTerminator e.2 = e.2 := by
  rw [terminated]
  cases hlast : m.toList.getLast? with
  | none => exact iff_of_true rfl nofun
  | some e =>
    have hget : m.get? e.1 = some e.2 :=
      SortedMap.mem_toList_iff.1 (List.mem_of_getLast? hlast)
    change m.insert e.1 (withoutTerminator e.2) = m ↔ _
    constructor
    · intro h e' he'
      cases he'
      have hself := SortedMap.get?_insert_self m e.1 (withoutTerminator e.2)
      rw [h, hget] at hself
      exact (Option.some.inj hself).symm
    · intro h
      rw [h e rfl]
      exact SortedMap.insert_eq_self hget

/-! ## Writing -/

theorem encodeEntry_eq_ok {line : List Char} (h : encodeEntry key value = .ok line) :
    Writable (key, value) ∧ line = lineOf (key, value) := by
  rw [encodeEntry] at h
  split at h
  · cases h
  · rename_i hkey
    split at h
    · cases h
    · rename_i hvalue
      cases h
      exact ⟨⟨by simpa using hkey, by simpa using hvalue⟩, rfl⟩

theorem mapM_encodeEntry_eq_ok {es : List (String × String)} {ls : List (List Char)}
    (h : es.mapM (fun e => encodeEntry e.1 e.2) = .ok ls) :
    (∀ e ∈ es, Writable e) ∧ ls = es.map lineOf := by
  induction es generalizing ls with
  | nil =>
    cases h
    exact ⟨nofun, rfl⟩
  | cons e rest ih =>
    rw [List.mapM_cons] at h
    cases hline : encodeEntry e.1 e.2 with
    | error f =>
      rw [hline] at h
      cases h
    | ok line =>
      cases hlines : rest.mapM (fun e => encodeEntry e.1 e.2) with
      | error f =>
        rw [hline, hlines] at h
        cases h
      | ok more =>
        rw [hline, hlines] at h
        cases h
        obtain ⟨hwritable, rfl⟩ := encodeEntry_eq_ok hline
        obtain ⟨hall, rfl⟩ := ih hlines
        exact ⟨List.forall_mem_cons.2 ⟨hwritable, hall⟩, rfl⟩

theorem encode_eq_ok (h : encode m = .ok text) :
    (∀ e ∈ m.toList, Writable e) ∧ text.toList = joinPieces '\n' (m.toList.map lineOf) := by
  rw [encode] at h
  cases hls : m.toList.mapM (fun e => encodeEntry e.1 e.2) with
  | error f =>
    rw [hls] at h
    cases h
  | ok ls =>
    rw [hls] at h
    cases h
    obtain ⟨hall, rfl⟩ := mapM_encodeEntry_eq_ok hls
    exact ⟨hall, String.toList_ofList⟩

theorem eq_textOf (h : encode m = .ok text) : text = textOf m.toList := by
  rw [textOf, ← (encode_eq_ok h).2, String.ofList_toList]

/-! ## Lines -/

theorem Writable.key_ne_nil {e : String × String} (h : Writable e) : e.1.toList ≠ [] := by
  have := h.1
  simp only [isWritableKey, Bool.and_eq_true, Bool.not_eq_true'] at this
  intro hnil
  have hempty : e.1 = "" := by simpa using hnil
  rw [hempty] at this
  exact absurd this.1 (by decide)

theorem Writable.equals_notMem_key {e : String × String} (h : Writable e) : '=' ∉ e.1.toList := by
  have := h.1
  simp only [isWritableKey, Bool.and_eq_true, Bool.not_eq_true', List.any_eq_false] at this
  intro hmem
  simpa using this.2 _ hmem

theorem Writable.no_lineBreak {e : String × String} (h : Writable e) {c : Char}
    (hc : c ∈ lineOf e) : isLineBreak c = false := by
  rcases List.mem_append.1 hc with hkey | hvalue
  · have := h.1
    simp only [isWritableKey, Bool.and_eq_true, Bool.not_eq_true', List.any_eq_false] at this
    have hplain := this.2 c hkey
    simp only [Bool.or_eq_true, not_or, Bool.not_eq_true] at hplain
    exact hplain.2
  · rcases List.mem_cons.1 hvalue with rfl | hvalue
    · decide
    · simpa using List.any_eq_false.1 h.2 c hvalue

theorem Writable.feed_notMem {e : String × String} (h : Writable e) : '\n' ∉ lineOf e := by
  intro hmem
  exact absurd (h.no_lineBreak hmem) (by decide)

theorem Writable.getLast?_ne_return {e : String × String} (h : Writable e) :
    (lineOf e).getLast? ≠ some '\r' := by
  intro hlast
  exact absurd (h.no_lineBreak (List.mem_of_getLast? hlast)) (by decide)

/-- A written line is read as its pair. -/
theorem read_lineOf {e : String × String} (h : Writable e) :
    Line.read (lineOf e) = .entry e.1 e.2 := by
  have hne : (lineOf e).isEmpty = false := by simp [lineOf]
  have hsplit : Text.splitPair (lineOf e) = _ :=
    Text.splitPair_append h.key_ne_nil h.equals_notMem_key
  simp only [Line.read, if_neg h.getLast?_ne_return, hne, hsplit]
  simp

/-! ## Reading -/

/-- Lines that are entries of different keys, or blank, are collected whatever the policy. -/
theorem collect_entries {policy : RepeatPolicy} {es : List (String × String)} {ls : List Line}
    {n : Nat} (hlines : ls.filter (· ≠ .blank) = es.map fun e => .entry e.1 e.2)
    (hdistinct : es.Pairwise fun x y => x.1 ≠ y.1) (hfresh : ∀ e ∈ es, m.get? e.1 = none) :
    collect policy n m ls = .ok (es.foldl (fun m e => m.insert e.1 e.2) m) := by
  induction ls generalizing es m n with
  | nil =>
    have hnil : es = [] := by simpa using hlines.symm
    rw [hnil]
    rfl
  | cons l rest ih =>
    cases l with
    | blank => exact ih (by simpa using hlines) hdistinct hfresh
    | malformed => cases es <;> simp at hlines
    | entry key value =>
      cases es with
      | nil => simp at hlines
      | cons e es =>
        simp only [ne_eq, reduceCtorEq, not_false_eq_true, decide_true, List.filter_cons_of_pos,
          List.map_cons, List.cons.injEq, Line.entry.injEq] at hlines
        obtain ⟨⟨rfl, rfl⟩, hrest⟩ := hlines
        obtain ⟨hhead, htail⟩ := List.pairwise_cons.1 hdistinct
        have hnew : m.contains e.1 = false := by
          rw [SortedMap.contains, hfresh e List.mem_cons_self]
          rfl
        have hlater : ∀ x ∈ es, (m.insert e.1 e.2).get? x.1 = none := by
          intro x hx
          rw [SortedMap.get?_insert_ne m e.2 (hhead x hx).symm]
          exact hfresh x (List.mem_cons_of_mem _ hx)
        rw [collect, if_neg (by simp [hnew]), ih hrest htail hlater, List.foldl_cons]

/-- Blank lines are no garbage, nor are entries. -/
theorem isGarbage_of_entries {es : List (String × String)} {ls : List Line}
    (hlines : ls.filter (· ≠ .blank) = es.map fun e => .entry e.1 e.2) : isGarbage ls = false := by
  rw [isGarbage, Bool.and_eq_false_iff]
  cases es with
  | nil =>
    refine .inl (List.any_eq_false.2 fun l hl => ?_)
    have hblank := List.filter_eq_nil_iff.1 hlines l hl
    simpa using hblank
  | cons e rest =>
    refine .inr (List.all_eq_false.2 ⟨.entry e.1 e.2, ?_, by simp⟩)
    have hmem : Line.entry e.1 e.2 ∈ ls.filter (· ≠ .blank) := by
      rw [hlines, List.map_cons]
      exact List.mem_cons_self
    exact (List.mem_filter.1 hmem).1

/-- Text whose lines are entries of different keys, or blank, is read as their map. -/
theorem decode_of_lines {policy : RepeatPolicy} {es : List (String × String)}
    (hlines : (lines text).filter (· ≠ .blank) = es.map fun e => .entry e.1 e.2)
    (hdistinct : es.Pairwise fun x y => x.1 ≠ y.1) :
    decode policy text = .ok (SortedMap.ofList es) := by
  rw [decode, isGarbage_of_entries hlines,
    collect_entries hlines hdistinct fun e _ => SortedMap.get?_empty e.1]
  rfl

/-- Lines that were written from entries of different keys are read as their map. -/
theorem decode_joinPieces {policy : RepeatPolicy} {es : List (String × String)} (hne : es ≠ [])
    (hwritable : ∀ e ∈ es, Writable e) (hdistinct : es.Pairwise fun x y => x.1 ≠ y.1)
    (htext : text.toList = joinPieces '\n' (es.map lineOf)) :
    decode policy text = .ok (SortedMap.ofList es) := by
  have hpieces : pieces '\n' text.toList = es.map lineOf := by
    rw [htext]
    refine Text.pieces_joinPieces (by simpa using hne) fun piece hpiece => ?_
    obtain ⟨e, he, rfl⟩ := List.mem_map.1 hpiece
    exact (hwritable e he).feed_notMem
  have hlines : lines text = es.map fun e => .entry e.1 e.2 := by
    rw [lines, hpieces, List.map_map]
    exact List.map_congr_left fun e he => read_lineOf (hwritable e he)
  refine decode_of_lines ?_ hdistinct
  rw [hlines, List.filter_eq_self]
  intro l hl
  obtain ⟨e, -, rfl⟩ := List.mem_map.1 hl
  simp

/-- The last value loses the NUL characters at its end, and the text loses nothing else. -/
theorem withoutTerminator_joinPieces (es : List (String × String)) (e : String × String)
    (htext : text.toList = joinPieces '\n' ((es ++ [e]).map lineOf)) :
    (withoutTerminator text).toList
      = joinPieces '\n' ((es ++ [(e.1, withoutTerminator e.2)]).map lineOf) := by
  rw [List.map_append, List.map_singleton, Text.joinPieces_concat] at htext ⊢
  rw [withoutTerminator, String.toList_ofList, htext, lineOf, ← List.append_assoc,
    Text.trimEnd_append_cons (by decide), lineOf, withoutTerminator, String.toList_ofList,
    List.append_assoc]

theorem Writable.withoutTerminator {e : String × String} (h : Writable e) :
    Writable (e.1, Text.withoutTerminator e.2) := by
  refine ⟨h.1, List.any_eq_false.2 fun c hc => ?_⟩
  rw [Text.withoutTerminator, String.toList_ofList] at hc
  exact List.any_eq_false.1 h.2 c (Text.mem_of_mem_trimEnd hc)

theorem ofList_concat (es : List (String × String)) (e : String × String) :
    SortedMap.ofList (es ++ [e]) = (SortedMap.ofList es).insert e.1 e.2 := by
  rw [SortedMap.ofList, List.foldl_append]
  rfl

/-- **What is written is read back**, but for NUL characters at the end. -/
theorem decode_encode (policy : RepeatPolicy) (hne : m.toList ≠ []) (h : encode m = .ok text) :
    decode policy (withoutTerminator text) = .ok m.terminated := by
  obtain ⟨hwritable, htext⟩ := encode_eq_ok h
  have hdistinct := m.pairwise_ne
  obtain ⟨es, e, hes⟩ : ∃ es e, m.toList = es ++ [e] :=
    ⟨_, _, (List.dropLast_concat_getLast hne).symm⟩
  have hm : (SortedMap.ofList es).insert e.1 e.2 = m := by
    rw [← ofList_concat, ← hes, SortedMap.ofList_toList]
  -- the entries are written in the order of their keys, so the last one ends the text
  have hterminated : m.terminated
      = SortedMap.ofList (es ++ [(e.1, withoutTerminator e.2)]) := by
    rw [ofList_concat, terminated, hes, List.getLast?_concat, ← hm]
    exact SortedMap.insert_insert ..
  rw [hterminated]
  rw [hes] at hwritable hdistinct htext
  refine decode_joinPieces (by simp) ?_ ?_ (withoutTerminator_joinPieces es e htext)
  · obtain ⟨hes', he⟩ := List.forall_mem_append.1 hwritable
    refine List.forall_mem_append.2 ⟨hes', fun x hx => ?_⟩
    rw [List.mem_singleton.1 hx]
    exact (he e (List.mem_singleton_self e)).withoutTerminator
  · rw [List.pairwise_append] at hdistinct ⊢
    refine ⟨hdistinct.1, List.pairwise_singleton _ _, fun x hx y hy => ?_⟩
    rw [List.mem_singleton.1 hy]
    exact hdistinct.2.2 x hx e (List.mem_singleton_self e)

/-- Only the empty map has no text. -/
theorem isEmpty_text_iff (h : encode m = .ok text) : text.isEmpty ↔ m.toList = [] := by
  obtain ⟨-, htext⟩ := encode_eq_ok h
  rw [String.isEmpty_iff, ← String.toList_eq_nil_iff, htext]
  constructor
  · intro hnil
    by_contra hne
    obtain ⟨es, e, hes⟩ : ∃ es e, m.toList = es ++ [e] :=
      ⟨_, _, (List.dropLast_concat_getLast hne).symm⟩
    rw [hes, List.map_append, List.map_singleton, Text.joinPieces_concat] at hnil
    simp [lineOf] at hnil
  · intro hnil
    rw [hnil]
    rfl

theorem isEmpty_text (h : encode m = .ok text) : text.isEmpty = m.isEmpty := by
  rw [Bool.eq_iff_iff, isEmpty_text_iff h, SortedMap.isEmpty, List.isEmpty_iff]

end UpdateVault.Provides
