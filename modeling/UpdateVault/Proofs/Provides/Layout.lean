import UpdateVault.Proofs.Provides.Text

/-!
# The layout of capabilities

A text of capabilities may have its lines in any order, with either line end and blank lines between
them (`Laid`). All such texts are read as the same map, and writing the map gives one of them
(`round_trip_of_laid`).
-/

namespace UpdateVault.Provides

open Text (joinPieces pieces)

variable {m : Provides} {text : String} {e : String × String} {es : List (String × String)}
  {cs : List Char}

/-! ## What can be written -/

theorem any_isLineBreak_eq_false :
    cs.any isLineBreak = false ↔ '\n' ∉ cs ∧ '\r' ∉ cs := by
  rw [List.any_eq_false]
  constructor
  · intro h
    exact ⟨fun hmem => h _ hmem (by decide), fun hmem => h _ hmem (by decide)⟩
  · rintro ⟨hfeed, hreturn⟩ c hc hbreak
    simp only [isLineBreak, Bool.or_eq_true, decide_eq_true_eq] at hbreak
    rcases hbreak with rfl | rfl
    · exact hfeed hc
    · exact hreturn hc

theorem isWritableKey_iff {key : String} : isWritableKey key = true ↔
    key ≠ "" ∧ '=' ∉ key.toList ∧ '\n' ∉ key.toList ∧ '\r' ∉ key.toList := by
  have hany : (key.toList.any fun c => c = '=' || isLineBreak c) = false
      ↔ '=' ∉ key.toList ∧ key.toList.any isLineBreak = false := by
    simp only [List.any_eq_false, Bool.or_eq_true, decide_eq_true_eq, not_or]
    constructor
    · intro h
      exact ⟨fun hmem => (h _ hmem).1 rfl, fun c hc => (h c hc).2⟩
    · rintro ⟨hequals, hplain⟩ c hc
      exact ⟨fun he => hequals (he ▸ hc), hplain c hc⟩
  rw [isWritableKey, Bool.and_eq_true, Bool.not_eq_true', Bool.not_eq_true', hany,
    any_isLineBreak_eq_false]
  simp

/-- A pair can be written if its key is not empty and has neither `=` nor a line break, and its
value has no line break. -/
theorem writable_iff : Writable e ↔
    (e.1 ≠ "" ∧ '=' ∉ e.1.toList ∧ '\n' ∉ e.1.toList ∧ '\r' ∉ e.1.toList) ∧
      '\n' ∉ e.2.toList ∧ '\r' ∉ e.2.toList := by
  rw [Writable, any_isLineBreak_eq_false, isWritableKey_iff]

theorem encodeEntry_of_writable (h : Writable e) : encodeEntry e.1 e.2 = .ok (lineOf e) := by
  rw [encodeEntry, h.1, h.2]
  rfl

theorem mapM_encodeEntry (h : ∀ e ∈ es, Writable e) :
    es.mapM (fun e => encodeEntry e.1 e.2) = .ok (es.map lineOf) := by
  induction es with
  | nil => rfl
  | cons e rest ih =>
    obtain ⟨he, hrest⟩ := List.forall_mem_cons.1 h
    rw [List.mapM_cons, encodeEntry_of_writable he, ih hrest]
    rfl

/-- **Capabilities can be written if and only if each of their pairs can.** -/
theorem exists_encode_iff : (∃ text, encode m = .ok text) ↔ ∀ e ∈ m.toList, Writable e := by
  constructor
  · rintro ⟨text, h⟩
    exact (encode_eq_ok h).1
  · intro h
    refine ⟨String.ofList (joinPieces '\n' (m.toList.map lineOf)), ?_⟩
    rw [encode, mapM_encodeEntry h]
    rfl

/-! ## Layouts -/

/-- What may stand at the end of a line. -/
inductive LineEnd
  | lf
  | crLf
  deriving DecidableEq, Repr

/-- What is before the line feed. -/
def LineEnd.beforeFeed : LineEnd → List Char
  | lf => []
  | crLf => ['\r']

def LineEnd.chars (ending : LineEnd) : List Char := ending.beforeFeed ++ ['\n']

/-- The texts of pairs, one on a line, in their order: each line with an end, which the last line
may lack, and blank lines between them, which may hold a carriage return. -/
inductive Laid : List (String × String) → List Char → Prop
  | nil : Laid [] []
  /-- A carriage return on a last line without an end. -/
  | lastBlank : Laid [] ['\r']
  | last (e : String × String) : Laid [e] (lineOf e)
  | blank (ending : LineEnd) {es : List (String × String)} {cs : List Char} :
      Laid es cs → Laid es (ending.chars ++ cs)
  | entry (e : String × String) (ending : LineEnd) {es : List (String × String)}
      {cs : List Char} : Laid es cs → Laid (e :: es) (lineOf e ++ ending.chars ++ cs)

/-- Lines with a line feed between them are one of the layouts. -/
theorem laid_joinPieces (es : List (String × String)) :
    Laid es (joinPieces '\n' (es.map lineOf)) := by
  induction es with
  | nil => exact .nil
  | cons e rest ih =>
    cases rest with
    | nil => exact .last e
    | cons next more =>
      have hlaid : Laid (e :: next :: more) (lineOf e ++ LineEnd.lf.chars
        ++ joinPieces '\n' ((next :: more).map lineOf)) := .entry e .lf ih
      simpa [joinPieces, LineEnd.chars, LineEnd.beforeFeed] using hlaid

/-! ## Reading -/

/-- A carriage return at the end of a line does not count. -/
theorem read_append_return {raw : List Char} (h : raw.getLast? ≠ some '\r') (ending : LineEnd) :
    Line.read (raw ++ ending.beforeFeed) = Line.read raw := by
  cases ending with
  | lf => rw [LineEnd.beforeFeed, List.append_nil]
  | crLf => simp only [LineEnd.beforeFeed, Line.read, List.getLast?_concat, List.dropLast_concat,
      if_true, if_neg h]

/-- A line with either end is read as the line without one. -/
theorem read_line {raw : List Char} (hfeed : '\n' ∉ raw) (hreturn : raw.getLast? ≠ some '\r')
    (ending : LineEnd) (cs : List Char) :
    (pieces '\n' (raw ++ ending.chars ++ cs)).map Line.read
      = Line.read raw :: (pieces '\n' cs).map Line.read := by
  have hfree : '\n' ∉ raw ++ ending.beforeFeed := by
    cases ending <;> simp [LineEnd.beforeFeed, hfeed]
  have hcut : raw ++ ending.chars ++ cs = raw ++ ending.beforeFeed ++ '\n' :: cs := by
    simp [LineEnd.chars]
  rw [hcut, Text.pieces_append hfree, List.map_cons, read_append_return hreturn]

/-- The lines of a text are those of its pairs, and blank ones. -/
theorem Laid.lines_eq (h : Laid es cs) (hes : ∀ e ∈ es, Writable e) :
    ((pieces '\n' cs).map Line.read).filter (· ≠ .blank) = es.map fun e => .entry e.1 e.2 := by
  induction h with
  | nil => rfl
  | lastBlank => rfl
  | last e =>
    have he : Writable e := hes e (List.mem_singleton_self e)
    rw [Text.pieces_of_free he.feed_notMem, List.map_singleton, read_lineOf he]
    rfl
  | @blank ending es cs _ ih =>
    have hread : (pieces '\n' (ending.chars ++ cs)).map Line.read
        = Line.read [] :: (pieces '\n' cs).map Line.read :=
      read_line List.not_mem_nil (nofun : [].getLast? ≠ some '\r') ending cs
    rw [hread, List.filter_cons_of_neg (by decide), ih hes]
  | @entry e ending es cs _ ih =>
    obtain ⟨he, hrest⟩ := List.forall_mem_cons.1 hes
    rw [read_line he.feed_notMem he.getLast?_ne_return, read_lineOf he,
      List.filter_cons_of_pos (by simp), ih hrest, List.map_cons]

/-- Every layout of the entries of a map is read as the map. -/
theorem decode_of_laid {policy : RepeatPolicy} (hperm : es.Perm m.toList)
    (hm : ∀ e ∈ m.toList, Writable e) (h : Laid es text.toList) : decode policy text = .ok m := by
  have hes : ∀ e ∈ es, Writable e := fun e he => hm e (hperm.mem_iff.1 he)
  have hdistinct : es.Pairwise fun x y => x.1 ≠ y.1 :=
    (hperm.pairwise_iff fun hne => Ne.symm hne).2 m.pairwise_ne
  rw [decode_of_lines (h.lines_eq hes) hdistinct, SortedMap.ofList_of_perm hperm]

/-- **Capabilities are read back from every layout of their lines**, and those that can be written
are: the ones without a line break, and with keys that are not empty and without `=`. -/
theorem round_trip_of_laid (m : Provides) :
    ((∃ text, encode m = .ok text) ↔ ∀ key value, (key, value) ∈ m.toList →
      (key ≠ "" ∧ '=' ∉ key.toList ∧ '\n' ∉ key.toList ∧ '\r' ∉ key.toList) ∧
        '\n' ∉ value.toList ∧ '\r' ∉ value.toList) ∧
    ∀ text, encode m = .ok text → Laid m.toList text.toList ∧
      ∀ es laid, es.Perm m.toList → Laid es laid.toList →
        ∀ policy, decode policy laid = .ok m := by
  refine ⟨?_, fun text h => ?_⟩
  · rw [exists_encode_iff]
    constructor
    · intro hm key value hmem
      exact writable_iff.1 (hm (key, value) hmem)
    · intro hm e he
      exact writable_iff.2 (hm e.1 e.2 he)
  · obtain ⟨hm, htext⟩ := encode_eq_ok h
    refine ⟨htext ▸ laid_joinPieces m.toList, fun es laid hperm hlaid policy => ?_⟩
    exact decode_of_laid hperm hm hlaid

theorem round_trip_of_laid_reordered :
    encode (.ofList [("a", "1=2"), ("b", "")]) = .ok "a=1=2\nb=" ∧
      ∀ policy, decode policy "\r\nb=\r\n\na=1=2" = .ok (.ofList [("a", "1=2"), ("b", "")]) := by
  obtain ⟨-, hround⟩ := round_trip_of_laid (.ofList [("a", "1=2"), ("b", "")])
  have hencode : encode (.ofList [("a", "1=2"), ("b", "")]) = .ok "a=1=2\nb=" := by decide
  have hlaid : Laid [("b", ""), ("a", "1=2")] "\r\nb=\r\n\na=1=2".toList :=
    .blank .crLf (.entry ("b", "") .crLf (.blank .lf (.last ("a", "1=2"))))
  obtain ⟨-, hdecode⟩ := hround _ hencode
  exact ⟨hencode, hdecode _ _ (by decide) hlaid⟩

end UpdateVault.Provides
