import UpdateVault.Proofs.Partition.PowerLoss
import UpdateVault.Proofs.Storage.Directory
import UpdateVault.Proofs.Storage.Partition

/-!
# A directory and a partition are interchangeable

Requests for items, and the answers of a storage that is opened anew from time to time. A storage
that keeps its items and tells its deletions apart answers like a plain map until it refuses a
write (`KeptItems.Exact.answers_eq`). An empty directory refuses none, and an erased chip only for
want of room, so until then they answer alike (`interchangeable`).
-/

namespace UpdateVault

/-- What is asked of a storage. -/
inductive Request
  | write (item : Item) (data : Bytes)
  | read (item : Item)
  | delete (item : Item)
  | reopen
  deriving DecidableEq, Repr

/-- What comes back: data from reading, and nothing from anything else that succeeds. -/
abbrev Answer := Except StorageError (Option Bytes)

/-- The answers to requests, one after the other. -/
def answers {σ : Type} (step : Request → σ → Answer × σ) : σ → List Request → List Answer
  | _, [] => []
  | s, request :: rest => (step request s).1 :: answers step (step request s).2 rest

/-- The state after requests. -/
def afterRequests {σ : Type} (step : Request → σ → Answer × σ) (s : σ) (requests : List Request) :
    σ :=
  requests.foldl (fun s request => (step request s).2) s

namespace Request

def ofResult {σ : Type} : EStateM.Result StorageError σ Unit → Answer × σ
  | .ok () s => (.ok none, s)
  | .error e s => (.error e, s)

/-- What a storage does on a request. -/
def run {σ : Type} [ItemStorage σ] (reopen : σ → Except StorageError σ) :
    Request → σ → Answer × σ
  | write item data, s => ofResult (ItemStorage.write item.name data s)
  | read item, s => ((ItemStorage.read s item.name).map some, s)
  | delete item, s => ofResult (ItemStorage.delete item.name s)
  | .reopen, s =>
    match reopen s with
    | .ok s' => (.ok none, s')
    | .error e => (.error e, s)

/-- What a plain map of items does on a request. -/
def plain : Request → (Item → Option Bytes) → Answer × (Item → Option Bytes)
  | write item data, m => (.ok none, Function.update m item (some data))
  | read item, m => ((item.answer (m item)).map some, m)
  | delete item, m => ofResult (item.deletion (m item) (Function.update m item none))
  | reopen, m => (.ok none, m)

end Request

section

variable {σ : Type} {step : Request → σ → Answer × σ} {s : σ} {requests more : List Request}

theorem answers_append : answers step s (requests ++ more)
    = answers step s requests ++ answers step (afterRequests step s requests) more := by
  induction requests generalizing s with
  | nil => rfl
  | cons request rest ih =>
    rw [List.cons_append, answers, answers, ih, List.cons_append, afterRequests, afterRequests,
      List.foldl_cons]

/-- Opening anew any number of times, where it goes through and changes nothing. -/
theorem answers_replicate_reopen (h : step .reopen s = (.ok none, s)) (n : Nat) :
    answers step s (List.replicate n .reopen ++ more)
      = List.replicate n (.ok none) ++ answers step s more := by
  induction n with
  | zero => rfl
  | succ n ih =>
    rw [List.replicate_succ, List.cons_append, answers, h, ih, List.replicate_succ,
      List.cons_append]

end

/-! ## Empty data -/

/-- An item gets empty data, is read and deleted, and then deleted once more, with the storage
opened anew in between. -/
def emptied (item : Item) (m n : Nat) : List Request :=
  .write item [] :: (List.replicate m .reopen ++ .read item :: .delete item ::
    (List.replicate n .reopen ++ [.delete item]))

/-- Empty data counts as absent for reading but not for deleting. -/
def emptiedAnswers (item : Item) (m n : Nat) : List Answer :=
  .ok none :: (List.replicate m (.ok none) ++ .error (.notFound item.name) :: .ok none ::
    (List.replicate n (.ok none) ++ [.error (.notFound item.name)]))

theorem answers_emptied (items : Item → Option Bytes) (item : Item) (m n : Nat) :
    answers Request.plain items (emptied item m n) = emptiedAnswers item m n := by
  have hreopen : ∀ items, Request.plain .reopen items = (.ok none, items) := fun _ => rfl
  rw [emptied, answers, answers_replicate_reopen (hreopen _), answers, answers,
    answers_replicate_reopen (hreopen _), answers, answers]
  simp only [Request.plain, Function.update_self, Item.answer, Item.deletion, Option.isSome_some,
    Option.isSome_none, if_true, Bool.false_eq_true, if_false, Request.ofResult, Except.map]
  rfl

/-! ## Storages like plain maps -/

/-- A storage that keeps its items, refuses writes for some reasons only, and tells whether there
was something to delete. -/
structure KeptItems.Exact {σ : Type} [ItemStorage σ] {reopen : σ → Except StorageError σ}
    (K : KeptItems σ reopen) (refusal : StorageError → Prop) : Prop where
  write_error : ∀ {s s' : σ} {item : Item} {data : Bytes} {e : StorageError}, K.Valid s →
    ItemStorage.write item.name data s = .error e s' → refusal e
  delete_eq : ∀ {s : σ} (item : Item), K.Valid s →
    ∃ s', ItemStorage.delete item.name s = item.deletion (K.stored? s item) s'

namespace KeptItems.Exact

variable {σ : Type} [ItemStorage σ] {reopen : σ → Except StorageError σ} {K : KeptItems σ reopen}
  {refusal : StorageError → Prop} {s : σ}

/-- **A storage answers a request like the plain map of its items, or refuses a write.** -/
theorem step (E : K.Exact refusal) (hs : K.Valid s) (request : Request) :
    (∃ e, (request.run reopen s).1 = .error e ∧ refusal e) ∨
    K.Valid (request.run reopen s).2 ∧ request.plain (K.stored? s)
      = ((request.run reopen s).1, K.stored? (request.run reopen s).2) := by
  cases request with
  | write item data =>
    rcases K.write_cases item data hs with ⟨s', hwrite, hs', hstored⟩ | ⟨e, s', hwrite, -⟩
    · have hrun : (Request.write item data).run reopen s = (.ok none, s') :=
        congrArg Request.ofResult hwrite
      rw [hrun]
      exact .inr ⟨hs', by rw [hstored]; rfl⟩
    · have hrun : (Request.write item data).run reopen s = (.error e, s') :=
        congrArg Request.ofResult hwrite
      rw [hrun]
      exact .inl ⟨e, rfl, E.write_error hs hwrite⟩
  | read item =>
    have hread : ItemStorage.read s item.name = item.answer (K.stored? s item) := K.read_eq item hs
    refine .inr ⟨hs, ?_⟩
    rw [Request.plain, Request.run, hread]
  | delete item =>
    obtain ⟨s', hdelete⟩ := E.delete_eq item hs
    obtain ⟨s'', hgone, hs', hstored⟩ := K.delete_eq item hs
    rw [Vault.delete_of_deletion hdelete] at hgone
    cases hgone
    rw [Request.plain, Request.run, hdelete, ← hstored]
    refine .inr ?_
    cases hitem : K.stored? s item with
    | none => exact ⟨hs', rfl⟩
    | some data => exact ⟨hs', rfl⟩
  | reopen =>
    obtain ⟨s', hreopen, hs', hstored⟩ := K.reopen_eq hs
    rw [Request.run, hreopen]
    exact .inr ⟨hs', by rw [hstored]; rfl⟩

/-- **Until it refuses a write, a storage answers like the plain map of its items.** -/
theorem answers_eq (E : K.Exact refusal) (hs : K.Valid s) {requests : List Request}
    (hrefusal : ∀ e, refusal e → .error e ∉ answers (Request.run reopen) s requests) :
    answers (Request.run reopen) s requests = answers Request.plain (K.stored? s) requests := by
  induction requests generalizing s with
  | nil => rfl
  | cons request rest ih =>
    rw [answers] at hrefusal ⊢
    rcases E.step hs request with ⟨e, hanswer, he⟩ | ⟨hs', hplain⟩
    · exact absurd (hanswer ▸ List.mem_cons_self) (hrefusal e he)
    · have hrest := ih hs' fun e he hmem => hrefusal e he (List.mem_cons_of_mem _ hmem)
      rw [answers, hplain, hrest]

end KeptItems.Exact

/-! ## Directories and partitions -/

/-- A directory where calls take the paths of all temporary files refuses nothing. -/
theorem ItemDirectory.exact {root : Path}
    (hreach : ∀ item : Item, reachFault? root (item.name ++ temporarySuffix) = none) :
    (keptItems fun item => reach_of_temporary (hreach item)).Exact fun _ => False where
  write_error {s s' item data e} hs hwrite := by
    have hfault : reachFault? s.root (item.name ++ temporarySuffix) = none := by
      rw [hs.root_eq]
      exact hreach item
    have hfree : s.disk.node? (temporaryOf s.place item.name) ≠ some .directory := by
      rw [hs.temporaries item]
      nofun
    obtain ⟨d, hok, -⟩ := write_of_reach data hfault hfree (hs.files item)
    replace hwrite : write item.name data s = .error e s' := hwrite
    rw [hok] at hwrite
    cases hwrite
  delete_eq item hs := by
    obtain ⟨s', -, -, hdelete⟩ := hs.delete_eq (fun item => reach_of_temporary (hreach item)) item
    exact ⟨s', hdelete⟩

/-- A partition refuses a write only if there is no room for it. -/
theorem Partition.exact :
    Partition.keptItems.Exact fun e => ∃ needed available, e = .storageFull needed available where
  write_error {p q item data e} hp hwrite := by
    replace hwrite : (Call.write item.name data).run p = .error e q := hwrite
    rcases hp.write_cases item data with ⟨q', hok, -⟩ | ⟨needed, herror⟩
    · rw [hok] at hwrite
      cases hwrite
    · rw [herror] at hwrite
      cases hwrite
      exact ⟨needed, _, rfl⟩
  delete_eq item hp := by
    obtain ⟨q, -, -, hdelete⟩ := hp.delete_eq item
    exact ⟨q, hdelete⟩

/-- **An empty directory and an erased chip answer alike**, and like a plain map, for as long as
the chip has room; and whatever was asked before, empty data is absent for a reader and can be
deleted once. -/
theorem interchangeable {root : Path} {d d' : Disk} {s : ItemDirectory} {n sectorSize : Nat}
    {p : Partition FlashChip} (hopen : ItemDirectory.open root d = .ok s d')
    (hempty : ∀ name, s.disk.node? (name :: s.place) = none)
    (hreach : ∀ item : Item,
      ItemDirectory.reachFault? root (item.name ++ ItemDirectory.temporarySuffix) = none)
    (hmount : Partition.mount (FlashChip.ofImage (Bytes.erased n) sectorSize) = .ok p)
    (hsmall : p.maxPayload < 2 ^ 32) {requests : List Request}
    (hroom : ∀ needed available, .error (.storageFull needed available) ∉
      answers (Request.run Partition.remount) p requests) :
    answers (Request.run ItemDirectory.reopen) s requests
        = answers (Request.run Partition.remount) p requests ∧
      answers (Request.run Partition.remount) p requests
        = answers Request.plain (fun _ => none) requests ∧
      ∀ before item m n, requests = before ++ emptied item m n →
        answers (Request.run Partition.remount) p requests
          = answers (Request.run Partition.remount) p before ++ emptiedAnswers item m n := by
  obtain ⟨htidy, hnone⟩ := ItemDirectory.tidy_of_open hopen hempty
  obtain ⟨hintact, hnone'⟩ := Partition.intact_of_erased hmount hsmall
  have hdirectory : answers (Request.run ItemDirectory.reopen) s requests
      = answers Request.plain (fun _ => none) requests := by
    rw [← hnone]
    exact (ItemDirectory.exact hreach).answers_eq htidy fun _ => False.elim
  have hchip : ∀ before : List Request, before <+: requests →
      answers (Request.run Partition.remount) p before
        = answers Request.plain (fun _ => none) before := by
    rintro before ⟨more, rfl⟩
    rw [← hnone']
    refine Partition.exact.answers_eq hintact ?_
    rintro e ⟨needed, available, rfl⟩ hmem
    refine hroom needed available ?_
    rw [answers_append]
    exact List.mem_append_left _ hmem
  refine ⟨hdirectory.trans (hchip requests (List.prefix_refl _)).symm,
    hchip requests (List.prefix_refl _), ?_⟩
  rintro before item m n rfl
  rw [hchip _ (List.prefix_refl _), hchip before (List.prefix_append _ _), answers_append,
    answers_emptied]

/-- An item of the blank partition is written as long as there is room. -/
theorem write_blank (item : Item) (data : Bytes)
    (hfit : (ItemTable.encode (Partition.blank.items.insert item.id data)).length
      ≤ Partition.blank.maxPayload) :
    ∃ p, ItemStorage.write item.name data Partition.blank = .ok () p ∧
      Partition.remount p = .ok p ∧ p.stored? item = some data := by
  have hsettled := Partition.settled_of_mount Partition.mount_blank (by decide) rfl
  have hid : Partition.idOf item.name = .ok item.id :=
    Partition.Call.idOf_eq (Item.ofName?_name item)
  have hnew : Partition.blank.items.get? item.id ≠ some data := nofun
  have hwrite : ItemStorage.write item.name data Partition.blank
      = Partition.commit (Partition.blank.items.insert item.id data) Partition.blank := by
    show Partition.write item.name data Partition.blank = _
    rw [Partition.write, hid]
    exact if_neg hnew
  refine ⟨_, hwrite.trans (hsettled.commit_eq hfit), hsettled.sound.mount_committed hfit, ?_⟩
  exact SortedMap.get?_insert_self ..

theorem interchangeable_blank :
    ∃ s d', ItemDirectory.open (ItemDirectory.slashes 1) ⟨.empty, []⟩ = .ok s d' ∧
      answers (Request.run ItemDirectory.reopen) s
          [.write .privateKey [], .reopen, .read .privateKey]
        = answers (Request.run Partition.remount) Partition.blank
          [.write .privateKey [], .reopen, .read .privateKey] := by
  have hopen := ItemDirectory.open_of_find
    (ItemDirectory.find_slashes ⟨.empty, []⟩ (n := 1) (by decide) (by decide))
  obtain ⟨p, hwrite, hremount, hstored⟩ := write_blank .privateKey [] (by decide)
  have hread : ItemStorage.read p Item.privateKey.name = .error (.notFound "key.der") := by
    have hanswer : ItemStorage.read p Item.privateKey.name = _ :=
      Partition.Intact.read_eq .privateKey
    rw [hanswer, hstored]
    rfl
  have hanswers : answers (Request.run Partition.remount) Partition.blank
      [.write .privateKey [], .reopen, .read .privateKey]
      = [.ok none, .ok none, .error (.notFound "key.der")] := by
    simp only [answers, Request.run, hwrite, Request.ofResult, hremount, hread, Except.map]
  refine ⟨_, _, hopen, (interchangeable hopen (fun _ => ItemDirectory.node?_sweep_of_none rfl)
    (fun item => ?_) Partition.mount_blank (by decide) fun needed available hmem => ?_).1⟩
  · cases item <;> decide
  · rw [hanswers] at hmem
    simp at hmem

/-- An item whose temporary file is out of reach cannot be written. -/
theorem answers_out_of_reach {s : ItemDirectory} {item : Item} {data : Bytes} {e : IoError}
    (hfault : ItemDirectory.reachFault? s.root (item.name ++ ItemDirectory.temporarySuffix)
      = some e) :
    answers (Request.run ItemDirectory.reopen) s [.write item data] = [.error (.io e)] := by
  have hwrite : ItemStorage.write item.name data s = .error (.io e) s :=
    ItemDirectory.write_of_fault hfault
  simp only [answers, Request.run, hwrite, Request.ofResult]

/-- Where the path of a temporary file is too long, an item cannot be written, but on a chip it
can. -/
theorem not_interchangeable_slashes :
    ∃ s d', ItemDirectory.open (ItemDirectory.slashes 4080) ⟨.empty, []⟩ = .ok s d' ∧
      (∀ name, s.disk.node? (name :: s.place) = none) ∧
      answers (Request.run ItemDirectory.reopen) s [.write .deployment [1]]
        = [.error (.io .nameTooLong)] ∧
      Partition.mount (FlashChip.ofImage (Bytes.erased 64) 32) = .ok Partition.blank ∧
      Partition.blank.maxPayload < 2 ^ 32 ∧
      answers (Request.run Partition.remount) Partition.blank [.write .deployment [1]]
        = [.ok none] := by
  have hopen := ItemDirectory.open_of_find
    (ItemDirectory.find_slashes ⟨.empty, []⟩ (n := 4080) (by decide) (by decide))
  refine ⟨_, _, hopen, fun _ => ItemDirectory.node?_sweep_of_none rfl, answers_out_of_reach ?_,
    Partition.mount_blank, by decide, ?_⟩
  · show ItemDirectory.reachFault? (ItemDirectory.slashes 4080) _ = _
    rw [ItemDirectory.reachFault?_slashes_eq (by decide) (by decide) (by decide),
      if_pos (by decide)]
  · obtain ⟨p, hwrite, -⟩ := write_blank Item.deployment [1] (by decide)
    simp only [answers, Request.run, hwrite, Request.ofResult]

end UpdateVault
