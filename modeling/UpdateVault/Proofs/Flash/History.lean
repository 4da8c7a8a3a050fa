import Mathlib.Data.List.DropRight
import Mathlib.Data.List.Sort
import UpdateVault.Proofs.Flash.Chip
import UpdateVault.Proofs.Update

/-!
# The history of a chip

Whatever is asked of a chip, each of its cells holds what the history of the chip says: the bytes
that were programmed over it since its sector was last erased (`cells_by_history`). What a request
adds to the history depends on the sectors, the length and the pending loss of power of the chip
only (`Operation.changes`, `Answers`).
-/

namespace UpdateVault

namespace Flash

variable {size start len s : Nat}

/-! ## Stretches -/

/-- The sectors that have a byte in common with a stretch, in ascending order. -/
def overlapping (size start len : Nat) : List Nat :=
  (List.range (start + len)).filter fun s =>
    max start (s * size) < min (start + len) ((s + 1) * size)

theorem mem_overlapping (hsize : 0 < size) (hlen : 0 < len) :
    s ∈ overlapping size start len ↔ start / size ≤ s ∧ s ≤ (start + len - 1) / size := by
  have hself : s ≤ s * size := Nat.le_mul_of_pos_right s hsize
  have hnext : (s + 1) * size = s * size + size := Nat.succ_mul ..
  have hfirst : start / size ≤ s ↔ start < (s + 1) * size := by
    rw [← Nat.lt_succ_iff, Nat.div_lt_iff_lt_mul hsize]
  rw [hfirst, Nat.le_div_iff_mul_le hsize, overlapping, List.mem_filter, List.mem_range,
    decide_eq_true_eq]
  omega

theorem overlapping_zero : overlapping size start 0 = [] := by
  refine List.filter_eq_nil_iff.2 fun s _ => ?_
  rw [decide_eq_true_eq]
  omega

theorem overlapping_eq (hsize : 0 < size) (hlen : 0 < len) :
    overlapping size start len
      = List.range' (start / size) ((start + len - 1) / size + 1 - start / size) := by
  have hle : start / size ≤ (start + len - 1) / size := Nat.div_le_div_right (by omega)
  refine List.Pairwise.eq_of_mem_iff (r := (· < ·)) (List.pairwise_lt_range.filter _)
    List.pairwise_lt_range' fun s => ?_
  rw [mem_overlapping hsize hlen, List.mem_range'_1]
  omega

end Flash

namespace FlashMemory

variable {φ : Type} [FlashMemory φ]

theorem eraseSectors_eq_forM (first count : Nat) :
    (eraseSectors first count : Update IoError φ Unit)
      = forM (List.range' first count) eraseSector := by
  induction count generalizing first with
  | zero => rfl
  | succ count ih => rw [eraseSectors, ih, List.range'_succ, List.forM_cons]

/-- **A stretch is erased sector by sector**, those that overlap it and no others, up to the first
that fails. -/
theorem eraseStretch_eq_forM (device : φ) (hsize : 0 < sectorSize device) (start len : Nat) :
    eraseStretch start len device
      = (forM (Flash.overlapping (sectorSize device) start len) eraseSector :
          Update IoError φ Unit) device := by
  rw [eraseStretch_apply]
  rcases Nat.eq_zero_or_pos len with rfl | hlen
  · rw [if_pos rfl, Flash.overlapping_zero]
    rfl
  · rw [if_neg (Nat.pos_iff_ne_zero.1 hlen), if_neg (Nat.pos_iff_ne_zero.1 hsize),
      Flash.overlapping_eq hsize hlen, eraseSectors_eq_forM]

end FlashMemory

namespace FlashChip

open Flash (addressLimit eraseAt overlapping programAt readAt)

variable {chip chip' chip'' : FlashChip} {size i : Nat} {image : Bytes}

/-! ## Cells -/

/-- What happens to the cells of a chip. -/
inductive CellChange
  | erased (sector : Nat)
  | programmed (offset : Nat) (data : Bytes)
  deriving DecidableEq, Repr

variable {c : CellChange} {past later : List CellChange}

namespace CellChange

/-- Whether a change erases the sector that a cell is in. -/
def erases (size i : Nat) : CellChange → Bool
  | erased sector => i / size = sector
  | programmed .. => false

/-- The byte that a change programs over a cell. -/
def over? (i : Nat) : CellChange → Option UInt8
  | erased _ => none
  | programmed offset data => if offset ≤ i then data[i - offset]? else none

/-- The content of a cell after a history: what it held at first, or `0xFF` if its sector has been
erased, less the bits that were not set in a byte programmed over it since. -/
def cell (size i : Nat) (history : List CellChange) (first : UInt8) : UInt8 :=
  ((history.rtakeWhile fun c => !c.erases size i).filterMap (over? i)).foldl (· &&& ·)
    (if history.any (erases size i) then 0xFF else first)

/-- The content of a cell after one more change. -/
def next (size i : Nat) (b : UInt8) (c : CellChange) : UInt8 :=
  if c.erases size i then 0xFF else b &&& (c.over? i).getD 0xFF

theorem cell_concat (first : UInt8) :
    cell size i (past ++ [c]) first = c.next size i (cell size i past first) := by
  rw [cell, List.rtakeWhile_concat, List.any_append, List.any_cons, List.any_nil, Bool.or_false,
    next]
  cases herases : c.erases size i with
  | true => simp
  | false =>
    simp only [Bool.not_false, if_true, Bool.or_false, Bool.false_eq_true, if_false,
      List.filterMap_append, List.foldl_append]
    cases hover : c.over? i with
    | none => simp [hover, cell]
    | some b => simp [hover, cell]

theorem cell_append (first : UInt8) :
    cell size i (past ++ later) first = cell size i later (cell size i past first) := by
  induction later using List.reverseRecOn with
  | nil => rw [List.append_nil]; rfl
  | append_singleton later c ih =>
    rw [← List.append_assoc, cell_concat, ih, cell_concat]

/-- A cell whose sector is not erased has no bit that it did not have before. -/
theorem cell_and (h : past.any (erases size i) = false) (first : UInt8) :
    cell size i past first &&& first = cell size i past first := by
  have hfold : ∀ (bytes : List UInt8) (b : UInt8),
      bytes.foldl (· &&& ·) b &&& b = bytes.foldl (· &&& ·) b := by
    intro bytes
    induction bytes with
    | nil => exact fun b => UInt8.and_self
    | cons x rest ih =>
      intro b
      have hrest := ih (b &&& x)
      rw [List.foldl_cons]
      calc rest.foldl (· &&& ·) (b &&& x) &&& b
          = rest.foldl (· &&& ·) (b &&& x) &&& (b &&& x) &&& b := by rw [hrest]
        _ = rest.foldl (· &&& ·) (b &&& x) &&& (b &&& x) := by
          rw [UInt8.and_assoc, UInt8.and_comm b x, UInt8.and_assoc, UInt8.and_self]
        _ = rest.foldl (· &&& ·) (b &&& x) := hrest
  rw [cell, h]
  exact hfold _ _

/-! ## Changes of an image -/

/-- The change touches nothing beyond the image. -/
def Inside (size length : Nat) : CellChange → Prop
  | erased sector => (sector + 1) * size ≤ length
  | programmed offset data => offset + data.length ≤ length

/-- The image after a change. -/
def apply (size : Nat) (image : Bytes) : CellChange → Bytes
  | erased sector => eraseAt image (sector * size) size
  | programmed offset data => programAt image offset data

theorem length_apply (h : c.Inside size image.length) :
    (c.apply size image).length = image.length := by
  cases c with
  | erased sector => exact Flash.length_eraseAt (Nat.succ_mul .. ▸ h)
  | programmed offset data => exact Flash.length_programAt

theorem getElem?_apply (hsize : 0 < size) (h : c.Inside size image.length) :
    (c.apply size image)[i]? = image[i]?.map (c.next size i ·) := by
  cases c with
  | erased sector =>
    have hin : sector * size + size ≤ image.length := Nat.succ_mul .. ▸ h
    have hsector : i / size = sector ↔ sector * size ≤ i ∧ i < sector * size + size := by
      rw [Nat.div_eq_iff hsize]
      omega
    rw [apply, Flash.getElem?_eraseAt hin]
    simp only [next, erases, over?, Option.getD_none, Flash.and_erased, decide_eq_true_eq, hsector]
    split
    · rw [List.getElem?_eq_getElem (by omega)]
      rfl
    · exact Option.map_id'.symm
  | programmed offset data =>
    rw [apply, Flash.getElem?_programAt h]
    congr 1
    funext b
    rw [next, erases, if_neg Bool.false_ne_true, over?, Flash.mask]
    split <;> rfl

end CellChange

open CellChange (cell)

/-- A chip has become another one by changes of its cells. -/
structure ChangedBy (chip : FlashChip) (history : List CellChange) (chip' : FlashChip) :
    Prop where
  sectorSize_eq : chip'.sectorSize = chip.sectorSize
  length_eq : chip'.image.length = chip.image.length
  cell_eq : ∀ i, chip'.image[i]? = chip.image[i]?.map (cell chip.sectorSize i history)

namespace ChangedBy

theorem refl (chip : FlashChip) : chip.ChangedBy [] chip :=
  ⟨rfl, rfl, fun _ => Option.map_id'.symm⟩

/-- One change within the chip. -/
theorem single (hsize : 0 < chip.sectorSize) (hin : c.Inside chip.sectorSize chip.image.length)
    (hsectors : chip'.sectorSize = chip.sectorSize)
    (himage : chip'.image = c.apply chip.sectorSize chip.image) : chip.ChangedBy [c] chip' := by
  refine ⟨hsectors, himage ▸ c.length_apply hin, fun i => ?_⟩
  rw [himage, CellChange.getElem?_apply hsize hin]
  congr 1
  funext b
  exact (@CellChange.cell_concat chip.sectorSize i c [] b).symm

theorem trans (h : chip.ChangedBy past chip') (h' : chip'.ChangedBy later chip'') :
    chip.ChangedBy (past ++ later) chip'' := by
  refine ⟨h'.sectorSize_eq.trans h.sectorSize_eq, h'.length_eq.trans h.length_eq, fun i => ?_⟩
  rw [h'.cell_eq, h.cell_eq, h.sectorSize_eq, Option.map_map]
  congr 1
  funext b
  exact (CellChange.cell_append b).symm

end ChangedBy

/-! ## Operations -/

/-- What is done with a chip. -/
inductive Operation
  | read (offset len : Nat)
  | program (offset : Nat) (data : Bytes)
  | eraseSector (sector : Nat)
  | eraseStretch (start len : Nat)
  | tearNext (keep : Nat)
  deriving DecidableEq, Repr

namespace Operation

/-- The chip after an operation, whether it succeeds or fails. -/
def after : Operation → FlashChip → FlashChip
  | read .., chip => chip
  | program offset data, chip => Update.after (FlashMemory.program offset data) chip
  | eraseSector sector, chip => Update.after (FlashMemory.eraseSector sector) chip
  | eraseStretch start len, chip => Update.after (FlashMemory.eraseStretch start len) chip
  | tearNext keep, chip => chip.tearNext keep

/-- The chip after operations, one after the other. -/
def afterAll (ops : List Operation) (chip : FlashChip) : FlashChip :=
  ops.foldl (fun chip op => op.after chip) chip

/-- What an operation does to the cells: programming within the chip what comes before a pending
loss of power, and erasing the sectors before the first that is out of range. -/
def changes (chip : FlashChip) : Operation → List CellChange
  | read .. | tearNext _ => []
  | program offset data =>
    if offset + data.length ≤ chip.image.length then
      match chip.tear with
      | none => [.programmed offset data]
      | some keep => [.programmed offset (data.take keep)]
    else []
  | eraseSector sector =>
    if (sector + 1) * chip.sectorSize ≤ chip.image.length then [.erased sector] else []
  | eraseStretch start len =>
    ((overlapping chip.sectorSize start len).takeWhile fun sector =>
      (sector + 1) * chip.sectorSize ≤ chip.image.length).map .erased

/-- What operations do to the cells, one after the other. -/
def history : List Operation → FlashChip → List CellChange
  | [], _ => []
  | op :: rest, chip => op.changes chip ++ history rest (op.after chip)

end Operation

/-! ## Answers -/

/-- What a chip does with requests. Out of bounds they fail and nothing changes, a pending loss of
power included. Within bounds a read gives what is there, a sector is erased, and programming uses
up a pending loss of power, which makes it fail if bytes are left. A loss of power is pending from
when the chip is told of it. -/
structure Answers (chip : FlashChip) : Prop where
  read_inside : ∀ offset len, offset + len ≤ chip.image.length →
    FlashMemory.read chip offset len = .ok (readAt chip.image offset len)
  read_outside : ∀ offset len, chip.image.length < offset + len →
    ∃ e, FlashMemory.read chip offset len = .error e
  program_inside : ∀ offset data, offset + data.length ≤ chip.image.length →
    ∃ chip', chip'.tear = none ∧
      (FlashMemory.program offset data chip = .error .powerLost chip' ∧
          (∃ keep, chip.tear = some keep ∧ keep < data.length) ∨
        FlashMemory.program offset data chip = .ok () chip' ∧
          ∀ keep, chip.tear = some keep → data.length ≤ keep)
  program_outside : ∀ offset data, chip.image.length < offset + data.length →
    ∃ e, FlashMemory.program offset data chip = .error e chip
  erase_inside : ∀ sector, (sector + 1) * chip.sectorSize ≤ chip.image.length →
    ∃ chip', chip'.tear = chip.tear ∧ FlashMemory.eraseSector sector chip = .ok () chip'
  erase_outside : ∀ sector, chip.image.length < (sector + 1) * chip.sectorSize →
    ∃ e, FlashMemory.eraseSector sector chip = .error e chip
  eraseStretch_eq : ∀ start len,
    FlashMemory.eraseStretch start len chip =
      (forM (overlapping chip.sectorSize start len) FlashMemory.eraseSector :
        Update IoError FlashChip Unit) chip
  tear_next : ∀ keep, (chip.tearNext keep).tear = some keep

/-- Every sector of a chip has an address. -/
theorem eraseSector_inside (hsize : 0 < chip.sectorSize)
    (hlimit : chip.image.length ≤ addressLimit) (sector : Nat)
    (h : (sector + 1) * chip.sectorSize ≤ chip.image.length) :
    (FlashMemory.eraseSector sector : Update IoError FlashChip Unit) chip = .ok ()
      (chip.withImage (eraseAt chip.image (sector * chip.sectorSize) chip.sectorSize)) := by
  have hnext : (sector + 1) * chip.sectorSize = sector * chip.sectorSize + chip.sectorSize :=
    Nat.succ_mul ..
  exact eraseSector_eq chip sector h (by omega)

theorem eraseSector_outside (sector : Nat)
    (h : chip.image.length < (sector + 1) * chip.sectorSize) :
    ∃ e, (FlashMemory.eraseSector sector : Update IoError FlashChip Unit) chip = .error e chip := by
  rw [Nat.succ_mul] at h
  simp only [FlashMemory.eraseSector, FlashChip.eraseSector, Flash.sectorAddress,
    Flash.ensureInside, if_neg (Nat.not_le.2 h)]
  split
  · rename_i e he
    exact ⟨e, rfl⟩
  · rename_i start hstart
    split at hstart <;> cases hstart

/-- Programming within the chip reaches as many bytes as come before a loss of power. -/
theorem after_program {offset : Nat} {data : Bytes}
    (h : offset + data.length ≤ chip.image.length) :
    Update.after (FlashMemory.program offset data) chip = { chip with
      image := programAt chip.image offset (data.take (chip.reach data)), tear := none } := by
  have hprogram := program_eq chip h
  by_cases hreach : chip.reach data < data.length
  · rw [if_pos hreach] at hprogram
    exact Update.after_of_error hprogram
  · rw [if_neg hreach] at hprogram
    rw [Update.after_of_ok hprogram, List.take_of_length_le (Nat.not_lt.1 hreach)]

/-- Programming uses up a pending loss of power, and fails if that comes before the last byte. -/
theorem program_inside {offset : Nat} {data : Bytes}
    (h : offset + data.length ≤ chip.image.length) :
    ∃ chip', chip'.tear = none ∧
      (FlashMemory.program offset data chip = .error .powerLost chip' ∧
          (∃ keep, chip.tear = some keep ∧ keep < data.length) ∨
        FlashMemory.program offset data chip = .ok () chip' ∧
          ∀ keep, chip.tear = some keep → data.length ≤ keep) := by
  have hprogram := program_eq chip h
  rw [reach] at hprogram
  cases htear : chip.tear with
  | none =>
    rw [htear, Option.getD_none, if_neg (Nat.lt_irrefl _)] at hprogram
    refine ⟨_, rfl, .inr ⟨hprogram, fun keep hkeep => ?_⟩⟩
    cases hkeep
  | some keep =>
    rw [htear, Option.getD_some] at hprogram
    by_cases hkeep : keep < data.length
    · rw [if_pos hkeep] at hprogram
      exact ⟨_, rfl, .inl ⟨hprogram, keep, rfl, hkeep⟩⟩
    · rw [if_neg hkeep] at hprogram
      refine ⟨_, rfl, .inr ⟨hprogram, fun keep' hkeep' => ?_⟩⟩
      rw [← Option.some.inj hkeep']
      exact Nat.not_lt.1 hkeep

theorem program_outside {offset : Nat} {data : Bytes}
    (h : chip.image.length < offset + data.length) :
    ∃ e, (FlashMemory.program offset data : Update IoError FlashChip Unit) chip
      = .error e chip := by
  refine ⟨.outOfBounds offset data.length chip.image.length, ?_⟩
  simp only [FlashMemory.program, program, Flash.ensureInside, if_neg (Nat.not_le.2 h)]

theorem read_outside {offset len : Nat} (h : chip.image.length < offset + len) :
    ∃ e, FlashMemory.read chip offset len = .error e := by
  refine ⟨.outOfBounds offset len chip.image.length, ?_⟩
  simp only [FlashMemory.read, read, Flash.ensureInside, if_neg (Nat.not_le.2 h)]
  rfl

theorem answers (hsize : 0 < chip.sectorSize) (hlimit : chip.image.length ≤ addressLimit) :
    chip.Answers where
  read_inside _ _ := chip.read_eq
  read_outside _ _ := read_outside
  program_inside _ _ := program_inside
  program_outside _ _ := program_outside
  erase_inside sector h := by
    refine ⟨chip.withImage _, ?_, eraseSector_inside hsize hlimit sector h⟩
    rfl
  erase_outside := eraseSector_outside
  eraseStretch_eq := FlashMemory.eraseStretch_eq_forM chip hsize
  tear_next _ := rfl

/-! ## Histories -/

namespace Operation

theorem changedBy_program (hsize : 0 < chip.sectorSize) (offset : Nat) (data : Bytes) :
    chip.ChangedBy ((program offset data).changes chip) ((program offset data).after chip) := by
  rw [changes, after]
  split
  · rename_i hin
    rw [after_program hin]
    have hchange : chip.ChangedBy [.programmed offset (data.take (chip.reach data))] { chip with
        image := programAt chip.image offset (data.take (chip.reach data)), tear := none } := by
      refine .single hsize ?_ rfl rfl
      rw [CellChange.Inside, List.length_take]
      omega
    have hdata : chip.tear = none → data.take (chip.reach data) = data := by
      intro htear
      rw [reach, htear, Option.getD_none, List.take_length]
    cases htear : chip.tear with
    | none => rwa [hdata htear] at hchange ⊢
    | some keep =>
      rw [reach, htear] at hchange ⊢
      exact hchange
  · rename_i hout
    obtain ⟨e, herror⟩ := program_outside (Nat.not_le.1 hout)
    rw [Update.after_of_error herror]
    exact .refl chip

theorem changedBy_eraseSector (hsize : 0 < chip.sectorSize)
    (hlimit : chip.image.length ≤ addressLimit) (sector : Nat) :
    chip.ChangedBy ((eraseSector sector).changes chip) ((eraseSector sector).after chip) := by
  rw [changes, after]
  split
  · rename_i hin
    rw [Update.after_of_ok (eraseSector_inside hsize hlimit sector hin)]
    exact .single hsize hin rfl rfl
  · rename_i hout
    obtain ⟨e, herror⟩ := eraseSector_outside sector (Nat.not_le.1 hout)
    rw [Update.after_of_error herror]
    exact .refl chip

/-- Sectors erased one after the other, up to the first that is out of range. -/
theorem changedBy_forM (hsize : 0 < chip.sectorSize)
    (hlimit : chip.image.length ≤ addressLimit) (sectors : List Nat) :
    chip.ChangedBy
      ((sectors.takeWhile fun sector =>
        (sector + 1) * chip.sectorSize ≤ chip.image.length).map .erased)
      (Update.after (forM sectors FlashMemory.eraseSector) chip) := by
  induction sectors generalizing chip with
  | nil => exact .refl chip
  | cons sector rest ih =>
    have hfirst := changedBy_eraseSector hsize hlimit sector
    rw [List.forM_cons, Update.after]
    by_cases hin : (sector + 1) * chip.sectorSize ≤ chip.image.length
    · have hone := eraseSector_inside hsize hlimit sector hin
      rw [changes, if_pos hin, after, Update.after_of_ok hone] at hfirst
      generalize chip.withImage _ = next at hone hfirst
      have hsize' : 0 < next.sectorSize := hfirst.sectorSize_eq ▸ hsize
      have hlimit' : next.image.length ≤ addressLimit := hfirst.length_eq ▸ hlimit
      have hrest := ih hsize' hlimit'
      rw [hfirst.sectorSize_eq, hfirst.length_eq] at hrest
      rw [Update.bind_ok hone, List.takeWhile_cons_of_pos (by simpa using hin), List.map_cons]
      exact hfirst.trans hrest
    · obtain ⟨e, herror⟩ := eraseSector_outside sector (Nat.not_le.1 hin)
      rw [Update.bind_error herror, List.takeWhile_cons_of_neg (by simpa using hin)]
      exact .refl chip

theorem changedBy (hsize : 0 < chip.sectorSize) (hlimit : chip.image.length ≤ addressLimit)
    (op : Operation) : chip.ChangedBy (op.changes chip) (op.after chip) := by
  cases op with
  | read offset len => exact .refl chip
  | tearNext keep => exact ⟨rfl, rfl, fun _ => Option.map_id'.symm⟩
  | program offset data => exact changedBy_program hsize offset data
  | eraseSector sector => exact changedBy_eraseSector hsize hlimit sector
  | eraseStretch start len =>
    rw [changes, after, Update.after, FlashMemory.eraseStretch_eq_forM chip hsize]
    exact changedBy_forM hsize hlimit _

/-- A chip is changed as its history says. -/
theorem changedBy_history (hsize : 0 < chip.sectorSize)
    (hlimit : chip.image.length ≤ addressLimit) (ops : List Operation) :
    chip.ChangedBy (history ops chip) (afterAll ops chip) := by
  induction ops generalizing chip with
  | nil => exact .refl chip
  | cons op rest ih =>
    have hop := op.changedBy hsize hlimit
    exact hop.trans (ih (hop.sectorSize_eq ▸ hsize) (hop.length_eq ▸ hlimit))

end Operation

open Operation (afterAll history)

/-- **A cell holds what its history says.** Whatever has been done with a chip, each byte of its
image is the one at first, or `0xFF` if its sector has been erased, less the bits that were not set
in what was programmed over it since; so no bit is set again but by erasing its sector. And the chip
answers requests as `Answers` says. -/
theorem cells_by_history (hsize : 0 < chip.sectorSize)
    (hlimit : chip.image.length ≤ addressLimit) (ops : List Operation) :
    (afterAll ops chip).image.length = chip.image.length ∧
      (∀ i, (afterAll ops chip).image[i]?
        = chip.image[i]?.map (cell chip.sectorSize i (history ops chip))) ∧
      (∀ i b b', chip.image[i]? = some b → (afterAll ops chip).image[i]? = some b' →
        (history ops chip).any (CellChange.erases chip.sectorSize i) = false → b' &&& b = b') ∧
      (afterAll ops chip).Answers := by
  have hchanged := Operation.changedBy_history hsize hlimit ops
  refine ⟨hchanged.length_eq, hchanged.cell_eq, ?_,
    answers (hchanged.sectorSize_eq ▸ hsize) (hchanged.length_eq ▸ hlimit)⟩
  intro i b b' hb hb' hnone
  rw [hchanged.cell_eq, hb] at hb'
  obtain rfl := Option.some.inj hb'
  exact CellChange.cell_and hnone b

/-- A chip of two sectors of four bytes and a ninth byte. -/
def ninthByte : FlashChip := .ofImage (List.replicate 9 0xF0) 4

/-- An erase up to the ninth byte, which is in no sector, and programming that loses its power
after the first of three bytes. -/
def tornOperations : List Operation :=
  [.eraseStretch 3 6, .tearNext 1, .program 6 [0x3C, 0x3C, 0x0F], .program 8 [0x0F]]

theorem cells_by_history_torn :
    history tornOperations ninthByte
        = [.erased 0, .erased 1, .programmed 6 [0x3C], .programmed 8 [0x0F]] ∧
      (afterAll tornOperations ninthByte).image
        = [0xFF, 0xFF, 0xFF, 0xFF, 0xFF, 0xFF, 0x3C, 0xFF, 0x00] ∧
      (∀ i, (afterAll tornOperations ninthByte).image[i]?
        = ninthByte.image[i]?.map (cell 4 i (history tornOperations ninthByte))) ∧
      (afterAll tornOperations ninthByte).Answers := by
  have hsize : 0 < ninthByte.sectorSize := by decide
  have hlimit : ninthByte.image.length ≤ addressLimit := by decide
  obtain ⟨-, hcells, -, hanswers⟩ := cells_by_history hsize hlimit tornOperations
  exact ⟨by decide +kernel, by decide +kernel, hcells, hanswers⟩

end FlashChip

end UpdateVault
