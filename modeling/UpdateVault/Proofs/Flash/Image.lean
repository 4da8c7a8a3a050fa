import Mathlib.Tactic.Ring
import UpdateVault.Flash.Device

/-!
# Images

What erasing and programming do to an image, byte by byte: `getElem?_eraseAt` and
`getElem?_programAt`. The rest follows from the two: a stretch that a change does not touch
reads as before, and a stretch around the change is changed in the same way as the image.
-/

namespace UpdateVault.Flash

open Bytes (erased)

variable {image data : Bytes} {start len offset n i : Nat}

/-! ## Bytes -/

@[simp] theorem length_erased (n : Nat) : (erased n).length = n := List.length_replicate

theorem erased_append (m n : Nat) : erased m ++ erased n = erased (m + n) :=
  List.replicate_append_replicate

theorem getElem?_erased : (erased n)[i]? = if i < n then some 0xFF else none :=
  List.getElem?_replicate

@[simp] theorem and_erased (b : UInt8) : b &&& 0xFF = b := by
  rw [← UInt8.toNat_inj, UInt8.toNat_and]
  have := b.toNat_lt
  exact Nat.and_two_pow_sub_one_of_lt_two_pow (n := 8) this

theorem getElem?_readAt :
    (readAt image offset len)[i]? = if i < len then image[offset + i]? else none := by
  rw [readAt, List.getElem?_take, List.getElem?_drop]

theorem length_readAt (h : offset + len ≤ image.length) :
    (readAt image offset len).length = len := by
  rw [readAt, List.length_take, List.length_drop]
  omega

theorem take_readAt (h : n ≤ len) : (readAt image offset len).take n = readAt image offset n := by
  rw [readAt, List.take_take, Nat.min_eq_left h, readAt]

theorem drop_readAt :
    (readAt image offset len).drop n = readAt image (offset + n) (len - n) := by
  rw [readAt, List.drop_take, List.drop_drop, readAt]

theorem getElem?_eraseAt (h : start + len ≤ image.length) :
    (eraseAt image start len)[i]? =
      if start ≤ i ∧ i < start + len then some 0xFF else image[i]? := by
  have hstart : (image.take start).length = start := by rw [List.length_take]; omega
  rw [eraseAt, List.append_assoc]
  rcases Nat.lt_or_ge i start with hi | hi
  · rw [List.getElem?_append_left (by omega), List.getElem?_take, if_pos hi, if_neg (by omega)]
  · rw [List.getElem?_append_right (by omega), hstart]
    rcases Nat.lt_or_ge i (start + len) with hlt | hge
    · rw [List.getElem?_append_left (by rw [length_erased]; omega), getElem?_erased,
        if_pos (by omega), if_pos ⟨hi, hlt⟩]
    · rw [List.getElem?_append_right (by rw [length_erased]; omega), length_erased,
        List.getElem?_drop, if_neg (by omega)]
      congr 1
      omega

@[simp] theorem length_eraseAt (h : start + len ≤ image.length) :
    (eraseAt image start len).length = image.length := by
  simp only [eraseAt, List.length_append, List.length_take, length_erased, List.length_drop]
  omega

/-- What programming leaves of the bits of a byte: those that the data has set there. Outside
the data it leaves all of them. -/
def mask (offset : Nat) (data : Bytes) (i : Nat) : UInt8 :=
  if offset ≤ i then data[i - offset]?.getD 0xFF else 0xFF

theorem mask_of_lt (h : i < offset) : mask offset data i = 0xFF := if_neg (by omega)

theorem mask_of_ge (h : offset + data.length ≤ i) : mask offset data i = 0xFF := by
  rw [mask, if_pos (by omega), List.getElem?_eq_none (by omega)]
  rfl

theorem map_and_erased (b : Option UInt8) : b.map (· &&& 0xFF) = b := by
  cases b <;> simp

theorem getElem?_programAt (h : offset + data.length ≤ image.length) :
    (programAt image offset data)[i]? = image[i]?.map (· &&& mask offset data i) := by
  have htake : (image.take offset).length = offset := by rw [List.length_take]; omega
  have hzip : (List.zipWith (· &&& ·) ((image.drop offset).take data.length) data).length
      = data.length := by
    rw [List.length_zipWith, List.length_take, List.length_drop]
    omega
  rw [programAt, List.append_assoc]
  rcases Nat.lt_or_ge i offset with hi | hi
  · rw [List.getElem?_append_left (by omega), List.getElem?_take, if_pos hi, mask_of_lt hi,
      map_and_erased]
  · rw [List.getElem?_append_right (by omega), htake]
    rcases Nat.lt_or_ge i (offset + data.length) with hlt | hge
    · have hdata : i - offset < data.length := by omega
      rw [List.getElem?_append_left (by omega), List.getElem?_zipWith', List.getElem?_take,
        if_pos hdata, List.getElem?_drop, show offset + (i - offset) = i by omega,
        mask, if_pos hi, List.getElem?_eq_getElem hdata]
      cases image[i]? <;> rfl
    · rw [List.getElem?_append_right (by omega), hzip, List.getElem?_drop, mask_of_ge hge,
        map_and_erased]
      congr 1
      omega

@[simp] theorem length_programAt :
    (programAt image offset data).length = image.length := by
  simp only [programAt, List.length_append, List.length_take, List.length_zipWith,
    List.length_drop]
  omega

/-! ## Stretches -/

/-- An erase that stays clear of a stretch leaves it. -/
theorem readAt_eraseAt_of_disjoint (h : start + len ≤ image.length)
    (hd : offset + n ≤ start ∨ start + len ≤ offset) :
    readAt (eraseAt image start len) offset n = readAt image offset n := by
  refine List.ext_getElem? fun i => ?_
  rw [getElem?_readAt, getElem?_readAt, getElem?_eraseAt h]
  split
  · rw [if_neg (by omega)]
  · rfl

/-- Programming that stays clear of a stretch leaves it. -/
theorem readAt_programAt_of_disjoint (h : start + data.length ≤ image.length)
    (hd : offset + n ≤ start ∨ start + data.length ≤ offset) :
    readAt (programAt image start data) offset n = readAt image offset n := by
  refine List.ext_getElem? fun i => ?_
  rw [getElem?_readAt, getElem?_readAt, getElem?_programAt h]
  split
  · rcases hd with hd | hd
    · rw [mask_of_lt (by omega), map_and_erased]
    · rw [mask_of_ge (by omega), map_and_erased]
  · rfl

/-- An erase at the beginning of a stretch. -/
theorem readAt_eraseAt_front (h : start + n ≤ image.length) (hlen : len ≤ n) :
    readAt (eraseAt image start len) start n = erased len ++ (readAt image start n).drop len := by
  refine List.ext_getElem? fun i => ?_
  rw [getElem?_readAt, getElem?_eraseAt (by omega)]
  rcases Nat.lt_or_ge i len with hi | hi
  · rw [List.getElem?_append_left (by rw [length_erased]; exact hi), getElem?_erased,
      if_pos (by omega), if_pos (by omega), if_pos hi]
  · rw [List.getElem?_append_right (by rw [length_erased]; exact hi), length_erased,
      List.getElem?_drop, getElem?_readAt, show len + (i - len) = i by omega]
    split
    · rw [if_neg (by omega)]
    · rfl

/-- Programming at the beginning of an erased stretch puts the data there as it is. -/
theorem readAt_programAt_erased (h : start + n ≤ image.length) (hlen : data.length ≤ n)
    (he : readAt image start n = erased n) :
    readAt (programAt image start data) start n = data ++ erased (n - data.length) := by
  refine List.ext_getElem? fun i => ?_
  rw [getElem?_readAt, getElem?_programAt (by omega)]
  have hcell : i < n → image[start + i]? = some 0xFF := by
    intro hi
    have := congrArg (·[i]?) he
    simpa only [getElem?_readAt, getElem?_erased, if_pos hi] using this
  rcases Nat.lt_or_ge i data.length with hi | hi
  · rw [List.getElem?_append_left hi, if_pos (by omega), hcell (by omega), mask,
      if_pos (by omega), Nat.add_sub_cancel_left, List.getElem?_eq_getElem hi, Option.map_some,
      Option.getD_some, UInt8.and_comm, and_erased]
  · rw [List.getElem?_append_right hi, getElem?_erased]
    split
    · rw [hcell (by assumption), mask_of_ge (by omega), if_pos (by omega)]
      simp
    · rw [if_neg (by omega)]

/-- Two erases, one after the other, are one. -/
theorem eraseAt_eraseAt (h : start + (len + n) ≤ image.length) :
    eraseAt (eraseAt image start len) (start + len) n = eraseAt image start (len + n) := by
  have hfirst : start + len ≤ image.length := by omega
  refine List.ext_getElem? fun i => ?_
  rw [getElem?_eraseAt (by rw [length_eraseAt hfirst]; omega), getElem?_eraseAt hfirst,
    getElem?_eraseAt h]
  by_cases hsecond : start + len ≤ i ∧ i < start + len + n
  · rw [if_pos hsecond, if_pos (by omega)]
  · rw [if_neg hsecond]
    by_cases hi : start ≤ i ∧ i < start + len
    · rw [if_pos hi, if_pos (by omega)]
    · rw [if_neg hi, if_neg (by omega)]

theorem programAt_nil (h : offset ≤ image.length) : programAt image offset [] = image := by
  refine List.ext_getElem? fun i => ?_
  rw [getElem?_programAt h]
  rcases Nat.lt_or_ge i offset with hi | hi
  · rw [mask_of_lt hi, map_and_erased]
  · rw [mask_of_ge hi, map_and_erased]

/-- Data may as well be programmed a byte at a time. -/
theorem programAt_cons {b : UInt8} (h : offset + (data.length + 1) ≤ image.length) :
    programAt (programAt image offset [b]) (offset + 1) data
      = programAt image offset (b :: data) := by
  refine List.ext_getElem? fun i => ?_
  rw [getElem?_programAt (by rw [length_programAt]; omega),
    getElem?_programAt (by rw [List.length_singleton]; omega),
    getElem?_programAt (by rw [List.length_cons]; exact h), Option.map_map]
  congr 1
  funext x
  show x &&& mask offset [b] i &&& mask (offset + 1) data i = x &&& mask offset (b :: data) i
  rcases Nat.lt_trichotomy i offset with hi | rfl | hi
  · rw [mask_of_lt hi, mask_of_lt (by omega), mask_of_lt hi, and_erased, and_erased]
  · rw [mask_of_lt (Nat.lt_succ_self i), and_erased]
    simp [mask]
  · obtain ⟨k, rfl⟩ : ∃ k, i = offset + 1 + k := ⟨i - (offset + 1), by omega⟩
    have hb : mask offset [b] (offset + 1 + k) = 0xFF :=
      mask_of_ge (by rw [List.length_singleton]; omega)
    rw [hb, and_erased, mask, mask, if_pos (by omega), if_pos (by omega), Nat.add_sub_cancel_left,
      show offset + 1 + k - offset = k + 1 by omega, List.getElem?_cons_succ]

theorem eraseAt_zero (h : start ≤ image.length) : eraseAt image start 0 = image := by
  refine List.ext_getElem? fun i => ?_
  rw [getElem?_eraseAt (by omega), if_neg (by omega)]

end UpdateVault.Flash
