import Mathlib.Data.List.Lex
import Mathlib.Tactic.Ring
import UpdateVault.Utf8

/-!
# Texts and their bytes

The order of texts, character by character, is that of their bytes (`encode_lt_of_lt`), as a greater
character has the greater first byte that differs. The byte of an erased cell is in no text
(`erased_notMem_encode`).
-/

namespace UpdateVault.Utf8

variable {c d : Char} {s t : String}

/-- The bytes of a text are those of its characters, one after the other. -/
theorem encode_eq_flatMap (s : String) : encode s = s.toList.flatMap String.utf8EncodeChar := by
  rw [encode, String.toUTF8, ← String.utf8Encode_toList, List.utf8Encode, List.data_toByteArray]

/-! ## Order -/

/-- Four digits of a number, the last three to the base 64, show the order of the numbers. -/
theorem four_digits_lt {v w : Nat} (h : v < w) (hbound : w < 0x110000) (P : Prop) :
    v / 262144 % 8 < w / 262144 % 8 ∨ v / 262144 % 8 = w / 262144 % 8 ∧
      (v / 4096 % 64 < w / 4096 % 64 ∨ v / 4096 % 64 = w / 4096 % 64 ∧
        (v / 64 % 64 < w / 64 % 64 ∨ v / 64 % 64 = w / 64 % 64 ∧
          (v % 64 < w % 64 ∨ v % 64 = w % 64 ∧ P))) := by
  rcases Nat.lt_or_eq_of_le (Nat.div_le_div_right (c := 262144) h.le) with h₁ | h₁
  · exact .inl (by omega)
  refine .inr ⟨by omega, ?_⟩
  rcases Nat.lt_or_eq_of_le (Nat.div_le_div_right (c := 4096) h.le) with h₂ | h₂
  · exact .inl (by omega)
  refine .inr ⟨by omega, ?_⟩
  rcases Nat.lt_or_eq_of_le (Nat.div_le_div_right (c := 64) h.le) with h₃ | h₃
  · exact .inl (by omega)
  exact .inr ⟨by omega, .inl (by omega)⟩

/-- The bytes of a character come before those of a greater one, whatever follows. -/
theorem encodeChar_lt_of_lt (h : c < d) (xs ys : Bytes) :
    String.utf8EncodeChar c ++ xs < String.utf8EncodeChar d ++ ys := by
  have hval : c.val.toNat < d.val.toNat := h
  have hbound : d.val.toNat < 0x110000 := by
    rcases d.valid with hd | ⟨-, hd⟩
    · exact lt_trans hd (by decide)
    · exact hd
  have hbyte (k : Nat) :
      (k % 8 + 240) % 2 ^ 8 = k % 8 + 240 ∧ (k % 16 + 224) % 2 ^ 8 = k % 16 + 224 ∧
      (k % 32 + 192) % 2 ^ 8 = k % 32 + 192 ∧ (k % 64 + 128) % 2 ^ 8 = k % 64 + 128 := by
    omega
  have hlast := four_digits_lt hval hbound (xs < ys)
  rw [String.utf8EncodeChar, String.utf8EncodeChar]
  generalize c.val.toNat = v at hval hlast
  generalize d.val.toNat = w at hval hbound hlast
  -- where the numbers of bytes differ, the first bytes tell; else some digit does
  split_ifs <;>
    simp only [List.cons_append, List.nil_append, List.cons_lt_cons_iff, UInt8.lt_iff_toNat_lt,
      ← UInt8.toNat_inj, UInt8.toNat_ofNat', hbyte, Nat.add_lt_add_iff_right,
      Nat.add_right_cancel_iff] <;>
    first | exact hlast | omega

/-- **The order of texts is that of their bytes.** -/
theorem encode_lt_of_lt (h : s < t) : encode s < encode t := by
  have hchars : s.toList < t.toList := h
  rw [encode_eq_flatMap, encode_eq_flatMap]
  generalize s.toList = cs at hchars
  generalize t.toList = ds at hchars
  induction hchars with
  | @nil d rest =>
    obtain ⟨b, more, hd⟩ := List.exists_cons_of_ne_nil (String.utf8EncodeChar_ne_nil (c := d))
    rw [List.flatMap_nil, List.flatMap_cons, hd]
    exact .nil
  | cons _ ih => exact List.Lex.append_left _ ih _
  | rel h => exact encodeChar_lt_of_lt h _ _

theorem encode_lt_of_compare (h : compare s t = .lt) : encode s < encode t :=
  encode_lt_of_lt (by simpa [compare, String.compare, compareOfLessAndEq_eq_lt] using h)

/-! ## Erased cells -/

/-- No character has a byte of an erased cell. -/
theorem erased_notMem_encode (s : String) : 0xFF ∉ encode s := by
  rw [encode_eq_flatMap, List.mem_flatMap]
  rintro ⟨c, -, hc⟩
  have hsize (n : Nat) (h : n < 255) : (0xFF : UInt8) ≠ UInt8.ofNat n := by
    intro heq
    have := congrArg UInt8.toNat heq
    rw [UInt8.toNat_ofNat', Nat.mod_eq_of_lt (by omega)] at this
    exact absurd this.symm (Nat.ne_of_lt h)
  rw [String.utf8EncodeChar] at hc
  split_ifs at hc <;> simp only [List.mem_cons, List.not_mem_nil, or_false] at hc
  · exact hsize _ (by omega) hc
  · rcases hc with hc | hc <;> exact hsize _ (by omega) hc
  · rcases hc with hc | hc | hc <;> exact hsize _ (by omega) hc
  · rcases hc with hc | hc | hc | hc <;> exact hsize _ (by omega) hc

/-- Text with erased cells behind it is no text any more. -/
theorem decode?_append_erased (s : String) {n : Nat} (hpos : 0 < n) :
    decode? (encode s ++ Bytes.erased n) = none := by
  by_contra hsome
  obtain ⟨t, ht⟩ := Option.ne_none_iff_exists'.1 hsome
  have herased : 0xFF ∈ encode t := by
    rw [← eq_encode_of_decode? ht, Bytes.erased]
    exact List.mem_append_right _ (List.mem_replicate.2 ⟨Nat.pos_iff_ne_zero.1 hpos, rfl⟩)
  exact erased_notMem_encode t herased

end UpdateVault.Utf8
