import Mathlib

/-!
# The UTF-8 bytes of a text, and what is left of them when they are cut

* `encode` — the bytes of a list of characters;
* `cut_split` — a cut goes through exactly one character;
* `decodeChar_encode`, `decodeChar_cut` — the decoder sees the first character of a text, and no
  character in a part of one.
-/

namespace Utf8

/-- The bytes of a text. -/
def encode (cs : List Char) : List UInt8 := cs.flatMap String.utf8EncodeChar

@[simp] theorem encode_nil : encode [] = [] := rfl

@[simp] theorem encode_cons (c : Char) (cs : List Char) :
    encode (c :: cs) = String.utf8EncodeChar c ++ encode cs := rfl

@[simp] theorem encode_append (xs ys : List Char) : encode (xs ++ ys) = encode xs ++ encode ys :=
  List.flatMap_append

theorem encode_length (cs : List Char) : (encode cs).length = (String.ofList cs).utf8ByteSize := by
  rw [← String.size_toByteArray, String.toByteArray_ofList, List.utf8Encode]
  simp [encode]

theorem toByteArray_eq (s : String) : s.toByteArray = ⟨(encode s.toList).toArray⟩ := by
  conv_lhs => rw [← String.ofList_toList (s := s), String.toByteArray_ofList, List.utf8Encode]
  apply ByteArray.ext
  rw [List.data_toByteArray]
  rfl

/-- Every character has at least one byte. -/
theorem length_le_encode (cs : List Char) : cs.length ≤ (encode cs).length := by
  induction cs with
  | nil => exact Nat.le_refl 0
  | cons c cs ih =>
      have hpos := c.utf8Size_pos
      rw [encode_cons, List.length_append, List.length_cons, String.length_utf8EncodeChar]
      omega

theorem toByteArray_append (xs ys : List UInt8) :
    (⟨(xs ++ ys).toArray⟩ : ByteArray) = xs.toByteArray ++ ⟨ys.toArray⟩ := by
  apply ByteArray.ext
  rw [ByteArray.data_append, List.data_toByteArray]
  simp

/-- The decoder sees the first character of a text. -/
theorem decodeChar_encode (c : Char) (rest : List UInt8) :
    ByteArray.utf8DecodeChar? ⟨(String.utf8EncodeChar c ++ rest).toArray⟩ 0 = some c := by
  rw [toByteArray_append, ByteArray.utf8DecodeChar?_utf8EncodeChar_append]

/-- The decoder sees no character in a part of one. -/
theorem decodeChar_cut {c : Char} {j : ℕ} (hj : j < c.utf8Size) :
    ByteArray.utf8DecodeChar? ⟨((String.utf8EncodeChar c).take j).toArray⟩ 0 = none := by
  rw [Option.eq_none_iff_forall_ne_some]
  intro d hd
  -- a character in front of the cut would also stand in front of the whole
  have hwhole :=
    ByteArray.utf8DecodeChar?_append_eq_some hd ⟨((String.utf8EncodeChar c).drop j).toArray⟩
  have hjoin : (⟨((String.utf8EncodeChar c).take j).toArray⟩ : ByteArray) ++
      ⟨((String.utf8EncodeChar c).drop j).toArray⟩ = ⟨(String.utf8EncodeChar c ++ []).toArray⟩ := by
    apply ByteArray.ext
    rw [ByteArray.data_append]
    simp
  rw [hjoin, decodeChar_encode] at hwhole
  have hle := ByteArray.le_size_of_utf8DecodeChar?_eq_some hd
  rw [← Option.some.inj hwhole] at hle
  have hsize : (⟨((String.utf8EncodeChar c).take j).toArray⟩ : ByteArray).size ≤ j := by
    show ((String.utf8EncodeChar c).take j).toArray.size ≤ j
    rw [List.size_toArray]
    exact List.length_take_le _ _
  omega

/-- **A cut goes through one character**, or falls in front of it. -/
theorem cut_split {cs : List Char} {n : ℕ} (h : n < (encode cs).length) :
    ∃ s c rest j, cs = s ++ c :: rest ∧ j < c.utf8Size ∧
      (encode cs).take n = encode s ++ (String.utf8EncodeChar c).take j := by
  induction cs generalizing n with
  | nil => exact absurd h (Nat.not_lt_zero n)
  | cons c cs ih =>
      rw [encode_cons, List.length_append] at h
      by_cases hn : n < c.utf8Size
      · refine ⟨[], c, cs, n, rfl, hn, ?_⟩
        rw [encode_cons,
          List.take_append_of_le_length (by rw [String.length_utf8EncodeChar]; omega)]
        rfl
      · have hlen := String.length_utf8EncodeChar c
        obtain ⟨s, d, rest, j, rfl, hj, htake⟩ := ih (n := n - c.utf8Size) (by omega)
        refine ⟨c :: s, d, rest, j, rfl, hj, ?_⟩
        rw [encode_cons, List.take_append, hlen, htake,
          List.take_of_length_le (by omega), encode_cons,
          List.append_assoc]

end Utf8
