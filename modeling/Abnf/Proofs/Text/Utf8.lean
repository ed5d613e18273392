import Abnf.Text.Utf8

/-! Characters in UTF-8: the byte that each begins with, and the bytes that a character is read from. The bytes of a text
    are those of its characters, so it is read back from them without a replacement (`Utf8.lossy_bytes`). -/

namespace Abnf

theorem getElem?_eq_data (bytes : ByteArray) (i : Nat) : bytes[i]? = bytes.data[i]? := by
  by_cases h : i < bytes.size
  · rw [getElem?_pos bytes i h]
    exact (Array.getElem?_eq_getElem h).symm
  · rw [getElem?_neg bytes i h]
    exact (Array.getElem?_eq_none (Nat.le_of_not_lt h)).symm

/-- The first byte of a character in UTF-8. --/
theorem exists_head_utf8EncodeChar (c : Char) : ∃ b bs, String.utf8EncodeChar c = b :: bs ∧
    (c.val.toNat < 0x80 → b.toNat = c.val.toNat) ∧ (0x80 ≤ c.val.toNat → 0xC2 ≤ b.toNat ∧ b.toNat ≤ 0xF4) := by
  have hc : c.val.toNat < 0x110000 := by
    rcases c.valid with h | h
    · exact Nat.lt_trans h (by decide)
    · exact h.2
  unfold String.utf8EncodeChar
  dsimp only
  generalize c.val.toNat = v at hc
  -- A character of several bytes is not in the range of a shorter one, which bounds its lead byte below.
  split
  · exact ⟨_, _, rfl, fun _ => by rw [UInt8.toNat_ofNat']; omega, by omega⟩
  · split
    · exact ⟨_, _, rfl, by omega, fun _ => by rw [UInt8.toNat_ofNat']; omega⟩
    · split
      · exact ⟨_, _, rfl, by omega, fun _ => by rw [UInt8.toNat_ofNat']; omega⟩
      · exact ⟨_, _, rfl, by omega, fun _ => by rw [UInt8.toNat_ofNat']; omega⟩

theorem utf8EncodeChar_ascii {c : Char} (h : c.val.toNat < 0x80) : String.utf8EncodeChar c = [c.val.toUInt8] := by
  refine String.utf8EncodeChar_eq_singleton (Char.utf8Size_eq_one_iff.mpr ?_)
  rw [UInt32.le_iff_toNat_le]
  exact Nat.le_of_lt_succ h

/-- All bytes of a longer character are beyond ASCII. --/
theorem le_of_mem_utf8EncodeChar {c : Char} (hc : 0x80 ≤ c.val.toNat) : ∀ b ∈ String.utf8EncodeChar c, 0x80 ≤ b.toNat := by
  have hshort : ¬c.val.toNat ≤ 127 := by omega
  unfold String.utf8EncodeChar
  dsimp only
  rw [if_neg hshort]
  repeat' split
  all_goals
    simp only [List.mem_cons, List.not_mem_nil, or_false, forall_eq_or_imp, forall_eq, UInt8.toNat_ofNat']
    omega

/-- A character that is read from a position begins with the byte at that position. --/
theorem getElem?_of_utf8DecodeChar? {input : ByteArray} {pos : Nat} {c : Char} (h : input.utf8DecodeChar? pos = some c) :
    input[pos]? = (String.utf8EncodeChar c).head? := by
  obtain ⟨b, bs, hb, -⟩ := exists_head_utf8EncodeChar c
  have hlt := ByteArray.lt_size_of_isSome_utf8DecodeChar? (Option.isSome_iff_exists.mpr ⟨c, h⟩)
  rw [ByteArray.utf8DecodeChar?_eq_utf8DecodeChar?_extract] at h
  have heq := ByteArray.eq_of_utf8DecodeChar?_eq_some h
  have hget : (input.extract pos input.size)[0]? = some b := by
    rw [heq, hb, getElem?_eq_data, ByteArray.data_append, List.data_toByteArray, Array.getElem?_append_left (by simp)]
    rfl
  rw [hb, List.head?_cons, ← hget, getElem?_eq_data, getElem?_eq_data, ByteArray.data_extract]
  rw [Array.getElem?_extract, if_pos (by simpa using Nat.sub_pos_of_lt hlt), Nat.add_zero]

/-- A character is read from just the bytes that encode it. --/
theorem toList_extract_of_utf8DecodeChar? {input : ByteArray} {pos : Nat} {c : Char}
    (h : input.utf8DecodeChar? pos = some c) :
    (input.extract pos (pos + c.utf8Size)).data.toList = String.utf8EncodeChar c := by
  rw [ByteArray.utf8DecodeChar?_eq_utf8DecodeChar?_extract] at h
  have heq := congrArg (fun b : ByteArray => b.data.toList.take c.utf8Size) (ByteArray.eq_of_utf8DecodeChar?_eq_some h)
  rw [ByteArray.data_append, Array.toList_append, List.data_toByteArray,
    List.take_left' (String.length_utf8EncodeChar c)] at heq
  rw [← heq, ByteArray.data_extract, ByteArray.data_extract, Array.toList_extract, Array.toList_extract,
    List.extract_eq_take_drop, List.extract_eq_take_drop, List.take_take, Nat.add_sub_cancel_left]
  -- Reading stops at the end of the input, so the cut there takes nothing away.
  refine List.take_eq_take_iff.mpr ?_
  simp only [List.length_drop, Array.length_toList, ByteArray.size_data]
  omega

/-! ### Texts -/

namespace Utf8

theorem text?_bytes (s : String) : text? (bytes s) = some s := by
  have h : s.toByteArray.data.toList.toByteArray = s.toByteArray := by
    ext1
    simp
  rw [text?, bytes, h, String.fromUTF8?, dif_pos s.isValidUTF8]
  rfl

theorem text?_eq_some {bs : List UInt8} {s : String} : text? bs = some s ↔ bs = bytes s := by
  constructor
  · intro h
    rw [text?, String.fromUTF8?] at h
    split at h
    · obtain rfl := Option.some.inj h
      show bs = bs.toByteArray.data.toList
      simp
    · cases h
  · rintro rfl
    exact text?_bytes s

theorem exists_text?_iff {bs : List UInt8} : (∃ s, text? bs = some s) ↔ bs.toByteArray.IsValidUTF8 := by
  rw [text?, String.fromUTF8?]
  split
  · simp [*]
  · simp [*]

/-- The bytes of a text are those of its characters. --/
theorem bytes_eq (s : String) : bytes s = s.toList.flatMap String.utf8EncodeChar := by
  rw [bytes, ← String.utf8Encode_toList, List.utf8Encode, List.data_toByteArray]

theorem firstChar?_encode (c : Char) (bs : List UInt8) : firstChar? (String.utf8EncodeChar c ++ bs) = some c := by
  have hlen : (String.utf8EncodeChar c).length ≤ 4 := by
    rw [String.length_utf8EncodeChar]
    exact c.utf8Size_le_four
  rw [firstChar?, List.take_append, List.take_of_length_le hlen, List.toByteArray_append,
    ByteArray.utf8DecodeChar?_utf8EncodeChar_append]

theorem lossyChars_encode : ∀ cs : List Char, lossyChars (cs.flatMap String.utf8EncodeChar) = cs
  | [] => by rw [List.flatMap_nil, lossyChars]
  | c :: cs => by
    have hfirst := firstChar?_encode c (cs.flatMap String.utf8EncodeChar)
    have hdrop : (String.utf8EncodeChar c ++ cs.flatMap String.utf8EncodeChar).drop c.utf8Size =
        cs.flatMap String.utf8EncodeChar := List.drop_left' (String.length_utf8EncodeChar c)
    obtain ⟨b, bs, hb, -⟩ := exists_head_utf8EncodeChar c
    rw [List.flatMap_cons]
    rw [hb, List.cons_append] at hfirst hdrop ⊢
    rw [lossyChars, hfirst]
    dsimp only
    rw [hdrop, lossyChars_encode cs]

/-- In the bytes of a text nothing is replaced. --/
theorem lossy_bytes (s : String) : lossy (bytes s) = s := by
  rw [lossy, bytes_eq, lossyChars_encode, String.ofList_toList]

end Utf8
end Abnf
