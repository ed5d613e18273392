import Abnf.Binary.Crc32
import Mathlib.Logic.Function.Basic

/-! The checksum tells bytes apart that differ in one place only (`checksum_set_ne`). No step on the way forgets anything:
    a bit that is shifted out turns the top bit of the remainder over, so the remainder before a step can be told from the
    one after it, and with the remainder also the byte. -/

namespace Abnf.Crc32

theorem toNat_half (r : UInt32) : (r >>> 1).toNat = r.toNat / 2 := by
  rw [UInt32.toNat_shiftRight]
  exact Nat.shiftRight_eq_div_pow r.toNat 1

theorem odd_iff (r : UInt32) : r &&& 1 = 1 ↔ r.toNat % 2 = 1 := by
  rw [← UInt32.toNat_inj, UInt32.toNat_and]
  exact iff_of_eq (congrArg (· = 1) (Nat.and_one_is_mod r.toNat))

/-- The polynomial has its top bit set, and a remainder that was shifted has not. --/
theorem half_xor_half_ne (r s : UInt32) : r >>> 1 ^^^ s >>> 1 ≠ polynomial := by
  intro h
  have hlt : ∀ r : UInt32, (r >>> 1).toNat < 2 ^ 31 := by
    intro r
    have := r.toNat_lt
    rw [toNat_half]
    omega
  have hxor := Nat.xor_lt_two_pow (hlt r) (hlt s)
  rw [← UInt32.toNat_xor, h] at hxor
  exact absurd hxor (by decide)

theorem eq_of_half_eq {r s : UInt32} (hhalf : r >>> 1 = s >>> 1) (hodd : r &&& 1 = 1 ↔ s &&& 1 = 1) : r = s := by
  have hhalf := congrArg UInt32.toNat hhalf
  rw [toNat_half, toNat_half] at hhalf
  rw [odd_iff, odd_iff] at hodd
  refine UInt32.toNat_inj.mp ?_
  omega

theorem shift_injective : Function.Injective shift := by
  intro r s h
  unfold shift at h
  split at h <;> rename_i hr <;> split at h <;> rename_i hs
  · exact eq_of_half_eq ((UInt32.xor_left_inj _).mp h) (iff_of_true hr hs)
  · exact absurd (by rw [← h, ← UInt32.xor_assoc, UInt32.xor_self, UInt32.zero_xor]) (half_xor_half_ne r s)
  · exact absurd (by rw [h, ← UInt32.xor_assoc, UInt32.xor_self, UInt32.zero_xor]) (half_xor_half_ne s r)
  · exact eq_of_half_eq h (iff_of_false hr hs)

theorem repeat_injective {α : Type} {f : α → α} (hf : Function.Injective f) :
    ∀ n, Function.Injective (Nat.repeat f n)
  | 0, _, _, h => h
  | n + 1, _, _, h => repeat_injective hf n (hf h)

theorem update_left_injective (b : UInt8) : Function.Injective fun r => update r b := by
  intro r s h
  exact (UInt32.xor_left_inj _).mp (repeat_injective shift_injective 8 h)

theorem update_right_injective (r : UInt32) : Function.Injective (update r) := by
  intro b c h
  have h := (UInt32.xor_right_inj _).mp (repeat_injective shift_injective 8 h)
  rw [← UInt8.toUInt8_toUInt32 b, h, UInt8.toUInt8_toUInt32]

theorem foldl_update_injective : ∀ bs : List UInt8, Function.Injective fun r => bs.foldl update r
  | [], _, _, h => h
  | b :: bs, _, _, h => update_left_injective b (foldl_update_injective bs h)

/-- Another byte in one place makes another checksum. --/
theorem checksum_set_ne {bs : List UInt8} {i : Nat} {b : UInt8} (hi : i < bs.length) (hb : bs[i] ≠ b) :
    checksum (bs.set i b) ≠ checksum bs := by
  intro h
  have hbs : bs = bs.take i ++ bs[i] :: bs.drop (i + 1) := by simp
  have h := (UInt32.xor_left_inj _).mp h
  rw [List.set_eq_take_append_cons_drop, if_pos hi] at h
  conv at h => rhs; rw [hbs]
  rw [List.foldl_append, List.foldl_append, List.foldl_cons, List.foldl_cons] at h
  exact hb (update_right_injective _ (foldl_update_injective _ h)).symm

end Abnf.Crc32
