import Abnf.Binary.Word
import Mathlib.Algebra.Group.Nat.Defs

/-! Words survive being written as bytes. -/

namespace Abnf.Binary.Word

theorem toNat_shiftLeft_toUInt32 (x : UInt8) {k : UInt32} (hk : k.toNat ≤ 24) :
    (x.toUInt32 <<< k).toNat = x.toNat <<< k.toNat := by
  have hlt : x.toNat * 2 ^ k.toNat < 2 ^ 32 := by
    calc x.toNat * 2 ^ k.toNat
      _ < 2 ^ 8 * 2 ^ 24 := Nat.mul_lt_mul_of_lt_of_le x.toNat_lt (Nat.pow_le_pow_right (by decide) hk) (by decide)
      _ = 2 ^ 32 := by decide
  rw [UInt32.toNat_shiftLeft, UInt8.toNat_toUInt32, Nat.mod_eq_of_lt (by omega : k.toNat < 32), Nat.shiftLeft_eq,
    Nat.mod_eq_of_lt hlt]

/-- The value that four bytes have as digits to base 256. --/
theorem toNat_ofBytes (a b c d : UInt8) :
    (ofBytes a b c d).toNat = a.toNat * 2 ^ 24 + (b.toNat * 2 ^ 16 + (c.toNat * 2 ^ 8 + d.toNat)) := by
  have hb := b.toNat_lt
  have hc := c.toNat_lt
  have hd := d.toNat_lt
  simp only [ofBytes, UInt32.toNat_or, UInt8.toNat_toUInt32, toNat_shiftLeft_toUInt32 a (k := 24) (by decide),
    toNat_shiftLeft_toUInt32 b (k := 16) (by decide), toNat_shiftLeft_toUInt32 c (k := 8) (by decide)]
  -- From the last byte on, each shifted byte lies above those behind it.
  have hcd : c.toNat <<< 8 ||| d.toNat = c.toNat * 2 ^ 8 + d.toNat := by
    rw [← Nat.shiftLeft_add_eq_or_of_lt hd, Nat.shiftLeft_eq]
  have hbcd : b.toNat <<< 16 ||| (c.toNat * 2 ^ 8 + d.toNat) = b.toNat * 2 ^ 16 + (c.toNat * 2 ^ 8 + d.toNat) := by
    rw [← Nat.shiftLeft_add_eq_or_of_lt (by omega), Nat.shiftLeft_eq]
  calc a.toNat <<< 24 ||| b.toNat <<< 16 ||| c.toNat <<< 8 ||| d.toNat
    _ = a.toNat <<< 24 ||| (b.toNat * 2 ^ 16 + (c.toNat * 2 ^ 8 + d.toNat)) := by
      rw [Nat.or_assoc, Nat.or_assoc, hcd, hbcd]
    _ = a.toNat * 2 ^ 24 + (b.toNat * 2 ^ 16 + (c.toNat * 2 ^ 8 + d.toNat)) := by
      rw [← Nat.shiftLeft_add_eq_or_of_lt (by omega), Nat.shiftLeft_eq]

theorem ofBytes_bytes (w : UInt32) :
    ofBytes (w >>> 24).toUInt8 (w >>> 16).toUInt8 (w >>> 8).toUInt8 w.toUInt8 = w := by
  have hw := w.toNat_lt
  have h24 : UInt32.toNat 24 % 32 = 24 := rfl
  have h16 : UInt32.toNat 16 % 32 = 16 := rfl
  have h8 : UInt32.toNat 8 % 32 = 8 := rfl
  rw [← UInt32.toNat_inj, toNat_ofBytes]
  simp only [UInt32.toNat_toUInt8, UInt32.toNat_shiftRight, Nat.shiftRight_eq_div_pow, h24, h16, h8]
  omega

theorem bytes_ofBytes (a b c d : UInt8) : bytes (ofBytes a b c d) = [a, b, c, d] := by
  have ha := a.toNat_lt
  have hb := b.toNat_lt
  have hc := c.toNat_lt
  have hd := d.toNat_lt
  have h24 : UInt32.toNat 24 % 32 = 24 := rfl
  have h16 : UInt32.toNat 16 % 32 = 16 := rfl
  have h8 : UInt32.toNat 8 % 32 = 8 := rfl
  simp only [bytes, List.cons.injEq, and_true, ← UInt8.toNat_inj, UInt32.toNat_toUInt8, UInt32.toNat_shiftRight,
    Nat.shiftRight_eq_div_pow, h24, h16, h8, toNat_ofBytes]
  omega

@[simp] theorem length_bytes (w : UInt32) : (bytes w).length = 4 := rfl

@[simp] theorem read?_bytes_append (w : UInt32) (rest : List UInt8) : read? (bytes w ++ rest) = some (w, rest) := by
  simp [bytes, read?, ofBytes_bytes]

theorem read?_eq_some {bs rest : List UInt8} {w : UInt32} : read? bs = some (w, rest) ↔ bs = bytes w ++ rest := by
  constructor
  · intro h
    unfold read? at h
    split at h
    · cases h
      rw [bytes_ofBytes]
      rfl
    · cases h
  · rintro rfl
    exact read?_bytes_append w rest

@[simp] theorem length_flatMap_bytes (ws : List UInt32) : (ws.flatMap bytes).length = ws.length * 4 := by
  induction ws with
  | nil => rfl
  | cons w ws ih =>
    simp only [List.flatMap_cons, List.length_append, length_bytes, ih, List.length_cons]
    omega

@[simp] theorem all_flatMap_bytes (ws : List UInt32) : all (ws.flatMap bytes) = ws := by
  induction ws with
  | nil => rfl
  | cons w ws ih =>
    rw [List.flatMap_cons, bytes, List.cons_append, List.cons_append, List.cons_append, List.cons_append,
      List.nil_append, all, ofBytes_bytes, ih]

theorem bytes_injective : Function.Injective bytes := by
  intro v w h
  have hread := read?_bytes_append v []
  rw [h, read?_bytes_append] at hread
  exact (Prod.ext_iff.mp (Option.some.inj hread)).1.symm

theorem flatMap_bytes_injective : Function.Injective fun ws : List UInt32 => ws.flatMap bytes :=
  Function.LeftInverse.injective all_flatMap_bytes

theorem exists_flatMap : ∀ {n : Nat} {bs : List UInt8}, bs.length = n * 4 →
    ∃ ws : List UInt32, ws.length = n ∧ bs = ws.flatMap bytes
  | 0, bs, h => ⟨[], rfl, List.eq_nil_of_length_eq_zero (h.trans (Nat.zero_mul 4))⟩
  | n + 1, a :: b :: c :: d :: bs, h => by
    simp only [List.length_cons] at h
    have hbs : bs.length = n * 4 := by omega
    obtain ⟨ws, hws, rfl⟩ := exists_flatMap hbs
    exact ⟨ofBytes a b c d :: ws, congrArg (· + 1) hws, by rw [List.flatMap_cons, bytes_ofBytes]; rfl⟩
  | n + 1, [], h | n + 1, [_], h | n + 1, [_, _], h | n + 1, [_, _, _], h => by
    simp only [List.length_cons, List.length_nil] at h
    omega

end Abnf.Binary.Word
