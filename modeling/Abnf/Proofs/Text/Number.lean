import Abnf.Text.Byte
import Abnf.Text.Number
import Mathlib.Data.Nat.Digits.Defs

/-! Numbers that are written in decimal or in hexadecimal are read back: `Digits.number?_toDigits`,
    `Digits.number?_padded`. -/

namespace Abnf

namespace Digits

/-- The number that values of digits stand for, the first of them behind a number already read. --/
def valueOf (base : Nat) (n : Nat) (ds : List Nat) : Nat := ds.foldl (fun n d => n * base + d) n

theorem number?_of_values {base : Nat} {cs : List Char} {ds : List Nat} (hne : cs ≠ [])
    (h : cs.mapM (valueIn? base) = some ds) : number? base cs = some (valueOf base 0 ds) := by
  rw [number?, if_neg fun hempty => hne (List.isEmpty_iff.mp hempty), h]
  rfl

theorem foldl_eq_ofDigits (base : Nat) (ds : List Nat) :
    ds.foldl (fun n d => n * base + d) 0 = Nat.ofDigits base ds.reverse := by
  rw [Nat.ofDigits_eq_foldr, List.foldr_reverse]
  simp only [Nat.cast_id, Nat.mul_comm base, Nat.add_comm]

/-! ### Decimal -/

theorem valueIn?_of_isDigit {c : Char} (h : c.isDigit = true) : valueIn? 10 c = some (c.toNat - 48) := by
  have hlt : c.toNat - 48 < 10 := by
    simp only [Char.isDigit, Bool.and_eq_true, decide_eq_true_eq] at h
    have hle : c.toNat ≤ 57 := UInt32.le_iff_toNat_le.mp h.2
    omega
  rw [valueIn?, value?, if_pos h, Option.filter_some, decide_eq_true hlt, if_pos rfl]

theorem mapM_valueIn?_of_isDigit : ∀ {cs : List Char}, (∀ c ∈ cs, c.isDigit = true) →
    cs.mapM (valueIn? 10) = some (cs.map fun c => c.toNat - 48)
  | [], _ => rfl
  | c :: cs, h => by
    obtain ⟨hc, hcs⟩ := List.forall_mem_cons.mp h
    rw [List.mapM_cons, valueIn?_of_isDigit hc, mapM_valueIn?_of_isDigit hcs]
    rfl

theorem isDigit_toDigits (n : Nat) : ∀ c ∈ Nat.toDigits 10 n, c.isDigit = true :=
  fun _ => Nat.isDigit_of_mem_toDigits (by decide) (by decide)

/-- A number in decimal is read back. --/
theorem number?_toDigits (n : Nat) : number? 10 (Nat.toDigits 10 n) = some n := by
  rw [number?_of_values Nat.toDigits_ne_nil (mapM_valueIn?_of_isDigit (isDigit_toDigits n)), valueOf, List.foldl_map]
  conv_rhs => rw [← Nat.ofDigitChars_ten_toDigits (n := n), Nat.ofDigitChars_eq_foldl]
  simp only [Nat.mul_comm]
  rfl

/-! ### Hexadecimal -/

theorem valueIn?_digit {n : Nat} (h : n < 16) : valueIn? 16 (Hex.digit n) = some n := by
  have hall : ∀ n : Fin 16, valueIn? 16 (Hex.digit n) = some n.val := by decide
  exact hall ⟨n, h⟩

theorem isAlphanum_digit {n : Nat} (h : n < 16) : (Hex.digit n).isAlphanum = true := by
  have hall : ∀ n : Fin 16, (Hex.digit n).isAlphanum = true := by decide
  exact hall ⟨n, h⟩

theorem isAlphanum_digits (n : Nat) : ∀ c ∈ Hex.digits n, c.isAlphanum = true := by
  induction n using Hex.digits.induct with
  | case1 =>
    rw [Hex.digits, dif_pos rfl]
    exact List.forall_mem_nil _
  | case2 n hn ih =>
    rw [Hex.digits, dif_neg hn]
    exact List.forall_mem_append.mpr ⟨ih, List.forall_mem_singleton.mpr (isAlphanum_digit (Nat.mod_lt n (by decide)))⟩

theorem exists_values_digits (n : Nat) : ∃ ds, (Hex.digits n).mapM (valueIn? 16) = some ds ∧ valueOf 16 0 ds = n := by
  induction n using Hex.digits.induct with
  | case1 =>
    rw [Hex.digits, dif_pos rfl]
    exact ⟨[], rfl, rfl⟩
  | case2 n hn ih =>
    obtain ⟨ds, hds, hvalue⟩ := ih
    refine ⟨ds ++ [n % 16], ?_, ?_⟩
    · rw [Hex.digits, dif_neg hn, List.mapM_append, hds, List.mapM_cons, valueIn?_digit (Nat.mod_lt n (by decide))]
      rfl
    · rw [valueOf] at hvalue ⊢
      rw [List.foldl_append, hvalue]
      exact Nat.div_add_mod' n 16

/-- Zeros in front make no difference. --/
theorem exists_values_replicate {ds : List Nat} : ∀ k : Nat, ∃ zs,
    (List.replicate k '0').mapM (valueIn? 16) = some zs ∧ valueOf 16 0 (zs ++ ds) = valueOf 16 0 ds
  | 0 => ⟨[], rfl, rfl⟩
  | k + 1 => by
    obtain ⟨zs, hzs, hvalue⟩ := exists_values_replicate k
    refine ⟨0 :: zs, ?_, hvalue⟩
    rw [List.replicate_succ, List.mapM_cons, hzs]
    rfl

/-- The characters of a number with at least two digits. --/
theorem toList_padded (n : Nat) :
    (Hex.padded n).toList = List.replicate (2 - (Hex.digits n).length) '0' ++ Hex.digits n :=
  String.toList_ofList

theorem isAlphanum_padded (n : Nat) : ∀ c ∈ (Hex.padded n).toList, c.isAlphanum = true := by
  rw [toList_padded]
  refine List.forall_mem_append.mpr ⟨fun c hc => ?_, isAlphanum_digits n⟩
  rw [List.eq_of_mem_replicate hc]
  rfl

/-- A number in hexadecimal is read back. --/
theorem number?_padded (n : Nat) : number? 16 (Hex.padded n).toList = some n := by
  obtain ⟨ds, hds, hvalue⟩ := exists_values_digits n
  obtain ⟨zs, hzs, hzeros⟩ := @exists_values_replicate ds (2 - (Hex.digits n).length)
  have hne : (Hex.padded n).toList ≠ [] := by
    refine List.ne_nil_of_length_pos ?_
    rw [toList_padded, List.length_append, List.length_replicate]
    omega
  have hall : (Hex.padded n).toList.mapM (valueIn? 16) = some (zs ++ ds) := by
    rw [toList_padded, List.mapM_append, hzs, hds]
    rfl
  rw [number?_of_values hne hall, hzeros, hvalue]

end Digits
end Abnf
