import Abnf.Text.LeadingInt
import Mathlib.Data.List.TakeWhile

/-! The integer at the front of a text against the one that is written there. Characters are read in just one way as
    blanks, a sign, digits and what follows them, and denote an integer of any size (`denotes_iff`). The magnitude stops
    growing at its ceiling, which is the same as cutting off the number once it is whole (`magnitude_eq`). The sign is
    put to what is left of it, so integers are cut off at the ceiling on either side of zero (`leadingInt_denoted`):
    the least 64-bit integer, which has no counterpart above zero, is never reached. -/

namespace Abnf
namespace LeadingInt

/-! ### What is written -/

/-- What may stand in front of the digits. --/
inductive Sign where
  | absent
  | plus
  | minus

namespace Sign

def text : Sign → List Char
  | absent => []
  | plus => ['+']
  | minus => ['-']

def apply (n : Nat) : Sign → Int
  | absent | plus => n
  | minus => -n

end Sign

/-- What characters denote: the integer that a sign, right behind the leading blanks, and all the digits behind it
    spell, whatever follows them. Without digits it is zero. --/
inductive Denotes (cs : List Char) : Int → Prop where
  | intro {blanks ds rest : List Char} {sign : Sign} (hcs : cs = blanks ++ (sign.text ++ (ds ++ rest)))
      (hblanks : ∀ c ∈ blanks, isBlank c = true) (hfirst : ∀ c ∈ (sign.text ++ (ds ++ rest)).head?, isBlank c = false)
      (hsign : sign = .absent → ∀ c ∈ (ds ++ rest).head?, c ≠ '+' ∧ c ≠ '-')
      (hds : ∀ c ∈ ds, c.isDigit = true) (hrest : ∀ c ∈ rest.head?, c.isDigit = false) :
      Denotes cs (sign.apply (Nat.ofDigitChars 10 ds 0))

/-- The number that the digits in front spell. --/
def number (cs : List Char) : Nat := Nat.ofDigitChars 10 (cs.takeWhile Char.isDigit) 0

/-- The integer that characters denote. --/
def denoted (cs : List Char) : Int :=
  match cs.dropWhile isBlank with
  | '-' :: cs => -(number cs : Int)
  | '+' :: cs => number cs
  | cs => number cs

section
variable {p : Char → Bool} {cs ds : List Char}

/-- Characters that pass a test, in front of one that does not. --/
theorem span_append (hcs : ∀ c ∈ cs, p c = true) (hds : ∀ c ∈ ds.head?, p c = false) :
    (cs ++ ds).takeWhile p = cs ∧ (cs ++ ds).dropWhile p = ds := by
  rw [List.takeWhile_append_of_pos hcs, List.dropWhile_append_of_pos hcs]
  cases ds with
  | nil => exact ⟨List.append_nil cs, rfl⟩
  | cons d ds =>
    have hd : ¬p d = true := Bool.eq_false_iff.mp (hds d rfl)
    rw [List.takeWhile_cons_of_neg hd, List.dropWhile_cons_of_neg hd, List.append_nil]
    exact ⟨rfl, rfl⟩

theorem head?_dropWhile (p : Char → Bool) (cs : List Char) : ∀ c ∈ (cs.dropWhile p).head?, p c = false := by
  intro c hc
  have h := List.head?_dropWhile_not p cs
  rw [show (cs.dropWhile p).head? = some c from hc] at h
  simpa using h

end

/-- Characters that spell digits in front of others that do not begin with one. --/
theorem Denotes.digits (sign : Sign) {cs blanks tail : List Char} (hcs : cs = blanks ++ (sign.text ++ tail))
    (hblanks : ∀ c ∈ blanks, isBlank c = true) (hfirst : ∀ c ∈ (sign.text ++ tail).head?, isBlank c = false)
    (hsign : sign = .absent → ∀ c ∈ tail.head?, c ≠ '+' ∧ c ≠ '-') : Denotes cs (sign.apply (number tail)) := by
  have htail : tail.takeWhile Char.isDigit ++ tail.dropWhile Char.isDigit = tail := List.takeWhile_append_dropWhile
  have hrest := head?_dropWhile Char.isDigit tail
  refine .intro ?_ hblanks ?_ ?_ (fun c => List.mem_takeWhile_imp) hrest <;> rwa [htail]

theorem denotes_iff {cs : List Char} {v : Int} : Denotes cs v ↔ v = denoted cs := by
  constructor
  · rintro @⟨blanks, ds, rest, sign, rfl, hblanks, hfirst, hsign, hds, hrest⟩
    have hnumber : number (ds ++ rest) = Nat.ofDigitChars 10 ds 0 := by rw [number, (span_append hds hrest).1]
    rw [denoted, (span_append hblanks hfirst).2, ← hnumber]
    cases sign with
    | plus | minus => rfl
    | absent =>
      have hhead := hsign rfl
      generalize ds ++ rest = tail at hhead ⊢
      rw [Sign.text, List.nil_append]
      split
      · exact absurd rfl (hhead _ rfl).2
      · exact absurd rfl (hhead _ rfl).1
      · rfl
  · rintro rfl
    have hcs : cs = cs.takeWhile isBlank ++ cs.dropWhile isBlank := List.takeWhile_append_dropWhile.symm
    have hblanks : ∀ c ∈ cs.takeWhile isBlank, isBlank c = true := fun c => List.mem_takeWhile_imp
    have hfirst := head?_dropWhile isBlank cs
    unfold denoted
    split
    · rename_i tail h
      rw [h] at hcs hfirst
      exact .digits .minus hcs hblanks hfirst nofun
    · rename_i tail h
      rw [h] at hcs hfirst
      exact .digits .plus hcs hblanks hfirst nofun
    · rename_i hminus hplus
      refine .digits .absent hcs hblanks hfirst fun _ c hc => ?_
      obtain ⟨tail, htail⟩ := List.head?_eq_some_iff.mp hc
      exact ⟨fun h => hplus tail (h ▸ htail), fun h => hminus tail (h ▸ htail)⟩

/-! ### What is read -/

/-- Cutting off at every digit is the same as cutting off in the end, as a number only grows by more digits. --/
theorem foldl_min (limit : Nat) : ∀ (ds : List Char) (n : Nat),
    ds.foldl (fun n c => min limit (n * 10 + (c.toNat - 48))) (min limit n) = min limit (Nat.ofDigitChars 10 ds n)
  | [], n => by rw [Nat.ofDigitChars_nil, List.foldl_nil]
  | d :: ds, n => by
    have hcut : min limit (min limit n * 10 + (d.toNat - 48)) = min limit (10 * n + (d.toNat - 48)) := by omega
    rw [Nat.ofDigitChars_cons, List.foldl_cons, hcut]
    exact foldl_min limit ds (10 * n + (d.toNat - 48))

theorem magnitude_eq (cs : List Char) : magnitude cs = min ceiling (number cs) := by
  have h := foldl_min ceiling (cs.takeWhile Char.isDigit) 0
  rwa [Nat.min_zero] at h

/-- An integer cut off at the ceiling on either side of zero. --/
def bounded (v : Int) : Int := max (-ceiling) (min ceiling v)

theorem ofChars_eq (cs : List Char) : ofChars cs = bounded (denoted cs) := by
  have hplus : ∀ cs, (magnitude cs : Int) = bounded (number cs) := by
    intro cs
    rw [magnitude_eq, bounded]
    omega
  have hminus : ∀ cs, -(magnitude cs : Int) = bounded (-(number cs : Int)) := by
    intro cs
    rw [magnitude_eq, bounded]
    omega
  rw [ofChars, denoted]
  generalize cs.dropWhile isBlank = tail
  match tail with
  | [] => exact hplus []
  | c :: cs =>
    by_cases hc : c = '-' ∨ c = '+'
    · obtain rfl | rfl := hc
      · exact hminus cs
      · exact hplus cs
    · obtain ⟨h, h'⟩ := not_or.mp hc
      simp [h, h', hplus]

/-- The nearest 64-bit integer. --/
def saturated (v : Int) : Int := max Int64.minValue.toInt (min Int64.maxValue.toInt v)

/-- An integer cut off at the ceiling is the nearest 64-bit integer, unless that is the least one. --/
theorem bounded_eq_saturated_iff {v : Int} : bounded v = saturated v ↔ Int64.minValue.toInt < v := by
  have hmin : Int64.minValue.toInt = -0x8000000000000000 := rfl
  have hmax : Int64.maxValue.toInt = 0x7FFFFFFFFFFFFFFF := rfl
  rw [bounded, saturated, ceiling, hmin, hmax]
  omega

end LeadingInt

open LeadingInt (Denotes denotes_iff bounded saturated bounded_eq_saturated_iff ofChars_eq)

/-- Every text denotes one integer, however many digits it has, and the integer at its front is that one if its magnitude
    is at most the greatest 64-bit integer, else the greatest 64-bit integer with its sign. So it is the 64-bit integer
    nearest to what the text denotes just if that is greater than the least one. --/
theorem leadingInt_denoted (s : String) : ∃ v, (∀ w, Denotes s.toList w ↔ w = v) ∧
    leadingInt s = max (-Int64.maxValue.toInt) (min Int64.maxValue.toInt v) ∧
    (leadingInt s = saturated v ↔ Int64.minValue.toInt < v) := by
  have hs : leadingInt s = bounded (LeadingInt.denoted s.toList) := ofChars_eq s.toList
  refine ⟨LeadingInt.denoted s.toList, fun w => denotes_iff, hs, ?_⟩
  rw [hs]
  exact bounded_eq_saturated_iff

/-- The least 64-bit integer is written there, and another one is read. --/
theorem leadingInt_least : Denotes "-9223372036854775808".toList Int64.minValue.toInt ∧
    leadingInt "-9223372036854775808" = -9223372036854775807 := by
  obtain ⟨v, hv, hread, -⟩ := leadingInt_denoted "-9223372036854775808"
  have hwritten : Denotes "-9223372036854775808".toList Int64.minValue.toInt := denotes_iff.mpr (by decide +kernel)
  rw [← (hv _).mp hwritten] at hread
  exact ⟨hwritten, hread⟩

end Abnf
