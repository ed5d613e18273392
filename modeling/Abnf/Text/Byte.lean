/-! Single bytes: the letter case of ASCII, and two-digit hexadecimal. -/

namespace Abnf.Byte

/-- The lower-case form of an ASCII capital; any other byte is unchanged. --/
def lower (b : UInt8) : UInt8 := if 0x41 ≤ b ∧ b ≤ 0x5A then b + 0x20 else b

/-- The upper-case form of a small ASCII letter; any other byte is unchanged. --/
def upper (b : UInt8) : UInt8 := if 0x61 ≤ b ∧ b ≤ 0x7A then b - 0x20 else b

/-- A visible ASCII character or the blank. --/
def isPrintable (b : UInt8) : Bool := 0x20 ≤ b && b ≤ 0x7E

end Abnf.Byte

namespace Abnf.Hex

/-- One hexadecimal digit of a number below sixteen, in capitals. --/
def digit (n : Nat) : Char := if n < 10 then Char.ofNat (0x30 + n) else Char.ofNat (0x37 + n)

/-- The hexadecimal digits of a number, in capitals and without leading zeros; none for zero. --/
def digits (n : Nat) : List Char :=
  if _h : n = 0 then [] else digits (n / 16) ++ [digit (n % 16)]
termination_by n
decreasing_by omega

/-- At least two hexadecimal digits, in capitals. --/
def padded (n : Nat) : String :=
  let ds := digits n
  String.ofList (List.replicate (2 - ds.length) '0' ++ ds)

end Abnf.Hex
