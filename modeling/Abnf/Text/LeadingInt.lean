import Abnf.Text.Blank

/-! The integer at the front of a text: blanks, a sign and digits, whatever follows them. The number of
    digits is not limited, but the magnitude is: it stops growing at the greatest 64-bit integer. -/

namespace Abnf.LeadingInt

/-- The greatest magnitude. --/
def ceiling : Nat := 0x7FFFFFFFFFFFFFFF

/-- The number that digits spell, or the ceiling if it is greater. --/
def magnitude (cs : List Char) : Nat :=
  (cs.takeWhile Char.isDigit).foldl (fun n c => min ceiling (n * 10 + (c.toNat - 48))) 0

/-- The integer at the front of characters; zero if there are no digits. --/
def ofChars (cs : List Char) : Int :=
  match cs.dropWhile isBlank with
  | '-' :: ds => -(magnitude ds : Int)
  | '+' :: ds => magnitude ds
  | ds => magnitude ds

end Abnf.LeadingInt

namespace Abnf

/-- The integer at the front of a text. --/
def leadingInt (s : String) : Int := LeadingInt.ofChars s.toList

end Abnf
