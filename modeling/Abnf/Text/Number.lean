/-! Numbers in a given base, and lists of characters cut at a separator. -/

namespace Abnf.Digits

/-- The value of a character as a digit, letters of either case going on from ten. --/
def value? (c : Char) : Option Nat :=
  if c.isDigit then some (c.toNat - 48)
  else if c.isLower then some (c.toNat - 87)
  else if c.isUpper then some (c.toNat - 55)
  else none

/-- The value of a character as a digit in a base. --/
def valueIn? (base : Nat) (c : Char) : Option Nat := (value? c).filter (· < base)

/-- The number that digits spell; none if there are no digits or one is none of the base. --/
def number? (base : Nat) (cs : List Char) : Option Nat :=
  if cs.isEmpty then none
  else (cs.mapM (valueIn? base)).map fun ds => ds.foldl (fun n d => n * base + d) 0

/-- The pieces between separators, one more than there are separators. --/
def split (separator : Char) : List Char → List (List Char)
  | [] => [[]]
  | c :: cs =>
    if c = separator then [] :: split separator cs
    else
      match split separator cs with
      | [] => [[c]]
      | piece :: pieces => (c :: piece) :: pieces

end Abnf.Digits
