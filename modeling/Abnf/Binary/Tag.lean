/-! The byte that says what kind of node follows. -/

namespace Abnf.Binary

inductive Tag where
  | literal | charRange | sequence | choice | repetition | ruleRef | fold
  deriving DecidableEq, Repr

namespace Tag

def byte : Tag → UInt8
  | literal => 1
  | charRange => 2
  | sequence => 3
  | choice => 4
  | repetition => 5
  | ruleRef => 6
  | fold => 7

def ofByte? (b : UInt8) : Option Tag :=
  if b = 1 then some literal
  else if b = 2 then some charRange
  else if b = 3 then some sequence
  else if b = 4 then some choice
  else if b = 5 then some repetition
  else if b = 6 then some ruleRef
  else if b = 7 then some fold
  else none

end Tag

/-- The upper bound that stands for none. --/
def unbounded : UInt32 := 0xFFFFFFFF

/-- The flag of a literal whose letters match in any case. --/
def ignoreCaseFlag : UInt8 := 1

end Abnf.Binary
