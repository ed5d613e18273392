/-! Words of 32 bits as four bytes, the greatest first. -/

namespace Abnf.Binary.Word

def bytes (w : UInt32) : List UInt8 :=
  [(w >>> 24).toUInt8, (w >>> 16).toUInt8, (w >>> 8).toUInt8, w.toUInt8]

/-- The word that four bytes spell. --/
def ofBytes (a b c d : UInt8) : UInt32 :=
  (a.toUInt32 <<< 24) ||| (b.toUInt32 <<< 16) ||| (c.toUInt32 <<< 8) ||| d.toUInt32

/-- The word at the front of bytes, and the bytes behind it. --/
def read? : List UInt8 → Option (UInt32 × List UInt8)
  | a :: b :: c :: d :: rest => some (ofBytes a b c d, rest)
  | _ => none

/-- All words of a run of bytes; fewer than four at the end are left out. --/
def all : List UInt8 → List UInt32
  | a :: b :: c :: d :: rest => ofBytes a b c d :: all rest
  | _ => []

end Abnf.Binary.Word
