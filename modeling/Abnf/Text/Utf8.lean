/-! UTF-8 text held in bytes. Whether bytes are text is the core library's notion; this file adds what
    it lacks: where the first fault of a byte string lies and how far it reaches, and the reading that
    puts one replacement character in the place of each fault. -/

namespace Abnf.Utf8

/-- The bytes of a text. --/
def bytes (s : String) : List UInt8 := s.toByteArray.data.toList

/-- The text that the bytes spell, if they are well-formed. --/
def text? (bs : List UInt8) : Option String := String.fromUTF8? bs.toByteArray

/-- The character whose encoding the bytes begin with. No encoding is longer than four bytes. --/
def firstChar? (bs : List UInt8) : Option Char := (bs.take 4).toByteArray.utf8DecodeChar? 0

/-! ### Faults -/

/-- A continuation byte, that is one that never begins a character. --/
def isContinuation (b : UInt8) : Bool := 0x80 ≤ b && b ≤ 0xBF

/-- What a byte that begins a longer character asks for: how many bytes follow it, and the least and
    the greatest value of the first of them. The bounds shut out overlong forms, surrogates and
    values past the last code point. --/
def lead? (b : UInt8) : Option (Nat × UInt8 × UInt8) :=
  if b < 0xC2 then none
  else if b ≤ 0xDF then some (1, 0x80, 0xBF)
  else if b == 0xE0 then some (2, 0xA0, 0xBF)
  else if b == 0xED then some (2, 0x80, 0x9F)
  else if b ≤ 0xEF then some (2, 0x80, 0xBF)
  else if b == 0xF0 then some (3, 0x90, 0xBF)
  else if b ≤ 0xF3 then some (3, 0x80, 0xBF)
  else if b == 0xF4 then some (3, 0x80, 0x8F)
  else none

/-- How far the bytes begin a character that they do not complete: at least one byte, and as many as
    some character's encoding begins with. --/
def faultLength : List UInt8 → Nat
  | [] => 0
  | b :: bs =>
    match lead? b, bs with
    | some (more, lo, hi), c :: cs =>
      if lo ≤ c ∧ c ≤ hi then 2 + ((cs.take (more - 1)).takeWhile isContinuation).length else 1
    | _, _ => 1

/-- A place where bytes stop being text. --/
inductive Fault where
  /-- `length` bytes at `index` begin no character. --/
  | invalid (index length : Nat)
  /-- The bytes end inside the character that begins at `index`. --/
  | incomplete (index : Nat)
  deriving DecidableEq, Repr

namespace Fault

/-- How a fault reads in an error text. --/
def message : Fault → String
  | invalid index length => s!"invalid utf-8 sequence of {length} bytes from index {index}"
  | incomplete index => s!"incomplete utf-8 byte sequence from index {index}"

end Fault

/-- Whether the faulty bytes are a character cut short by the end: they reach the end, and their lead
    asks for more. --/
def isCutShort (bs : List UInt8) : Bool :=
  match bs with
  | [] => false
  | b :: _ =>
    match lead? b with
    | some (more, _, _) => faultLength bs == bs.length && bs.length ≤ more
    | none => false

/-- The first fault of bytes that begin at offset `index`. --/
def faultFrom? (index : Nat) : List UInt8 → Option Fault
  | [] => none
  | b :: bs =>
    match firstChar? (b :: bs) with
    | some c => faultFrom? (index + c.utf8Size) ((b :: bs).drop c.utf8Size)
    | none =>
      some (if isCutShort (b :: bs) then .incomplete index else .invalid index (faultLength (b :: bs)))
termination_by bs => bs.length
decreasing_by
  have := c.utf8Size_pos
  simp only [List.length_drop, List.length_cons]
  omega

/-- The first fault of the bytes, if they are not text. --/
def fault? (bs : List UInt8) : Option Fault := faultFrom? 0 bs

/-! ### Lossy reading -/

/-- The characters of the bytes, with one replacement character for each fault. --/
def lossyChars : List UInt8 → List Char
  | [] => []
  | b :: bs =>
    match firstChar? (b :: bs) with
    | some c => c :: lossyChars ((b :: bs).drop c.utf8Size)
    | none => '\uFFFD' :: lossyChars (bs.drop (faultLength (b :: bs) - 1))
termination_by bs => bs.length
decreasing_by
  · have := c.utf8Size_pos
    simp only [List.length_drop, List.length_cons]
    omega
  · simp only [List.length_drop, List.length_cons]
    omega

/-- The text of the bytes, with one replacement character for each fault. --/
def lossy (bs : List UInt8) : String := String.ofList (lossyChars bs)

end Abnf.Utf8
