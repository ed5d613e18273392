/-! Spans: half-open ranges of byte offsets, in a source text or in a matched input. -/

namespace Abnf

/-- The bytes from `start` up to, but not including, `stop`. --/
structure Span where
  start : Nat
  stop : Nat
  deriving DecidableEq, Repr, Inhabited

namespace Span

/-- The empty span at an offset. --/
def empty (offset : Nat) : Span := ⟨offset, offset⟩

def length (s : Span) : Nat := s.stop - s.start

def isEmpty (s : Span) : Bool := s.length == 0

end Span
end Abnf
