import Abnf.Diagnostic.Basic
import Abnf.Document.Expr
import Abnf.Text.Number

/-! The bounds that a repeat spells out. -/

namespace Abnf.Repeat

/-- How often an element may stand; without `max` there is no upper bound. --/
structure Bounds where
  min : UInt32
  max : Option UInt32
  deriving DecidableEq, Repr

/-- A number of times, which has to fit in a word of 32 bits. --/
def count (w : Word) : Except Diagnostic UInt32 :=
  match Digits.number? 10 w.text.toList with
  | some n =>
    if n < UInt32.size then .ok (UInt32.ofNat n)
    else .error ((Diagnostic.of .invalidNumber w.span).detailed s!"repeat count `{w.text}` is too large")
  | none => .error ((Diagnostic.of .invalidNumber w.span).detailed s!"repeat count `{w.text}` is too large")

/-- A number of times that may be left out. --/
def count? : Option Word → Except Diagnostic (Option UInt32)
  | none => .ok none
  | some w => do return some (← count w)

/-- The bounds of a repeat. A number without a sign is both of them. --/
def bounds (r : Repeat) : Except Diagnostic Bounds := do
  let min ← count? r.min
  let max ← count? r.max
  let b : Bounds := match r.op with
    | .exact => ⟨min.getD 1, some (min.getD 1)⟩
    | .range | .list => ⟨min.getD 0, max⟩
  match b.max with
  | some max =>
    if max < b.min then
      .error ((Diagnostic.of .invalidRepeat r.span).detailed s!"{b.min.toNat} > {max.toNat}")
    else .ok b
  | none => .ok b

end Abnf.Repeat
