import Abnf.Match.Trail
import Abnf.Span
import Abnf.Text.Utf8

/-! Occurrences: the matches of rules that a log tells of, each with those inside it. -/

namespace Abnf

inductive Occurrence where
  | of (rule : RuleId) (span : Span) (inner : List Occurrence)
  deriving Repr, Inhabited

namespace Occurrence

def rule : Occurrence → RuleId
  | of r _ _ => r

def span : Occurrence → Span
  | of _ s _ => s

def inner : Occurrence → List Occurrence
  | of _ _ os => os

/-- A rule that has been entered and not left: where it began, and what has been found inside it, the latest
    first. --/
structure Open where
  rule : RuleId
  start : Nat
  found : List Occurrence

/-- The occurrence of a rule that is left. --/
def Open.close (o : Open) (stop : Nat) : Occurrence := of o.rule ⟨o.start, stop⟩ o.found.reverse

/-- Replay the rest of a log. `stack` holds the open rules, the innermost first, and `found` what lies
    outside all of them, the latest first. A log that leaves more rules than it entered, or fewer, has no
    replay. --/
def replayFrom (stack : List Open) (found : List Occurrence) : List Effect → Option (List Occurrence)
  | [] => if stack.isEmpty then some found.reverse else none
  | .enter r start :: es => replayFrom (⟨r, start, []⟩ :: stack) found es
  | .exit stop :: es =>
    match stack with
    | [] => none
    | [o] => replayFrom [] (o.close stop :: found) es
    | o :: outer :: stack => replayFrom ({ outer with found := o.close stop :: outer.found } :: stack) found es

/-- The occurrences that a log tells of. --/
def replay (log : List Effect) : Option (List Occurrence) := replayFrom [] [] log

/-- The occurrence that all others of a log lie in. --/
def root? (log : List Effect) : Option Occurrence := (replay log).bind List.getLast?

end Occurrence

namespace Span

/-- The text of a span of the input; bytes that are no text are replaced. A span that reaches past the
    end has none. --/
def text? (s : Span) (input : ByteArray) : Option String :=
  if s.start ≤ s.stop ∧ s.stop ≤ input.size then some (Utf8.lossy (input.extract s.start s.stop).data.toList)
  else none

end Span
end Abnf
