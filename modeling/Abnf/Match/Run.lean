import Abnf.Match.Evaluate

/-! Matching a rule against an input from a position on. The rule itself is always logged. -/

namespace Abnf

/-- Why a match comes to no answer. --/
inductive MatchError where
  | missing (rule : MissingRule)
  /-- The match covers text that the input does not have: it is empty and lies past the end. --/
  | beyondEnd
  /-- The rules go round without reading. --/
  | endless
  deriving DecidableEq, Repr

namespace MatchError

def message : MatchError → String
  | missing rule => rule.message
  | beyondEnd => "the match lies beyond the end of the input"
  | endless => "the rules go round without reading"

end MatchError

/-- A match that came to an answer: where it ended, if the rule matched, and its trail. --/
structure Run where
  stop : Option Nat
  trail : Trail
  deriving DecidableEq, Repr

namespace Match

/-- Fuel for any match of rules that do not go round. While a match stays at one position it passes each
    rule at most once, and each node of a rule's pattern at most once. --/
def fuelFor (g : Grammar) (input : ByteArray) (start : Nat) : Nat :=
  (input.size - start + 1) * (g.slots.size + 1) * (g.nodes.size + 1)

/-- A rule at the outermost place, with a given amount of fuel. --/
def runWith (σ : Setting) (fuel : Nat) (r : RuleId) (start : Nat) : Result :=
  rule σ (evaluate σ fuel) true r start Trail.empty

/-- Match a rule from a position on. --/
def run (σ : Setting) (r : RuleId) (start : Nat) : Except MatchError Run :=
  match runWith σ (fuelFor σ.grammar σ.input start) r start with
  | some (.matched stop, t) => .ok ⟨some stop, t⟩
  | some (.noMatch, t) => .ok ⟨none, t⟩
  | some (.undefined r, _) => .error (.missing (.undefined σ.grammar.name (σ.grammar.ruleName r)))
  | none => .error .endless

/-- The place of a rule that is asked for by name. --/
def resolve (g : Grammar) (name : String) : Except MatchError RuleId :=
  match g.demandRule name with
  | .ok r => .ok r
  | .error e => .error (.missing e)

/-- The set of the rules named. --/
def observing (g : Grammar) (names : List String) : Except MatchError (RuleId → Bool) := do
  let ids ← names.mapM (resolve g)
  return fun r => ids.contains r

end Match
end Abnf
