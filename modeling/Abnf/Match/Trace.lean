import Abnf.Match.Trail

/-! Traces as text: a line for each rule that is entered, left or given up, indented by the rules that are
    open around it. -/

namespace Abnf.Trace

/-- The sign, the name and the place of an event. --/
def label (name : RuleId → String) : Event → String
  | .enter r start => s!"> {name r} @{start}"
  | .exit r start stop => s!"< {name r} {start}..{stop}"
  | .fail r start => s!"x {name r} @{start}"

def indent (depth : Nat) (line : String) : String := String.ofList (List.replicate (2 * depth) ' ') ++ line

/-- The lines of events that happen inside `depth` open rules. --/
def linesFrom (name : RuleId → String) (depth : Nat) : List Event → List String
  | [] => []
  | .enter r start :: es => indent depth (label name (.enter r start)) :: linesFrom name (depth + 1) es
  | e :: es => indent (depth - 1) (label name e) :: linesFrom name (depth - 1) es

/-- The lines of a whole trace. --/
def lines (name : RuleId → String) (es : List Event) : List String := linesFrom name 0 es

end Abnf.Trace
