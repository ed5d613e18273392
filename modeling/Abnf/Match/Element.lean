import Abnf.Match.Occurrence
import Abnf.Match.Run

/-! Elements: a match as a tree of rule names and the text that each rule matched, for looking at. -/

namespace Abnf

inductive Element where
  | of (rule value : String) (children : List Element)
  deriving Repr, Inhabited

namespace Element

def rule : Element → String
  | of r _ _ => r

/-- All the text that the rule matched. --/
def value : Element → String
  | of _ v _ => v

def children : Element → List Element
  | of _ _ es => es

/-! ### From a match -/

mutual

def ofOccurrence (name : RuleId → String) (input : ByteArray) : Occurrence → Option Element
  | .of r span inner => do
    let value ← span.text? input
    return .of (name r) value (← ofOccurrences name input inner)

def ofOccurrences (name : RuleId → String) (input : ByteArray) : List Occurrence → Option (List Element)
  | [] => some []
  | o :: os => do return (← ofOccurrence name input o) :: (← ofOccurrences name input os)

end

/-! ### Looking inside -/

mutual

/-- The outermost elements of a rule inside an element, in the order of the text. --/
def find (rule : String) : Element → List Element
  | of _ _ children => findAmong rule children

/-- The outermost elements of a rule among elements and inside them. --/
def findAmong (rule : String) : List Element → List Element
  | [] => []
  | e :: es => (if sameName e.rule rule then [e] else find rule e) ++ findAmong rule es

end

/-! ### As text -/

/-- Line ends made visible. --/
def showLineEnds (s : String) : String :=
  String.join (s.toList.map fun c => if c == '\r' then "\\r" else if c == '\n' then "\\n" else c.toString)

mutual

/-- A line for each element, indented by its depth; the text only of elements that hold no others. --/
def outline (depth : Nat) : Element → String
  | of rule value children =>
    let tabs := String.ofList (List.replicate depth '\t')
    if children.isEmpty then tabs ++ rule ++ " : '" ++ showLineEnds value ++ "'\n"
    else tabs ++ rule ++ "\n" ++ outlines (depth + 1) children

def outlines (depth : Nat) : List Element → String
  | [] => ""
  | e :: es => outline depth e ++ outlines depth es

end

end Element

/-- A rule's match as a tree, and the span it covers. --/
structure ElementMatch where
  element : Element
  span : Span

namespace Element

/-- What a run found, as a tree. --/
def ofRun (g : Grammar) (input : ByteArray) (start : Nat) (r : Run) : Except MatchError (Option ElementMatch) :=
  match r.stop with
  | none => .ok none
  | some stop =>
    match (Occurrence.root? r.trail.log.toList).bind (ofOccurrence g.ruleName input) with
    | some element => .ok (some ⟨element, ⟨start, stop⟩⟩)
    | none => .error .beyondEnd

/-- Match a rule from a position on and tell of the observed rules. --/
def parse (g : Grammar) (observed : RuleId → Bool) (rule : String) (input : ByteArray) (start : Nat) :
    Except MatchError (Option ElementMatch × Run) := do
  let r ← Match.resolve g rule
  let run ← Match.run ⟨g, input, observed⟩ r start
  let found ← ofRun g input start run
  return (found, run)

end Element
end Abnf
