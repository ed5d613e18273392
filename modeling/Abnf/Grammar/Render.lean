import Abnf.Grammar.Pattern

/-! Grammars as text. A rule is written as ABNF that means the same; an operand that would otherwise bind
    to its neighbours gets round brackets. -/

namespace Abnf

namespace Pattern

variable {ρ : Type}

/-- A literal in quotes if it can stand there, else byte by byte. --/
def renderLiteral (bytes : List UInt8) (ignoreCase : Bool) : String :=
  if bytes.all fun b => Byte.isPrintable b && b != 0x22 then
    let quoted := "\"" ++ String.ofList (bytes.map fun b => Char.ofNat b.toNat) ++ "\""
    if ignoreCase then quoted else "%s" ++ quoted
  else "%x" ++ ".".intercalate (bytes.map fun b => Hex.padded b.toNat)

def renderRange (lo hi : UInt32) : String :=
  if lo = hi then "%x" ++ Hex.padded lo.toNat else "%x" ++ Hex.padded lo.toNat ++ "-" ++ Hex.padded hi.toNat

/-- What stands in front of a repeated element. --/
def renderBounds (min : UInt32) : Option UInt32 → String
  | none => if min = 0 then "*" else s!"{min.toNat}*"
  | some max =>
    if min = max then s!"{min.toNat}" else if min = 0 then s!"*{max.toNat}" else s!"{min.toNat}*{max.toNat}"

/-- Whether a pattern needs brackets as an operand: alternatives always do, a sequence only next to
    something that binds more tightly. --/
def needsBrackets (tight : Bool) : Pattern ρ → Bool
  | choice _ => true
  | sequence _ => tight
  | _ => false

def bracketIf (b : Bool) (s : String) : String := if b then "(" ++ s ++ ")" else s

mutual

/-- A pattern as text, with `name` for the rules it refers to. --/
def render (name : ρ → String) : Pattern ρ → String
  | literal bytes ignoreCase => renderLiteral bytes ignoreCase
  | charRange lo hi => renderRange lo hi
  | sequence ps => " ".intercalate (renderOperands name true ps)
  | choice ps => " / ".intercalate (renderOperands name false ps)
  | repetition p min max =>
    if min = 0 ∧ max = some 1 then "[" ++ render name p ++ "]"
    else renderBounds min max ++ bracketIf (needsBrackets true p) (render name p)
  | ruleRef r => name r
  | fold p => "(" ++ render name p ++ ")"

/-- Patterns as operands. --/
def renderOperands (name : ρ → String) (tight : Bool) : List (Pattern ρ) → List String
  | [] => []
  | p :: ps => bracketIf (needsBrackets tight p) (render name p) :: renderOperands name tight ps

end

end Pattern

namespace Grammar

/-- A node as text. --/
def renderNode (g : Grammar) (n : NodeId) : String :=
  (g.pattern n).render g.ruleName

/-- A defined rule as text. --/
def renderRule? (g : Grammar) (r : RuleId) : Option String :=
  (g.root? r).map fun n => g.ruleName r ++ " = " ++ g.renderNode n

/-- All defined rules, one a line, in the order of the table. --/
def render (g : Grammar) : String :=
  String.join (g.rules.map fun (_, name, n) => name ++ " = " ++ g.renderNode n ++ "\n")

end Grammar
end Abnf
