import Abnf.Grammar.Basic

/-! Patterns: what a node recognizes, unfolded into a tree. Only references to rules stay references; they
    are of a type of their own, so the same trees serve a grammar, where rules have places, and a file,
    where they have names. -/

namespace Abnf

inductive Pattern (ρ : Type) where
  | literal (bytes : List UInt8) (ignoreCase : Bool)
  | charRange (lo hi : UInt32)
  | sequence (items : List (Pattern ρ))
  | choice (alternatives : List (Pattern ρ))
  | repetition (child : Pattern ρ) (min : UInt32) (max : Option UInt32)
  | ruleRef (rule : ρ)
  | fold (child : Pattern ρ)
  deriving Repr, Inhabited

namespace Grammar

/-- The pattern of a node whose unfolding is at most `depth` nodes deep. --/
def patternWithin (g : Grammar) : (depth : Nat) → NodeId → Option (Pattern RuleId)
  | 0, _ => none
  | depth + 1, i => do
    match ← g.nodes[i]? with
    | .literal bytes ignoreCase => some (.literal bytes ignoreCase)
    | .charRange lo hi => some (.charRange lo hi)
    | .sequence ns => return .sequence (← ns.mapM (patternWithin g depth))
    | .choice ns => return .choice (← ns.mapM (patternWithin g depth))
    | .repetition n min max => return .repetition (← patternWithin g depth n) min max
    | .ruleRef r => some (.ruleRef r)
    | .fold n => return .fold (← patternWithin g depth n)

/-- The pattern of a node; none if the node is made of itself or of nodes that are not there. Nodes made
    of others without going round are no deeper than there are nodes. --/
def pattern? (g : Grammar) (i : NodeId) : Option (Pattern RuleId) := g.patternWithin g.nodes.size i

/-- The pattern of a node. A node made of itself never comes to a match, and so is like a choice without
    alternatives. --/
def pattern (g : Grammar) (i : NodeId) : Pattern RuleId := (g.pattern? i).getD (.choice [])

end Grammar
end Abnf
