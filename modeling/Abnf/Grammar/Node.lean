/-! The nodes of a grammar: the ways to recognize a stretch of input. Nodes refer to one another by their
    place in the grammar that holds them. -/

namespace Abnf

/-- The place of a node in its grammar. --/
abbrev NodeId := Nat

/-- The place of a rule in its grammar's table. --/
abbrev RuleId := Nat

/-- Code points below this bound stand for one raw byte, those above it for a character in UTF-8. --/
def byteLimit : UInt32 := 0x100

/-- The last code point of Unicode. --/
def maxCodePoint : UInt32 := 0x10FFFF

inductive Node where
  /-- Just these bytes; ASCII letters in any case if `ignoreCase` is set. --/
  | literal (bytes : List UInt8) (ignoreCase : Bool)
  /-- One code point between two bounds, both included. --/
  | charRange (lo hi : UInt32)
  | sequence (items : List NodeId)
  /-- Alternatives in the order in which they are tried. --/
  | choice (alternatives : List NodeId)
  /-- A node again and again; without `max` there is no upper bound. --/
  | repetition (child : NodeId) (min : UInt32) (max : Option UInt32)
  | ruleRef (rule : RuleId)
  /-- A bracketed node, which means what it encloses. --/
  | fold (child : NodeId)
  deriving DecidableEq, Repr, Inhabited

namespace Node

/-- The single code point. --/
def char (codePoint : UInt32) : Node := charRange codePoint codePoint

/-- A text, in any letter case if `ignoreCase` is set. --/
def text (s : String) (ignoreCase : Bool) : Node := literal s.toByteArray.data.toList ignoreCase

/-- The node that matches empty. --/
def empty : Node := literal [] false

/-- A node that may be missing. --/
def optional (child : NodeId) : Node := repetition child 0 (some 1)

/-- The nodes that a node is made of. --/
def children : Node → List NodeId
  | sequence ns | choice ns => ns
  | repetition n _ _ | fold n => [n]
  | literal .. | charRange .. | ruleRef _ => []

/-- The node with other places for its children and for the rule it refers to. --/
def map (node : NodeId → NodeId) (rule : RuleId → RuleId) : Node → Node
  | literal bytes ignoreCase => literal bytes ignoreCase
  | charRange lo hi => charRange lo hi
  | sequence ns => sequence (ns.map node)
  | choice ns => choice (ns.map node)
  | repetition n min max => repetition (node n) min max
  | ruleRef r => ruleRef (rule r)
  | fold n => fold (node n)

end Node
end Abnf
