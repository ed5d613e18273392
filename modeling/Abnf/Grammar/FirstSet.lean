import Abnf.Grammar.Node
import Abnf.Text.Byte

/-! First sets: the bytes that can begin a match of a node, and whether it can match empty. A set may name
    too many bytes, never too few. -/

namespace Abnf

structure FirstSet where
  bytes : BitVec 256
  nullable : Bool
  deriving DecidableEq, Repr, Inhabited

namespace FirstSet

/-- Nothing begins a match, and nothing matches empty. --/
def none : FirstSet := ⟨0, false⟩

/-- Anything may begin a match, and the match may be empty. --/
def all : FirstSet := ⟨BitVec.allOnes 256, true⟩

/-- Only the empty match. --/
def onlyEmpty : FirstSet := ⟨0, true⟩

def contains (s : FirstSet) (b : UInt8) : Bool := s.bytes.getLsbD b.toNat

/-- Whether a match may begin in front of a byte, or of the end of the input. --/
def accepts (s : FirstSet) (next : Option UInt8) : Bool := s.nullable || next.any s.contains

/-- The bytes of the set, in order. --/
def toList (s : FirstSet) : List UInt8 := ((List.range 256).map UInt8.ofNat).filter s.contains

/-! ### Sets of single nodes -/

def byte (b : UInt8) : FirstSet := ⟨BitVec.twoPow 256 b.toNat, false⟩

/-- The bytes between two bounds, both included. --/
def range (lo hi : UInt8) : FirstSet :=
  ⟨(BitVec.allOnes 256 <<< lo.toNat) &&& (BitVec.allOnes 256 >>> (255 - hi.toNat)), false⟩

/-! ### Sets of nodes made of others -/

def union (s t : FirstSet) : FirstSet := ⟨s.bytes ||| t.bytes, s.nullable || t.nullable⟩

/-- Matches of one node followed by matches of another. --/
def followedBy (s t : FirstSet) : FirstSet := if s.nullable then ⟨s.bytes ||| t.bytes, t.nullable⟩ else s

def orEmpty (s : FirstSet) (mayBeEmpty : Bool) : FirstSet := { s with nullable := s.nullable || mayBeEmpty }

/-- The first set of a literal. --/
def ofLiteral (ignoreCase : Bool) : List UInt8 → FirstSet
  | [] => onlyEmpty
  | b :: _ => if ignoreCase then ((byte b).union (byte (Byte.lower b))).union (byte (Byte.upper b)) else byte b

/-- The first set of a range of code points. A range that reaches past single bytes begins with an ASCII
    byte or with the lead byte of a longer character. --/
def ofCharRange (lo hi : UInt32) : FirstSet :=
  if hi < byteLimit then range lo.toUInt8 hi.toUInt8
  else
    let lead := range 0xC2 0xF4
    if lo < 0x80 then (range lo.toUInt8 0x7F).union lead else lead

/-- The first set of a node, given those of the nodes it is made of and of rules. --/
def ofNode (node : NodeId → FirstSet) (rule : RuleId → FirstSet) : Node → FirstSet
  | .literal bytes ignoreCase => ofLiteral ignoreCase bytes
  | .charRange lo hi => ofCharRange lo hi
  | .sequence ns => ns.foldr (fun n s => (node n).followedBy s) onlyEmpty
  | .choice ns => ns.foldr (fun n s => (node n).union s) none
  | .repetition n min max => (if max = some 0 then none else node n).orEmpty (min == 0)
  | .ruleRef r => rule r
  | .fold n => node n

end FirstSet
end Abnf
