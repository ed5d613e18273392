import Abnf.Grammar.Basic
import Abnf.Match.Trail

/-! How a node matches an input at a position. Alternatives are tried in order: the first that reads
    something is taken for good, and only if none does, the first that matched empty. A repetition reads
    as often as it can, gives nothing back, and stops after a round that read nothing; such a round
    stands for all that are missing.

    Each kind of node is described once, given how its parts match; putting the descriptions together
    takes fuel, which is what a match has to stop when rules go round without reading. -/

namespace Abnf

/-- What came of a match. --/
inductive Outcome where
  | matched (stop : Nat)
  | noMatch
  /-- The match arrived at a rule that has no definition. --/
  | undefined (rule : RuleId)
  deriving DecidableEq, Repr, Inhabited

namespace Match

/-- What a match reads, and whom it tells. --/
structure Setting where
  grammar : Grammar
  input : ByteArray
  /-- The rules whose matches are logged. --/
  observed : RuleId → Bool

/-- The outcome and the trail behind it; none if the fuel ran out. --/
abbrev Result := Option (Outcome × Trail)

/-- How the nodes of a grammar match at a position. --/
abbrev Evaluator := NodeId → Nat → Trail → Result

/-! ### Nodes without parts -/

/-- Whether two bytes are equal, ASCII letters in any case if `ignoreCase` is set. --/
def sameByte (ignoreCase : Bool) (a b : UInt8) : Bool :=
  if ignoreCase then Byte.lower a == Byte.lower b else a == b

/-- Whether the input has these bytes at a position. --/
def bytesAt (input : ByteArray) (ignoreCase : Bool) (pos : Nat) : List UInt8 → Bool
  | [] => true
  | b :: bs => (input[pos]?).any (sameByte ignoreCase b) && bytesAt input ignoreCase (pos + 1) bs

/-- The end of a literal; past the end of the input not even an empty one matches. --/
def literal? (input : ByteArray) (bytes : List UInt8) (ignoreCase : Bool) (pos : Nat) : Option Nat :=
  if pos ≤ input.size ∧ bytesAt input ignoreCase pos bytes then some (pos + bytes.length) else none

/-- The end of a code point between two bounds, which is a single byte if the bounds allow no more. --/
def charRange? (input : ByteArray) (lo hi : UInt32) (pos : Nat) : Option Nat :=
  if hi < byteLimit then
    match input[pos]? with
    | some b => if lo ≤ b.toUInt32 ∧ b.toUInt32 ≤ hi then some (pos + 1) else none
    | none => none
  else
    match input.utf8DecodeChar? pos with
    | some c => if lo ≤ c.val ∧ c.val ≤ hi then some (pos + c.utf8Size) else none
    | none => none

/-- The result of a node without parts. --/
def leaf (stop : Option Nat) (t : Trail) : Result :=
  match stop with
  | some stop => some (.matched stop, t)
  | none => some (.noMatch, t)

/-! ### Nodes made of others -/

/-- Nodes one after the other. If they come to nothing, the log is taken back to `mark`. --/
def sequence (child : Evaluator) (mark : Nat) : List NodeId → Nat → Trail → Result
  | [], pos, t => some (.matched pos, t)
  | n :: ns, pos, t =>
    match child n pos t with
    | some (.matched stop, t) => sequence child mark ns stop t
    | some (.noMatch, t) => some (.noMatch, t.backTo mark)
    | r => r

/-- The first alternative that reads something, else the first that matched empty, of which `empty` holds
    what it logged behind `mark`. Alternatives that `admits` shuts out are passed over. --/
def choice (child : Evaluator) (admits : NodeId → Bool) (mark : Nat) (empty : Option Log) :
    List NodeId → Nat → Trail → Result
  | [], pos, t =>
    match empty with
    | some effects => some (.matched pos, t.restore effects)
    | none => some (.noMatch, t)
  | n :: ns, pos, t =>
    if admits n then
      match child n pos t with
      | some (.matched stop, u) =>
        if pos < stop then some (.matched stop, u)
        else choice child admits mark (some (empty.getD (u.since mark))) ns pos (u.backTo mark)
      | some (.noMatch, u) => choice child admits mark empty ns pos u
      | r => r
    else choice child admits mark empty ns pos t

/-- The end of a repetition after `count` rounds, which began when the log was as long as `mark`. --/
def settle (min : Nat) (mark count pos : Nat) (t : Trail) : Result :=
  if count < min then some (.noMatch, t.backTo mark) else some (.matched pos, t)

/-- Rounds of a repetition after `count` of them. There are at most `bound` more. --/
def rounds (child : Nat → Trail → Result) (min : Nat) (max : Option Nat) (mark : Nat) :
    (bound count pos : Nat) → Trail → Result
  | 0, _, _, _ => none
  | bound + 1, count, pos, t =>
    if max.all (count < ·) then
      match child pos t with
      | some (.matched stop, t) =>
        if stop = pos then settle min mark (Nat.max (count + 1) min) pos t
        else rounds child min max mark bound (count + 1) stop t
      | some (.noMatch, t) => settle min mark count pos t
      | r => r
    else settle min mark count pos t

/-- A repetition. Every round but the last reads something, so there are no more of them than there are
    bytes left, and one. --/
def repetition (child : Nat → Trail → Result) (size : Nat) (min : UInt32) (max : Option UInt32) (pos : Nat)
    (t : Trail) : Result :=
  rounds child min.toNat (max.map UInt32.toNat) t.mark (size - pos + 1) 0 pos t

/-- What a rule makes of the result of its root. --/
def leave (wanted : Bool) (r : RuleId) (pos mark : Nat) : Result → Result
  | some (.matched stop, t) => some (.matched stop, (t.recordIf wanted (.exit stop)).note (.exit r pos stop))
  | some (.noMatch, t) => some (.noMatch, (t.backTo mark).note (.fail r pos))
  | result => result

/-- A rule, logged if `wanted`. --/
def rule (σ : Setting) (child : Evaluator) (wanted : Bool) (r : RuleId) (pos : Nat) (t : Trail) : Result :=
  match σ.grammar.root? r with
  | none => some (.undefined r, t)
  | some root =>
    leave wanted r pos t.mark (child root pos ((t.note (.enter r pos)).recordIf wanted (.enter r pos)))

/-! ### All nodes -/

/-- Whether an alternative can match in front of the next byte, for all that its first set tells. --/
def admits (σ : Setting) (pos : Nat) (n : NodeId) : Bool :=
  match σ.grammar.firstSets with
  | none => true
  | some sets => (sets.getD n FirstSet.all).accepts σ.input[pos]?

/-- How a node matches, given how its parts do. --/
def node (σ : Setting) (child : Evaluator) (n : Node) (pos : Nat) (t : Trail) : Result :=
  match n with
  | .literal bytes ignoreCase => leaf (literal? σ.input bytes ignoreCase pos) t
  | .charRange lo hi => leaf (charRange? σ.input lo hi pos) t
  | .sequence ns => sequence child t.mark ns pos t
  | .choice ns => choice child (admits σ pos) t.mark none ns pos t
  | .repetition n min max => repetition (child n) σ.input.size min max pos t
  | .ruleRef r => rule σ child (σ.observed r) r pos t
  | .fold n => child n pos t

/-- How the nodes of a grammar match, with no more than `fuel` of them inside one another. --/
def evaluate (σ : Setting) : (fuel : Nat) → Evaluator
  | 0, _, _, _ => none
  | fuel + 1, i, pos, t =>
    match σ.grammar.nodes[i]? with
    | some n => node σ (evaluate σ fuel) n pos t
    | none => some (.noMatch, t)

end Match
end Abnf
