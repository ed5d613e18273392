import Abnf.Binary.Crc32
import Abnf.Binary.Header
import Abnf.Binary.Strings
import Abnf.Binary.Tag
import Abnf.Grammar.Pattern

/-! Writing a grammar as a file. Each rule is a record: the string that is its name, and its pattern, every
    node before its parts. References go by name, so a record is complete in itself. -/

namespace Abnf

namespace Pattern

variable {ρ : Type}

mutual

/-- The number of nodes of a pattern. --/
def size : Pattern ρ → Nat
  | literal .. | charRange .. | ruleRef _ => 1
  | sequence ps | choice ps => sizes ps + 1
  | repetition p _ _ | fold p => size p + 1

def sizes : List (Pattern ρ) → Nat
  | [] => 0
  | p :: ps => size p + sizes ps

end

end Pattern

namespace Binary

mutual

/-- The bytes of a pattern, with `name` for the rules it refers to, and the strings they need. --/
def encodePattern {ρ : Type} (name : ρ → String) : Pattern ρ → StringTable → List UInt8 × StringTable
  | .literal bs ignoreCase, t =>
    let (id, t) := t.intern bs
    (Tag.literal.byte :: (if ignoreCase then ignoreCaseFlag else 0) :: Word.bytes id, t)
  | .charRange lo hi, t => (Tag.charRange.byte :: (Word.bytes lo ++ Word.bytes hi), t)
  | .sequence ps, t =>
    let (items, t) := encodePatterns name ps t
    (Tag.sequence.byte :: (Word.bytes (UInt32.ofNat ps.length) ++ items), t)
  | .choice ps, t =>
    let (items, t) := encodePatterns name ps t
    (Tag.choice.byte :: (Word.bytes (UInt32.ofNat ps.length) ++ items), t)
  | .repetition p min max, t =>
    let (item, t) := encodePattern name p t
    (Tag.repetition.byte :: (Word.bytes min ++ Word.bytes (max.getD unbounded) ++ item), t)
  | .ruleRef r, t =>
    let (id, t) := t.intern (Utf8.bytes (name r))
    (Tag.ruleRef.byte :: Word.bytes id, t)
  | .fold p, t =>
    let (item, t) := encodePattern name p t
    (Tag.fold.byte :: item, t)

/-- The bytes of patterns one after the other. --/
def encodePatterns {ρ : Type} (name : ρ → String) : List (Pattern ρ) → StringTable → List UInt8 × StringTable
  | [], t => ([], t)
  | p :: ps, t =>
    let (item, t) := encodePattern name p t
    let (items, t) := encodePatterns name ps t
    (item ++ items, t)

end

/-- What the records of rules come to. --/
structure Records where
  /-- For each rule the string that is its name. --/
  index : List UInt32
  bytes : List UInt8
  nodeCount : Nat

/-- The records of rules, and the strings they need. --/
def encodeRules (g : Grammar) : List (RuleId × String × NodeId) → StringTable → Records × StringTable
  | [], t => (⟨[], [], 0⟩, t)
  | (_, name, root) :: rules, t =>
    let pattern := g.pattern root
    let (id, t) := t.intern (Utf8.bytes name)
    let (body, t) := encodePattern g.ruleName pattern t
    let (rest, t) := encodeRules g rules t
    (⟨id :: rest.index, Word.bytes id ++ body ++ rest.bytes, pattern.size + rest.nodeCount⟩, t)

/-- The file of a grammar, which has to define all its rules. --/
def encode (g : Grammar) : Except BinaryError (List UInt8) :=
  if g.isComplete then
    let (name, t) := StringTable.empty.intern (Utf8.bytes g.name)
    let (records, t) := encodeRules g g.rules t
    let blob := t.blob
    let content := blob ++ t.offsets.flatMap Word.bytes ++ records.index.flatMap Word.bytes ++ records.bytes
    let header : Header :=
      { checksum := Crc32.checksum content, totalSize := UInt32.ofNat (headerSize + content.length),
        stringBytes := UInt32.ofNat blob.length, stringCount := UInt32.ofNat t.entries.size,
        ruleCount := UInt32.ofNat records.index.length, nodeCount := UInt32.ofNat records.nodeCount, name }
    .ok (header.bytes ++ content)
  else .error (.incomplete g.name g.undefinedNames)

end Binary
end Abnf
