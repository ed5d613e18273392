import Abnf.Proofs.Binary.Pattern
import Abnf.Proofs.Grammar.Pattern

/-! The format of grammar files, without a word on how they are read. A file is its header and four sections, one after
    the other; what it says is the name of the grammar, the names of the rules and a tree for each of them. -/

namespace Abnf.Binary

/-! ### Trees -/

section
variable (S : UInt32 → List UInt8 → Prop)

mutual

/-- Bytes that spell a tree, each node before its parts. `S` says which string a word stands for. Of the flags of a
    literal only one counts, and the greatest word is no upper bound. --/
def Encodes : Pattern String → List UInt8 → Prop
  | .literal bs ignoreCase, bytes => ∃ flags id, bytes = Tag.literal.byte :: flags :: Word.bytes id ∧ S id bs ∧
      ignoreCase = (flags &&& ignoreCaseFlag != 0)
  | .charRange lo hi, bytes => bytes = Tag.charRange.byte :: (Word.bytes lo ++ Word.bytes hi)
  | .sequence ps, bytes => ∃ n items, bytes = Tag.sequence.byte :: (Word.bytes n ++ items) ∧ n.toNat = ps.length ∧
      EncodesAll ps items
  | .choice ps, bytes => ∃ n items, bytes = Tag.choice.byte :: (Word.bytes n ++ items) ∧ n.toNat = ps.length ∧
      EncodesAll ps items
  | .repetition p min max, bytes => ∃ m item, bytes = Tag.repetition.byte :: (Word.bytes min ++ (Word.bytes m ++ item)) ∧
      max = (if m = unbounded then none else some m) ∧ Encodes p item
  | .ruleRef name, bytes => ∃ id, bytes = Tag.ruleRef.byte :: Word.bytes id ∧ S id (Utf8.bytes name)
  | .fold p, bytes => ∃ item, bytes = Tag.fold.byte :: item ∧ Encodes p item

def EncodesAll : List (Pattern String) → List UInt8 → Prop
  | [], bytes => bytes = []
  | p :: ps, bytes => ∃ item items, bytes = item ++ items ∧ Encodes p item ∧ EncodesAll ps items

end

/-- Bytes that spell the records of the rules that the index names: for each of them its name, in any letter case, and a
    tree that is not too high. --/
def Records.Spell : List String → List (String × Pattern String) → List UInt8 → Prop
  | [], [], bytes => bytes = []
  | indexed :: names, (name, p) :: rules, bytes => ∃ id item items, bytes = Word.bytes id ++ (item ++ items) ∧
      S id (Utf8.bytes name) ∧ sameName name indexed = true ∧ Encodes S p item ∧ p.height ≤ maxDepth + 1 ∧
      Records.Spell names rules items
  | _, _, _ => False

variable {S}

mutual

/-- There is a byte at least for each node. --/
theorem Encodes.size_le : ∀ {p : Pattern String} {bytes : List UInt8}, Encodes S p bytes → p.size ≤ bytes.length
  | .literal .., _, ⟨_, _, rfl, _, _⟩ | .charRange .., _, rfl | .ruleRef _, _, ⟨_, rfl, _⟩ => Nat.le_add_left 1 _
  | .sequence ps, _, ⟨_, items, rfl, _, h⟩ | .choice ps, _, ⟨_, items, rfl, _, h⟩ => by
    have := EncodesAll.sizes_le h
    simp only [Pattern.size, List.length_cons, List.length_append]
    omega
  | .repetition p _ _, _, ⟨_, item, rfl, _, h⟩ => by
    have := Encodes.size_le (p := p) h
    simp only [Pattern.size, List.length_cons, List.length_append]
    omega
  | .fold p, _, ⟨item, rfl, h⟩ => Nat.succ_le_succ (Encodes.size_le (p := p) h)

theorem EncodesAll.sizes_le : ∀ {ps : List (Pattern String)} {bytes : List UInt8}, EncodesAll S ps bytes →
    Pattern.sizes ps ≤ bytes.length
  | [], _, _ => Nat.zero_le _
  | p :: ps, _, ⟨item, items, rfl, h, hs⟩ => by
    have h₁ := Encodes.size_le h
    have h₂ := EncodesAll.sizes_le hs
    simp only [Pattern.sizes, List.length_append]
    omega

end

end

/-! ### Files -/

/-- The parts of a file. --/
structure Sections where
  header : Header
  /-- The bytes of all strings. --/
  blob : List UInt8
  offsets : List UInt32
  index : List UInt32
  records : List UInt8

namespace Sections

/-- What follows the header. --/
def content (s : Sections) : List UInt8 :=
  s.blob ++ (s.offsets.flatMap Word.bytes ++ (s.index.flatMap Word.bytes ++ s.records))

def bytes (s : Sections) : List UInt8 := s.header.bytes ++ s.content

/-- A word stands for the bytes between two offsets that follow one another. --/
def Holds (s : Sections) (id : UInt32) (bs : List UInt8) : Prop :=
  ∃ start stop : UInt32, s.offsets[id.toNat]? = some start ∧ s.offsets[id.toNat + 1]? = some stop ∧
    start.toNat ≤ stop.toNat ∧ stop.toNat ≤ s.blob.length ∧
    bs = (s.blob.drop start.toNat).take (stop.toNat - start.toNat)

/-- The header is that of a grammar file, and of this one. --/
structure Fit (s : Sections) : Prop where
  magic : s.header.magic = magicBytes
  version : s.header.version = formatVersion
  reserved : s.header.reserved.length = 28
  totalSize : s.header.totalSize.toNat = s.bytes.length
  checksum : s.header.checksum = Crc32.checksum s.content
  stringBytes : s.header.stringBytes.toNat = s.blob.length
  /-- There is an offset for each string and one more for the end of the last. --/
  stringCount : s.header.stringCount.toNat + 1 = s.offsets.length
  ruleCount : s.header.ruleCount.toNat = s.index.length

end Sections

/-- A file, and what it says. --/
structure File extends Sections where
  name : String
  /-- The names of the rules in the order of the index. --/
  names : List String
  /-- The name, as the record spells it, and the tree of each rule. --/
  rules : List (String × Pattern String)

/-- What a file says is what stands in it. --/
structure File.Valid (f : File) : Prop extends f.Fit where
  named : f.Holds f.header.name (Utf8.bytes f.name)
  indexed : List.Forall₂ (fun id name => f.Holds id (Utf8.bytes name)) f.index f.names
  distinct : f.names.Pairwise fun a b => sameName a b = false
  spelled : Records.Spell f.Holds f.names f.rules f.records
  nodeCount : f.header.nodeCount.toNat = Pattern.sizes (f.rules.map Prod.snd)
  /-- Trees refer to names of the index, in any letter case. --/
  referred : ∀ rule ∈ f.rules, rule.2.Refers fun name => ∃ indexed ∈ f.names, sameName indexed name = true

/-- A grammar is what a file says, and ready for matching. --/
structure File.Describes (f : File) (g : Grammar) : Prop where
  name : g.name = f.name
  names : g.slots.toList.map Slot.name = f.names
  trees : ∀ (r : RuleId) (rule : String × Pattern String), f.rules[r]? = some rule →
    ∃ i, g.root? r = some i ∧ g.Unfolds g.Stands rule.2 i
  complete : g.isComplete = true
  optimized : g.firstSets = some g.computeFirstSets

end Abnf.Binary
