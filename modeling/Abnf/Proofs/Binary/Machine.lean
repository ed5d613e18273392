import Abnf.Binary.Decode
import Abnf.Proofs.Grammar.CheckedSets

/-! Reading grammar files with every step checked. Offsets are numbers of 64 bits, and counts and ids of 32 bits, none
    of which may outgrow its word. Slices and indexes have to lie inside what they cut; reading goes down
    by a stack with room for `maxDepth + 1` nodes inside one another; and a grammar may hold no more nodes
    than its file has bytes. Records are built into nodes while they are read. -/

namespace Abnf.Binary.Machine

open Checked

/-! ### Headers -/

section
variable {ε : Type}

/-- The word that begins at an offset. --/
def wordAt (bs : List UInt8) (offset : Nat) : Checked ε UInt32 := do
  let a ← present bs[offset]?
  let b ← present bs[← add 64 offset 1]?
  let c ← present bs[← add 64 offset 2]?
  let d ← present bs[← add 64 offset 3]?
  return Word.ofBytes a b c d

def header (bs : List UInt8) : Checked ε Header := do
  ensure .assertion (headerSize ≤ bs.length)
  let reserved ← slice bs 36 64
  ensure .assertion (reserved.length = 28)
  let magic := [← present bs[0]?, ← present bs[1]?, ← present bs[2]?, ← present bs[3]?]
  return { magic, version := ← wordAt bs 4, checksum := ← wordAt bs 8, totalSize := ← wordAt bs 12,
           stringBytes := ← wordAt bs 16, stringCount := ← wordAt bs 20, ruleCount := ← wordAt bs 24,
           nodeCount := ← wordAt bs 28, name := ← wordAt bs 32, reserved }

/-- The size of the header and of the sections before the records. --/
def sizeBeforeRecords (h : Header) : Checked ε Nat := do
  let offsets ← mul 64 (← add 64 h.stringCount.toNat 1) 4
  let index ← mul 64 h.ruleCount.toNat 4
  add 64 (← add 64 (← add 64 h.stringBytes.toNat offsets) index) headerSize

def offsetsOffset (h : Header) : Checked ε Nat := add 64 headerSize h.stringBytes.toNat

def indexOffset (h : Header) : Checked ε Nat := do
  add 64 (← offsetsOffset h) (← mul 64 (← add 64 h.stringCount.toNat 1) 4)

def recordsOffset (h : Header) : Checked ε Nat := do
  add 64 (← indexOffset h) (← mul 64 h.ruleCount.toNat 4)

end

/-- Check the header of a file. --/
def image (bs : List UInt8) : Checked BinaryError Image := do
  if bs.length < headerSize then refuse (.format (.fileTooSmall bs.length))
  else
    let h ← header bs
    if !h.hasMagic then refuse (.format .invalidMagic)
    else if !h.hasVersion then refuse (.version h.version)
    else if h.totalSize.toNat ≠ bs.length then refuse (.format (.sizeMismatch h.totalSize bs.length))
    else
      let content ← slice bs headerSize bs.length
      let checksum := Crc32.checksum content
      if checksum ≠ h.checksum then refuse (.format (.checksumMismatch h.checksum checksum))
      else
        let size ← sizeBeforeRecords h
        if bs.length < size then refuse (.format (.truncated bs.length)) else return ⟨h, bs⟩

/-! ### Strings -/

/-- The section of the strings, whose offsets are left as bytes. --/
structure Strings where
  blob : List UInt8
  offsets : List UInt8
  count : UInt32

namespace Strings

/-- The offset at a place of the table. --/
def offset {ε : Type} (s : Strings) (place : Nat) : Checked ε Nat := do
  return (← wordAt s.offsets (← mul 64 place 4)).toNat

/-- The bytes of a string. --/
def get (s : Strings) (id : UInt32) : Checked FormatError (List UInt8) := do
  if s.count ≤ id then refuse (.badStringId id)
  else
    let start ← s.offset id.toNat
    let stop ← s.offset (← add 32 id.toNat 1)
    if start ≤ stop ∧ stop ≤ s.blob.length then return (s.blob.drop start).take (stop - start)
    else refuse (.badStringTable id)

def getText (s : Strings) (id : UInt32) : Checked FormatError String := do
  match Utf8.text? (← s.get id) with
  | some text => return text
  | none => refuse (.invalidUtf8 id)

end Strings

section
variable {ε : Type}

def strings (m : Image) : Checked ε Strings := do
  let blob ← slice m.bytes headerSize (← offsetsOffset m.header)
  let offsets ← slice m.bytes (← offsetsOffset m.header) (← indexOffset m.header)
  ensure .assertion (offsets.length = (← mul 64 (← add 64 m.header.stringCount.toNat 1) 4))
  return ⟨blob, offsets, m.header.stringCount⟩

end

def name (m : Image) : Checked FormatError String := do (← strings m).getText m.header.name

/-- The runs of four bytes that bytes are made of; fewer than four at the end are left out. --/
def fours : List UInt8 → List (List UInt8)
  | a :: b :: c :: d :: rest => [a, b, c, d] :: fours rest
  | _ => []

/-- The names of the rules in order. A name takes 16 bytes, the text apart. --/
def ruleNames (m : Image) : Checked FormatError (List String) := do
  let s ← strings m
  let index ← slice m.bytes (← indexOffset m.header) (← recordsOffset m.header)
  reserve m.header.ruleCount.toNat 16
  (fours index).mapM fun bs => do s.getText (← wordAt bs 0)

/-! ### Records -/

section
variable (bytes : List UInt8)

/-- The byte at a position, and the position behind it. --/
def readByte (position : Nat) : Checked FormatError (UInt8 × Nat) := do
  match bytes[position]? with
  | none => refuse (.truncated position)
  | some b => return (b, ← add 64 position 1)

def readWord (position : Nat) : Checked FormatError (UInt32 × Nat) := do
  let stop ← add 64 position 4
  if bytes.length < stop then refuse (.truncated position)
  else return (← wordAt (← slice bytes position stop) 0, stop)

/-- The number of nodes that follow. The place of a node takes 4 bytes. --/
def readCount (position : Nat) : Checked FormatError (Nat × Nat) := do
  let (n, position) ← readWord bytes position
  if (← sub bytes.length position) < n.toNat then refuse (.truncated bytes.length)
  else
    reserve n.toNat 4
    return (n.toNat, position)

/-- A place in the records, how many nodes were met up to there, and the grammar that is being built. --/
structure Decoder where
  position : Nat
  nodeCount : Nat
  grammar : Grammar

namespace Decoder

def addNode (d : Decoder) (n : Node) : Checked FormatError (NodeId × Decoder) := do
  ensure .overflow (d.grammar.nodes.size < 2 ^ 32)
  ensure .memory (d.grammar.nodes.size < bytes.length)
  let added := d.grammar.addNode n
  return (added.1, { d with grammar := added.2 })

/-- The place of a name, made for it if it has none yet. --/
def declare (d : Decoder) (name : String) : Checked FormatError (RuleId × Decoder) := do
  let declared := d.grammar.declare name
  ensure .overflow (declared.1 < 2 ^ 32)
  return (declared.1, { d with grammar := declared.2 })

/-- Define a rule, in place of any definition it had. --/
def define (d : Decoder) (name : String) (root : NodeId) : Checked FormatError Decoder := do
  let (r, d) ← d.declare name
  ensure .outOfBounds (r < d.grammar.slots.size)
  return { d with grammar := { d.grammar.setRoot r root with firstSets := none } }

end Decoder

/-- So many nodes one after the other. --/
def readNodes (item : Decoder → Checked FormatError (NodeId × Decoder)) :
    (count : Nat) → Decoder → Checked FormatError (List NodeId × Decoder)
  | 0, d => return ([], d)
  | count + 1, d => do
    let (i, d) ← item d
    let (is, d) ← readNodes item count d
    return (i :: is, d)

/-- A node at a depth, where there is room for so many nodes inside one another. --/
def readNode (s : Strings) : (room depth : Nat) → Decoder → Checked FormatError (NodeId × Decoder)
  | 0, depth, _ => if maxDepth < depth then refuse .nestingTooDeep else fault .stack
  | room + 1, depth, d => do
    if maxDepth < depth then refuse .nestingTooDeep
    else
      let nodeCount ← add 32 d.nodeCount 1
      let (tag, position) ← readByte bytes d.position
      match Tag.ofByte? tag with
      | none => refuse (.unknownTag tag d.position)
      | some .literal =>
        let (flags, position) ← readByte bytes position
        let (id, position) ← readWord bytes position
        let bs ← s.get id
        Decoder.addNode bytes { d with position, nodeCount } (.literal bs (flags &&& ignoreCaseFlag != 0))
      | some .charRange =>
        let (lo, position) ← readWord bytes position
        let (hi, position) ← readWord bytes position
        Decoder.addNode bytes { d with position, nodeCount } (.charRange lo hi)
      | some .sequence =>
        let (n, position) ← readCount bytes position
        let (is, d) ← readNodes (readNode s room (depth + 1)) n { d with position, nodeCount }
        d.addNode bytes (.sequence is)
      | some .choice =>
        let (n, position) ← readCount bytes position
        let (is, d) ← readNodes (readNode s room (depth + 1)) n { d with position, nodeCount }
        d.addNode bytes (.choice is)
      | some .repetition =>
        let (min, position) ← readWord bytes position
        let (max, position) ← readWord bytes position
        let (i, d) ← readNode s room (depth + 1) { d with position, nodeCount }
        d.addNode bytes (.repetition i min (if max = unbounded then none else some max))
      | some .ruleRef =>
        let (id, position) ← readWord bytes position
        let name ← s.getText id
        let (r, d) ← Decoder.declare { d with position, nodeCount } name
        d.addNode bytes (.ruleRef r)
      | some .fold =>
        let (i, d) ← readNode s room (depth + 1) { d with position, nodeCount }
        d.addNode bytes (.fold i)

/-- The record of a rule that the index names. --/
def readRecord (s : Strings) (d : Decoder) (expected : String) : Checked FormatError Decoder := do
  let (id, position) ← readWord bytes d.position
  let name ← s.getText id
  if sameName name expected then
    let (root, d) ← readNode bytes s (maxDepth + 1) 0 { d with position }
    d.define name root
  else refuse (.recordOutOfOrder expected name)

end

/-! ### Grammars -/

/-- The grammar with a place for each name, none of which may come twice. --/
def declareAll (g : Grammar) : List String → Checked FormatError Grammar
  | [] => return g
  | name :: names =>
    match g.find? name with
    | some _ => refuse (.duplicateRule name)
    | none => do
      let declared := g.declare name
      ensure .overflow (declared.1 < 2 ^ 32)
      declareAll declared.2 names

/-- The grammar of an image, not yet prepared for matching. --/
def read (m : Image) : Checked FormatError Grammar := do
  let s ← strings m
  let text ← name m
  let names ← ruleNames m
  let g ← declareAll (.empty text) names
  let start := { position := ← recordsOffset m.header, nodeCount := 0, grammar := g }
  let d ← names.foldlM (readRecord m.bytes s) start
  if d.position ≠ m.bytes.length then refuse (.trailingBytes (← sub m.bytes.length d.position))
  else if d.nodeCount ≠ m.header.nodeCount.toNat then refuse (.nodeCountMismatch m.header.nodeCount d.nodeCount)
  else if d.grammar.isComplete then return d.grammar
  else refuse (.unresolvedRules d.grammar.undefinedNames)

/-- The grammar of an image. --/
def decode (m : Image) : Checked BinaryError Grammar := do
  let g ← (read m).mapError (Stop.map .format)
  return { g with firstSets := some (← firstSets g) }

end Abnf.Binary.Machine
