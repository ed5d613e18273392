import Abnf.Binary.Encode
import Abnf.Grammar.Optimize

/-! Reading a grammar from a file. First the header is checked against the bytes; what passes is an image,
    whose sections can be read. Then its records are read in the order of the index, and only when all of
    them are sound is a grammar built from them. -/

namespace Abnf

namespace Grammar

mutual

/-- Add the nodes of a pattern, each behind its parts. References make a place for the name they go by. --/
def addPattern : Pattern String → Grammar → NodeId × Grammar
  | .literal bs ignoreCase, g => g.addNode (.literal bs ignoreCase)
  | .charRange lo hi, g => g.addNode (.charRange lo hi)
  | .sequence ps, g =>
    let (is, g) := addPatterns ps g
    g.addNode (.sequence is)
  | .choice ps, g =>
    let (is, g) := addPatterns ps g
    g.addNode (.choice is)
  | .repetition p min max, g =>
    let (i, g) := addPattern p g
    g.addNode (.repetition i min max)
  | .ruleRef name, g => g.addRef name
  | .fold p, g =>
    let (i, g) := addPattern p g
    g.addNode (.fold i)

def addPatterns : List (Pattern String) → Grammar → List NodeId × Grammar
  | [], g => ([], g)
  | p :: ps, g =>
    let (i, g) := addPattern p g
    let (is, g) := addPatterns ps g
    (i :: is, g)

end

/-- Define a rule by a pattern. --/
def definePattern (g : Grammar) (name : String) (p : Pattern String) : Grammar :=
  let (i, g) := g.addPattern p
  (g.define name i).2

end Grammar

namespace Binary

/-! ### Images -/

/-- A file whose header fits its bytes. --/
structure Image where
  header : Header
  bytes : List UInt8

namespace Image

/-- Check the header of a file. --/
def ofBytes (bs : List UInt8) : Except BinaryError Image :=
  match Header.ofBytes? bs with
  | none => .error (.format (.fileTooSmall bs.length))
  | some h =>
    let checksum := Crc32.checksum (bs.drop headerSize)
    if !h.hasMagic then .error (.format .invalidMagic)
    else if !h.hasVersion then .error (.version h.version)
    else if h.totalSize.toNat ≠ bs.length then .error (.format (.sizeMismatch h.totalSize bs.length))
    else if checksum ≠ h.checksum then .error (.format (.checksumMismatch h.checksum checksum))
    else if bs.length < h.recordsOffset then .error (.format (.truncated bs.length))
    else .ok ⟨h, bs⟩

/-- The bytes from one offset up to another. --/
def slice (m : Image) (start stop : Nat) : List UInt8 := (m.bytes.drop start).take (stop - start)

def strings (m : Image) : StringView :=
  let h := m.header
  StringView.ofBytes (m.slice h.stringsOffset h.offsetsOffset) (m.slice h.offsetsOffset h.indexOffset)
    h.stringCount

/-- The name of the grammar. --/
def name (m : Image) : Except FormatError String := m.strings.getText m.header.name

/-- For each rule the string that is its name. --/
def index (m : Image) : List UInt32 := Word.all (m.slice m.header.indexOffset m.header.recordsOffset)

/-- The names of the rules in order. --/
def ruleNames (m : Image) : Except FormatError (List String) :=
  let strings := m.strings
  m.index.mapM strings.getText

end Image

/-! ### Records -/

/-- A place in the records, and the bytes from it on. --/
structure Cursor where
  offset : Nat
  rest : List UInt8

namespace Cursor

def byte (c : Cursor) : Except FormatError (UInt8 × Cursor) :=
  match c.rest with
  | b :: rest => .ok (b, ⟨c.offset + 1, rest⟩)
  | [] => .error (.truncated c.offset)

def word (c : Cursor) : Except FormatError (UInt32 × Cursor) :=
  match Word.read? c.rest with
  | some (w, rest) => .ok (w, ⟨c.offset + 4, rest⟩)
  | none => .error (.truncated c.offset)

/-- The number of nodes that follow, which cannot be more than there are bytes left. --/
def count (c : Cursor) : Except FormatError (Nat × Cursor) := do
  let (w, c) ← c.word
  if w.toNat ≤ c.rest.length then .ok (w.toNat, c) else .error (.truncated (c.offset + c.rest.length))

end Cursor

/-- How something is read from the records. --/
abbrev Reading (α : Type) := Cursor → Except FormatError (α × Cursor)

/-- So many things one after the other. --/
def readMany {α : Type} (item : Reading α) : (count : Nat) → Reading (List α)
  | 0, c => .ok ([], c)
  | count + 1, c => do
    let (x, c) ← item c
    let (xs, c) ← readMany item count c
    return (x :: xs, c)

/-- A pattern that nests fewer than `levels` deep. --/
def readPattern (strings : StringView) : (levels : Nat) → Reading (Pattern String)
  | 0, _ => .error .nestingTooDeep
  | levels + 1, c => do
    let (tag, rest) ← c.byte
    match Tag.ofByte? tag with
    | none => .error (.unknownTag tag c.offset)
    | some .literal =>
      let (flags, c) ← rest.byte
      let (id, c) ← c.word
      let bs ← strings.get id
      return (.literal bs (flags &&& ignoreCaseFlag != 0), c)
    | some .charRange =>
      let (lo, c) ← rest.word
      let (hi, c) ← c.word
      return (.charRange lo hi, c)
    | some .sequence =>
      let (n, c) ← rest.count
      let (ps, c) ← readMany (readPattern strings levels) n c
      return (.sequence ps, c)
    | some .choice =>
      let (n, c) ← rest.count
      let (ps, c) ← readMany (readPattern strings levels) n c
      return (.choice ps, c)
    | some .repetition =>
      let (min, c) ← rest.word
      let (max, c) ← c.word
      let (p, c) ← readPattern strings levels c
      return (.repetition p min (if max = unbounded then none else some max), c)
    | some .ruleRef =>
      let (id, c) ← rest.word
      return (.ruleRef (← strings.getText id), c)
    | some .fold =>
      let (p, c) ← readPattern strings levels rest
      return (.fold p, c)

/-- The record of a rule that the index names. The record may spell the name in another letter case. --/
def readRecord (strings : StringView) (expected : String) : Reading (String × Pattern String) := fun c => do
  let (id, c) ← c.word
  let name ← strings.getText id
  if sameName name expected then
    let (p, c) ← readPattern strings (maxDepth + 1) c
    return ((name, p), c)
  else .error (.recordOutOfOrder expected name)

/-- The records of the rules that the index names, in order. --/
def readRecords (strings : StringView) : List String → Reading (List (String × Pattern String))
  | [], c => .ok ([], c)
  | name :: names, c => do
    let (rule, c) ← readRecord strings name c
    let (rules, c) ← readRecords strings names c
    return (rule :: rules, c)

/-! ### Grammars -/

/-- The grammar with a place for each name, none of which may come twice. --/
def declareDistinct (g : Grammar) : List String → Except FormatError Grammar
  | [] => .ok g
  | name :: names =>
    match g.find? name with
    | some _ => .error (.duplicateRule name)
    | none => declareDistinct (g.declare name).2 names

/-- The grammar of an image, not yet prepared for matching. --/
def Image.read (m : Image) : Except FormatError Grammar := do
  let strings := m.strings
  let name ← m.name
  let names ← m.ruleNames
  let g ← declareDistinct (.empty name) names
  let (rules, c) ← readRecords strings names ⟨m.header.recordsOffset, m.bytes.drop m.header.recordsOffset⟩
  let nodeCount := Pattern.sizes (rules.map Prod.snd)
  if !c.rest.isEmpty then .error (.trailingBytes c.rest.length)
  else if nodeCount ≠ m.header.nodeCount.toNat then .error (.nodeCountMismatch m.header.nodeCount nodeCount)
  else
    let g := rules.foldl (fun g r => g.definePattern r.1 r.2) g
    if g.isComplete then .ok g else .error (.unresolvedRules g.undefinedNames)

/-- The grammar of an image. --/
def Image.decode (m : Image) : Except BinaryError Grammar :=
  match m.read with
  | .ok g => .ok g.optimize
  | .error e => .error (.format e)

/-- The grammar of a file. --/
def decode (bs : List UInt8) : Except BinaryError Grammar := do (← Image.ofBytes bs).decode

end Binary
end Abnf
