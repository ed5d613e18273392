import Abnf.Binary.Error
import Abnf.Binary.Word

/-! The header of a grammar file: the magic bytes, eight words, and bytes kept for later. The sections
    follow it without gaps: the bytes of all strings, the offsets of the strings, the index of rules, and
    a record for each rule. -/

namespace Abnf.Binary

/-- The bytes that a grammar file begins with. --/
def magicBytes : List UInt8 := [0x52, 0x4B, 0x4F, 0x47]

/-- Whether bytes begin as a grammar file does. --/
def hasMagic (bs : List UInt8) : Bool := magicBytes.isPrefixOf bs

structure Header where
  magic : List UInt8 := magicBytes
  version : UInt32 := formatVersion
  /-- The checksum of all that follows the header. --/
  checksum : UInt32 := 0
  /-- The size of the whole file. --/
  totalSize : UInt32 := 0
  /-- The size of all strings together. --/
  stringBytes : UInt32 := 0
  stringCount : UInt32 := 0
  ruleCount : UInt32 := 0
  nodeCount : UInt32 := 0
  /-- The string that is the name of the grammar. --/
  name : UInt32 := 0
  reserved : List UInt8 := List.replicate 28 0
  deriving DecidableEq, Repr

namespace Header

def bytes (h : Header) : List UInt8 :=
  h.magic ++ Word.bytes h.version ++ Word.bytes h.checksum ++ Word.bytes h.totalSize ++
    Word.bytes h.stringBytes ++ Word.bytes h.stringCount ++ Word.bytes h.ruleCount ++
    Word.bytes h.nodeCount ++ Word.bytes h.name ++ h.reserved

/-- The word that begins at an offset, or zero past the end. --/
def wordAt (bs : List UInt8) (offset : Nat) : UInt32 := ((Word.read? (bs.drop offset)).map Prod.fst).getD 0

/-- The header that bytes begin with; none if they are fewer than a header has. --/
def ofBytes? (bs : List UInt8) : Option Header :=
  if bs.length < headerSize then none
  else some
    { magic := bs.take 4, version := wordAt bs 4, checksum := wordAt bs 8, totalSize := wordAt bs 12,
      stringBytes := wordAt bs 16, stringCount := wordAt bs 20, ruleCount := wordAt bs 24,
      nodeCount := wordAt bs 28, name := wordAt bs 32, reserved := (bs.drop 36).take 28 }

def hasMagic (h : Header) : Bool := h.magic == magicBytes

def hasVersion (h : Header) : Bool := h.version == formatVersion

/-! ### Where the sections begin -/

def stringsOffset (_ : Header) : Nat := headerSize

def offsetsOffset (h : Header) : Nat := h.stringsOffset + h.stringBytes.toNat

/-- There is an offset for each string and one more for the end of the last. --/
def indexOffset (h : Header) : Nat := h.offsetsOffset + (h.stringCount.toNat + 1) * 4

def recordsOffset (h : Header) : Nat := h.indexOffset + h.ruleCount.toNat * 4

end Header
end Abnf.Binary
