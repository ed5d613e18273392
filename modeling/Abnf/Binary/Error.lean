import Abnf.Files.IoError
import Abnf.Text.Byte

/-! Why a grammar cannot be saved, and why bytes are not the file of a grammar. -/

namespace Abnf

namespace Binary

/-- The length of the header in bytes. --/
def headerSize : Nat := 64

/-- The one version of the format. --/
def formatVersion : UInt32 := 1

/-- How deep nodes may nest in a file below the root of their rule. --/
def maxDepth : Nat := 1024

end Binary

/-- A fault in the structure of a file. --/
inductive FormatError where
  | invalidMagic
  | fileTooSmall (size : Nat)
  | sizeMismatch (header : UInt32) (actual : Nat)
  | checksumMismatch (expected actual : UInt32)
  /-- The data ended where more of it was due. --/
  | truncated (offset : Nat)
  | unknownTag (tag : UInt8) (offset : Nat)
  | badStringId (id : UInt32)
  /-- The offsets of a string do not enclose a stretch of the strings' bytes. --/
  | badStringTable (id : UInt32)
  | invalidUtf8 (id : UInt32)
  | duplicateRule (name : String)
  | recordOutOfOrder (expected found : String)
  | nestingTooDeep
  | nodeCountMismatch (header : UInt32) (actual : Nat)
  | trailingBytes (count : Nat)
  | unresolvedRules (names : List String)
  deriving DecidableEq, Repr

namespace FormatError

/-- Eight hexadecimal digits. --/
def hexWord (w : UInt32) : String :=
  let ds := (Hex.digits w.toNat).map Char.toLower
  String.ofList (List.replicate (8 - ds.length) '0' ++ ds)

def message : FormatError → String
  | invalidMagic => "invalid magic: expected RKOG"
  | fileTooSmall size => s!"file too small: {size} bytes (minimum {Binary.headerSize})"
  | sizeMismatch header actual => s!"size mismatch: header says {header.toNat} bytes, got {actual}"
  | checksumMismatch expected actual =>
    s!"checksum mismatch: header says {hexWord expected}, content hashes to {hexWord actual}"
  | truncated offset => s!"unexpected end of data at offset {offset}"
  | unknownTag tag offset => s!"unknown node tag {tag.toNat} at offset {offset}"
  | badStringId id => s!"string id {id.toNat} out of range"
  | badStringTable id => s!"corrupt string table entry {id.toNat}"
  | invalidUtf8 id => s!"string {id.toNat} is not valid UTF-8"
  | duplicateRule name => s!"rule `{name}` is defined twice"
  | recordOutOfOrder expected found => s!"rule record `{found}` found where `{expected}` was indexed"
  | nestingTooDeep => s!"nodes nested deeper than {Binary.maxDepth} levels"
  | nodeCountMismatch header actual => s!"header declares {header.toNat} nodes, records contain {actual}"
  | trailingBytes count => s!"{count} trailing bytes after the last rule"
  | unresolvedRules names => "references to undefined rules: " ++ ", ".intercalate names

end FormatError

/-- Why a grammar is not saved or loaded. --/
inductive BinaryError where
  | format (e : FormatError)
  | version (found : UInt32)
  /-- A grammar with rules that have no definition is not saved. --/
  | incomplete (grammar : String) (rules : List String)
  | io (e : IoError)
  deriving DecidableEq, Repr

namespace BinaryError

def message : BinaryError → String
  | format e => "malformed grammar file: " ++ e.message
  | version found => s!"unsupported grammar format version {found.toNat} (expected {Binary.formatVersion.toNat})"
  | incomplete grammar rules => s!"grammar `{grammar}` has undefined rules: " ++ ", ".intercalate rules
  | io e => "io error: " ++ e.message

def isFormat : BinaryError → Bool
  | format _ => true
  | _ => false

def isVersion : BinaryError → Bool
  | version _ => true
  | _ => false

end BinaryError
end Abnf
