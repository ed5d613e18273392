import Abnf.Binary.Error
import Abnf.Binary.Word

/-! The strings of a grammar file. Names and literals share one table, in which each string stands once and
    is known by its place. In the file the table is the bytes of all strings, one after the other, and
    for each string the offset at which it begins; the end of the last is a further offset. -/

namespace Abnf.Binary

/-- The table while a file is written, in the order of first use. --/
structure StringTable where
  entries : Array (List UInt8)
  deriving DecidableEq, Repr

namespace StringTable

def empty : StringTable := ⟨#[]⟩

/-- The place of a string, made for it if it has none yet. --/
def intern (bs : List UInt8) (t : StringTable) : UInt32 × StringTable :=
  match t.entries.findIdx? (· == bs) with
  | some i => (UInt32.ofNat i, t)
  | none => (UInt32.ofNat t.entries.size, ⟨t.entries.push bs⟩)

/-- The bytes of all strings. --/
def blob (t : StringTable) : List UInt8 := t.entries.toList.flatten

/-- The offsets of strings of which the first begins at `start`, and the end of the last. --/
def offsetsFrom (start : Nat) : List (List UInt8) → List UInt32
  | [] => [UInt32.ofNat start]
  | bs :: rest => UInt32.ofNat start :: offsetsFrom (start + bs.length) rest

def offsets (t : StringTable) : List UInt32 := offsetsFrom 0 t.entries.toList

end StringTable

/-- The table as it is read. --/
structure StringView where
  blob : Array UInt8
  offsets : Array UInt32
  count : UInt32

namespace StringView

/-- The view of a section, given the bytes of the strings and those of their offsets. --/
def ofBytes (blob offsets : List UInt8) (count : UInt32) : StringView :=
  ⟨blob.toArray, (Word.all offsets).toArray, count⟩

/-- The bytes of a string. --/
def get (v : StringView) (id : UInt32) : Except FormatError (List UInt8) :=
  if v.count ≤ id then .error (.badStringId id)
  else
    let start := (v.offsets.getD id.toNat 0).toNat
    let stop := (v.offsets.getD (id.toNat + 1) 0).toNat
    if start ≤ stop ∧ stop ≤ v.blob.size then .ok (v.blob.extract start stop).toList
    else .error (.badStringTable id)

/-- The text of a string. --/
def getText (v : StringView) (id : UInt32) : Except FormatError String := do
  match Utf8.text? (← v.get id) with
  | some text => .ok text
  | none => .error (.invalidUtf8 id)

end StringView
end Abnf.Binary
