import Abnf.Proofs.Document.Notation
import Abnf.Proofs.Match.Reader

/-! What a document means, read directly off its typed view. Every form of expression is a reader made of the
    readers of its parts, and a rule reads what its `=` body reads or, after it, what its `=/` bodies
    read; a rule that the document does not define is that of the base. Nothing here knows of nodes:
    rules are looked up by name, and a depth bounds how many of them are inside one another. Nor does anything
    know of how a compiler takes words apart: what they say is a matter of notation (`Notation`). -/

namespace Abnf

/-! ### Values -/

/-- The bytes of values with dots between: the values themselves if each fits in a byte, else their
    characters in UTF-8. --/
def NumVal.bytes (values : List Nat) : List UInt8 :=
  if values.all (· < 0x100) then values.map UInt8.ofNat
  else values.flatMap fun n => String.utf8EncodeChar (Char.ofNat n)

/-- What the digits of a numeric value read: a range if two numbers stand around a dash, else one value or
    several with dots between. --/
def NumVal.digitsReader (input : ByteArray) (base : Nat) (body : List Char) : Reader :=
  match (body.splitOn '-').mapM (Notation.number? base) with
  | some [lo, hi] => Reader.value input lo hi
  | _ =>
    match (body.splitOn '.').mapM (Notation.number? base) with
    | some [n] => Reader.value input n n
    | some ns => Reader.bytes input id (bytes ns)
    | none => Reader.never

/-- What a numeric value reads. --/
def NumVal.reader (input : ByteArray) (text : String) : Reader :=
  match text.toList with
  | _ :: mark :: body =>
    match Notation.radix? mark with
    | some base => digitsReader input base body
    | none => Reader.never
  | _ => Reader.never

/-! ### Strings -/

/-- What a string reads: the text in its quotes, in any case unless it is marked as exact. --/
def Notation.stringReader (input : ByteArray) (text : String) : Reader :=
  match quoted? text.toList with
  | some (exact, content) => Reader.text input exact (String.ofList content)
  | none => Reader.never

/-! ### Repeats -/

namespace Reader

variable (input : ByteArray)

/-- What may be missing. --/
def optional (f : Reader) : Reader := times input.size 0 (some 1) f

/-- The blanks that may stand around a comma. --/
def blanks : Reader := times input.size 0 none (firstOf [value input 0x20 0x20, value input 0x09 0x09])

/-- Elements with commas between, as many as two bounds allow. --/
def list (min : Nat) (max : Option Nat) (f : Reader) : Reader :=
  if max = some 0 then empty input
  else
    let more := times input.size (min - 1) (max.map (· - 1))
      (inOrder [blanks input, text input false ",", blanks input, f])
    if min = 0 then optional input (inOrder [f, more]) else inOrder [f, more]

end Reader

namespace Repeat

/-- The number that a word spells. --/
def number (w : Word) : Nat := (Notation.number? 10 w.text.toList).getD 0

/-- How often at least an element stands. --/
def least (r : Repeat) : Nat :=
  match r.op with
  | .exact => (r.min.map number).getD 1
  | .range | .list => (r.min.map number).getD 0

/-- How often at most an element stands, if there is a bound. --/
def most (r : Repeat) : Option Nat :=
  match r.op with
  | .exact => some ((r.min.map number).getD 1)
  | .range | .list => r.max.map number

/-- What an element under a repeat reads. --/
def reader (input : ByteArray) (r : Repeat) (f : Reader) : Reader :=
  match r.op with
  | .exact | .range => Reader.times input.size r.least r.most f
  | .list => Reader.list input r.least r.most f

end Repeat

/-! ### Expressions -/

namespace Expr

variable (input : ByteArray) (strings : String → Reader)

mutual

/-- What an expression reads, given what strings and rules read. Parts that a fault left out read nothing. --/
def reader (rules : String → Reader) : Expr → Reader
  | alternation _ es => Reader.firstOf (readers rules es)
  | concatenation _ es => Reader.inOrder (readers rules es)
  | repetition _ _ none => Reader.empty input
  | repetition _ none (some e) => reader rules e
  | repetition _ (some r) (some e) => r.reader input (reader rules e)
  | ref w => rules w.text
  | str w => strings w.text
  | num w => NumVal.reader input w.text
  | prose _ => Reader.never
  | group _ none => Reader.empty input
  | group _ (some e) => reader rules e
  | optional _ none => Reader.optional input (Reader.empty input)
  | optional _ (some e) => Reader.optional input (reader rules e)

def readers (rules : String → Reader) : List Expr → List Reader
  | [] => []
  | e :: es => reader rules e :: readers rules es

end

theorem readers_eq_map (rules : String → Reader) : ∀ es : List Expr,
    readers input strings rules es = es.map (reader input strings rules)
  | [] => rfl
  | e :: es => congrArg (reader input strings rules e :: ·) (readers_eq_map rules es)

end Expr

/-! ### Rules -/

/-- What something reads, given what rules read. --/
abbrev Meaning := (String → Reader) → Reader

/-- One meaning, else the others in their order. --/
def Meaning.orElse (f : Meaning) (fs : List Meaning) : Meaning :=
  fun rules => Reader.firstOf (f rules :: fs.map (· rules))

theorem Meaning.orElse_nil (f : Meaning) : f.orElse [] = f := funext fun rules => Reader.firstOf_singleton (f rules)

theorem Meaning.orElse_append (f : Meaning) (fs hs : List Meaning) : f.orElse (fs ++ hs) = (f.orElse fs).orElse hs := by
  funext rules
  unfold orElse
  rw [List.map_append, ← List.cons_append]
  exact Reader.firstOf_append _ _

/-- The body that a definition gives a name, with `=/` or with `=`. --/
def Definition.bodyOf (incremental : Bool) (name : String) (d : Definition) : Option Expr :=
  match d.name, d.definedAs, d.body with
  | some word, some sign, some body =>
    if sameName word.text name ∧ sign.incremental = incremental then some body else none
  | _, _, _ => none

/-- The bodies that definitions give a name, with `=/` or with `=`. --/
def Definition.bodiesOf (incremental : Bool) (name : String) (ds : List Definition) : List Expr :=
  ds.filterMap (bodyOf incremental name)

/-- What a defined rule of a grammar reads. --/
def Grammar.meaning? (g : Grammar) (input : ByteArray) (name : String) : Option Meaning :=
  ((g.find? name).bind g.root?).map fun i rules => (g.pattern i).reader input fun r => rules (g.ruleName r)

/-- A document, and the grammar that defines what it leaves undefined. --/
structure Document where
  definitions : List Definition
  base : Option Grammar

namespace Document

variable (d : Document) (input : ByteArray) (strings : String → Reader)

/-- What the `=` body of a name reads or, if the document has none, the rule of the base. --/
def own? (name : String) : Option Meaning :=
  match (Definition.bodiesOf false name d.definitions).head? with
  | some e => some fun rules => e.reader input strings rules
  | none => d.base.bind fun base => base.meaning? input name

/-- The meaning of a name: its own, followed by its `=/` bodies in the order of the document. --/
def meaning? (name : String) : Option Meaning :=
  (d.own? input strings name).map fun f =>
    f.orElse ((Definition.bodiesOf true name d.definitions).map fun e rules => e.reader input strings rules)

/-- What a rule reads if no more than `depth` rules are inside one another. --/
def ruleReader : (depth : Nat) → String → Reader
  | 0, _ => Reader.never
  | depth + 1, name =>
    match d.meaning? input strings name with
    | some f => f (ruleReader depth)
    | none => Reader.never

/-- Reading a rule from a position on comes to an end, with this result. --/
def Reads (name : String) (pos : Nat) (stop : Option Nat) : Prop :=
  ∃ depth, d.ruleReader input (Notation.stringReader input) depth name pos = some stop

end Document
end Abnf
