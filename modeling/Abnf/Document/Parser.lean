import Abnf.Diagnostic.Basic
import Abnf.Document.Chunk
import Abnf.Document.Lexer

/-! Reading a chunk as a rule. The grammar is

        rule          = name ( "=" / "=/" ) alternation
        alternation   = concatenation *( "/" concatenation )
        concatenation = 1*repetition
        repetition    = [ number / [ number ] ( "*" / "#" ) [ number ] ] element
        element       = name / string / numeric / prose / "(" alternation ")" / "[" alternation "]"

    where the parts of a repeat touch one another and their element. A reader takes what it can, tells of
    what is missing or does not belong, and puts what it cannot use under an error node, so no token is
    lost. Trivia stands in front of the node that its token begins; only an alternation of several
    branches has the trivia of its first token inside, since it begins where the sign before it ends. -/

namespace Abnf

/-- The kinds of bracket: round ones group, square ones make optional. --/
inductive Bracket where
  | group | optional
  deriving DecidableEq, Repr

namespace Bracket

def node : Bracket → NodeKind
  | group => .group
  | optional => .optional

def closing : Bracket → TokenKind
  | group => .parenClose
  | optional => .bracketClose

def unclosed : Bracket → Diagnostic.Kind
  | group => .unclosedGroup
  | optional => .unclosedOption

/-- The note at the opening bracket of an unclosed pair. --/
def openedHere : Bracket → String
  | group => "group opened here"
  | optional => "option opened here"

end Bracket

namespace Parser

/-- What stays the same while a chunk is read. --/
structure Scope where
  /-- How deep brackets may nest. --/
  limit : Nat
  /-- The offset of the first token after the chunk, or of the end of the source. --/
  next : Nat

/-- What changes while a chunk is read. --/
structure State where
  /-- The lexemes still to be read. --/
  rest : List Lexeme
  /-- The end of the last token read. --/
  lastStop : Nat
  /-- Brackets nested too deep in this chunk, which is told once and for all that follows from it. --/
  tooDeep : Bool
  /-- The offset of the last report. Nothing else is told of the same place. --/
  reported : Option Nat
  diagnostics : List Diagnostic

namespace State

/-- Whether the next token is in a class. --/
def sees (s : State) (p : TokenKind → Bool) : Bool := s.rest.head?.any fun l => p l.kind

/-- Whether the next token is in a class and touches the last one. --/
def touches (s : State) (p : TokenKind → Bool) : Bool :=
  s.rest.head?.any fun l => l.leading.isEmpty && p l.kind

/-- The trivia before the next token, and the state in front of the token itself. --/
def blanks (s : State) : List Tree × State :=
  match s.rest with
  | [] => ([], s)
  | l :: ls => (l.blanks, { s with rest := { l with leading := [] } :: ls })

/-- The next token after its trivia. --/
def take (s : State) : List Tree × State :=
  match s.rest with
  | [] => ([], s)
  | l :: ls => (l.leaves, { s with rest := ls, lastStop := l.span.stop })

/-- All that is left. --/
def takeAll (s : State) : List Tree × State :=
  (s.rest.flatMap Lexeme.leaves,
    { s with rest := [], lastStop := (s.rest.getLast?.map fun l => l.span.stop).getD s.lastStop })

/-- Tell of a fault noticed at an offset, unless the last report was of that offset. --/
def report (s : State) (offset : Nat) (d : Diagnostic) : State :=
  if s.reported = some offset then s
  else { s with reported := some offset, diagnostics := s.diagnostics ++ [d] }

/-- Tell of a fault that begins where it is noticed. --/
def tell (s : State) (d : Diagnostic) : State := s.report d.span.start d

end State

/-- A reader: the trees it makes, and what it leaves. --/
abbrev Reader := State → List Tree × State

/-! ### Repeats and lists -/

/-- The bounds of a repeat, whose parts touch one another. --/
def bounds : Reader := fun s =>
  let (low, s) := if s.touches (· == .number) then s.take else ([], s)
  if s.touches fun k => k == .star || k == .hash then
    let (sign, s) := s.take
    let (high, s) := if s.touches (· == .number) then s.take else ([], s)
    ([.node .bounds (low ++ sign ++ high)], s)
  else ([.node .bounds low], s)

/-- An element with or without a repeat in front of it. --/
def repetition (element : Reader) : Reader := fun s =>
  if s.sees TokenKind.startsRepeat then
    let (count, s) := bounds s
    if s.touches TokenKind.startsElement then
      let (item, s) := element s
      ([.node .repetition (count ++ item)], s)
    else
      let missing := Diagnostic.of .expectedElement (.empty s.lastStop)
      ([.node .repetition count], s.tell (missing.detailed "no element directly after the repeat"))
  else element s

/-- Repetitions as long as one begins, at most `fuel` of them, each after its trivia. --/
def repetitions (element : Reader) : (fuel : Nat) → Reader
  | 0, s => ([], s)
  | fuel + 1, s =>
    if s.sees TokenKind.startsRepetition then
      let (blanks, s) := s.blanks
      let (item, s) := repetition element s
      let (items, s) := repetitions element fuel s
      (blanks ++ item ++ items, s)
    else ([], s)

/-- One or more repetitions; a node of their own only if there are more. --/
def concatenation (element : Reader) : Reader := fun s =>
  if s.sees TokenKind.startsRepetition then
    let (blanks, s) := s.blanks
    let (first, s) := repetition element s
    let (more, s) := repetitions element s.rest.length s
    if more.isEmpty then (blanks ++ first, s) else (blanks ++ [.node .concatenation (first ++ more)], s)
  else ([], if s.tooDeep then s else s.tell (.of .expectedElement (.empty s.lastStop)))

/-- Further branches, at most `fuel` of them, each after its slash. --/
def branches (element : Reader) : (fuel : Nat) → Reader
  | 0, s => ([], s)
  | fuel + 1, s =>
    if s.sees (· == .slash) then
      let (slash, s) := s.take
      let (branch, s) := concatenation element s
      let (more, s) := branches element fuel s
      (slash ++ branch ++ more, s)
    else ([], s)

/-- One or more branches; a node of their own only if there are more. --/
def alternation (element : Reader) : Reader := fun s =>
  let (first, s) := concatenation element s
  let (more, s) := branches element s.rest.length s
  if more.isEmpty then (first, s) else ([.node .alternation (first ++ more)], s)

/-! ### Elements -/

/-- The next token under a node of its own. --/
def single (kind : NodeKind) : Reader := fun s =>
  let (leaf, s) := s.take
  ([.node kind leaf], s)

/-- A token that is no element. --/
def misfit (kind : Diagnostic.Kind) (l : Lexeme) : Reader := fun s =>
  single .error (s.tell (.of kind l.span))

/-- A pair of brackets that begins with `opening`, and what `body` reads between them. --/
def bracketed (σ : Scope) (b : Bracket) (opening : Lexeme) (body : Reader) : Reader := fun s =>
  let (left, s) := s.take
  let (inner, s) := body s
  if s.sees (· == b.closing) then
    let (right, s) := s.take
    ([.node b.node (left ++ inner ++ right)], s)
  else
    let tree := Tree.node b.node (left ++ inner)
    if s.tooDeep then ([tree], s)
    else
      -- The span covers the whole construct, but the fault is noticed at the token that should have closed it.
      let noticed := (s.rest.head?.map Lexeme.start).getD σ.next
      let span := ⟨opening.start, max s.lastStop opening.span.stop⟩
      ([tree], s.report noticed ((Diagnostic.of b.unclosed span).relatedTo b.openedHere opening.span))

/-- Brackets deeper than allowed: all that follows them in the chunk is left unread. --/
def tooDeep (σ : Scope) (b : Bracket) (opening : Lexeme) : Reader := fun s =>
  let (left, s) := s.take
  let s := s.tell ((Diagnostic.of .nestingTooDeep opening.span).detailed s!"more than {σ.limit} levels")
  let (unread, s) := { s with tooDeep := true }.takeAll
  ([.node b.node (left ++ [.node .error unread])], s)

/-- An element, where `body` reads what stands between brackets; without it brackets are too deep. --/
def elementWith (σ : Scope) (body : Option Reader) : Reader := fun s =>
  let brackets (b : Bracket) (l : Lexeme) : Reader := match body with
    | some body => bracketed σ b l body
    | none => tooDeep σ b l
  match s.rest with
  | [] => ([], s)
  | l :: _ =>
    match l.kind with
    | .ruleName => single .ref s
    | .charVal => single .str s
    | .numVal => single .num s
    | .proseVal => single .prose s
    | .parenOpen => brackets .group l s
    | .bracketOpen => brackets .optional l s
    | .unterminatedStr => misfit .unterminatedString l s
    | _ => misfit .unexpectedToken l s

/-- An element in which brackets may nest `levels` deep. --/
def element (σ : Scope) : (levels : Nat) → Reader
  | 0, s => elementWith σ none s
  | levels + 1, s => elementWith σ (some (alternation (element σ levels))) s

/-! ### Rules and documents -/

/-- What is left of a chunk, under an error node after the trivia before it, and told of as `kind`. --/
def leftover (kind : Option Diagnostic.Kind) : Reader := fun s =>
  match s.rest with
  | [] => ([], s)
  | l :: _ =>
    let s := match kind with
      | some kind => s.tell (.of kind l.span)
      | none => s
    let (blanks, s) := s.blanks
    let (rest, s) := s.takeAll
    (blanks ++ [.node .error rest], s)

/-- A rule, in front of its name. --/
def rule (σ : Scope) : Reader := fun s =>
  let (name, s) := s.take
  if s.sees TokenKind.isDefinedAs then
    let (sign, s) := s.take
    let (body, s) := alternation (element σ σ.limit) s
    let (rest, s) := leftover (if s.tooDeep then none else some .unexpectedToken) s
    ([.node .rule (name ++ sign ++ body ++ rest)], s)
  else
    let (rest, s) := leftover none (s.tell (.of .expectedDefinedAs (.empty s.lastStop)))
    ([.node .rule (name ++ rest)], s)

/-- A chunk as a rule, or all under an error node if it does not begin with a name. `reported` is the
    offset of the last report before the chunk. --/
def chunk (σ : Scope) (reported : Option Nat) (c : Chunk) : List Tree × State :=
  let s : State :=
    { rest := c.head :: c.tail, lastStop := c.head.start, tooDeep := false, reported, diagnostics := [] }
  if c.head.kind = .ruleName then
    let (blanks, s) := s.blanks
    let (tree, s) := rule σ s
    (blanks ++ tree, s)
  else leftover (some .expectedRuleName) s

/-- Chunks one after the other, in a source that ends at offset `stop`. --/
def document (limit stop : Nat) (reported : Option Nat) : List Chunk → List Tree × List Diagnostic
  | [] => ([], [])
  | c :: cs =>
    let next := (cs.head?.map fun c => c.head.start).getD stop
    let (trees, s) := chunk ⟨limit, next⟩ reported c
    let (more, ds) := document limit stop s.reported cs
    (trees ++ more, s.diagnostics ++ ds)

end Parser

/-- A document as a tree, and what is wrong with it. --/
structure Parse where
  tree : Tree
  diagnostics : List Diagnostic

/-- How deep brackets may nest unless a caller says otherwise. --/
def defaultNestingLimit : Nat := 256

/-- Read a document in which brackets may nest `limit` deep. --/
def parse (source : String) (limit : Nat) : Parse :=
  let (ls, trailing) := lexemes (tokenize source)
  let (trees, diagnostics) := Parser.document limit source.utf8ByteSize none (chunks ls)
  ⟨.node .root (trees ++ trailing.map .leaf), diagnostics⟩

end Abnf
