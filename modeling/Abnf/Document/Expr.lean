import Abnf.Document.Tree

/-! The typed view of a document: rules, expressions and repeats, each with the span it stands at. Trees
    of faulty documents have a view too; parts that the fault left out are absent from it. -/

namespace Abnf

/-- A token at its place. --/
structure Word where
  text : String
  span : Span
  deriving DecidableEq, Repr, Inhabited

/-- The three ways to say how often an element stands. --/
inductive RepeatOp where
  /-- Exactly so often: `n`. --/
  | exact
  /-- Between two bounds: `n*m`. --/
  | range
  /-- Between two bounds, with commas between: `n#m`. --/
  | list
  deriving DecidableEq, Repr

/-- A repeat and the bounds it spells out. --/
structure Repeat where
  span : Span
  op : RepeatOp
  min : Option Word
  max : Option Word
  deriving DecidableEq, Repr

inductive Expr where
  | alternation (span : Span) (branches : List Expr)
  | concatenation (span : Span) (items : List Expr)
  | repetition (span : Span) (count : Option Repeat) (element : Option Expr)
  | ref (name : Word)
  | str (word : Word)
  | num (word : Word)
  | prose (word : Word)
  | group (span : Span) (body : Option Expr)
  | optional (span : Span) (body : Option Expr)
  deriving Repr, Inhabited

/-- The sign between a rule's name and its body. --/
structure DefinedAs where
  /-- Whether the rule adds alternatives to one already defined. --/
  incremental : Bool
  word : Word
  deriving DecidableEq, Repr

/-- A rule of a document. --/
structure Definition where
  name : Option Word
  definedAs : Option DefinedAs
  body : Option Expr
  deriving Repr

namespace Definition

def isIncremental (d : Definition) : Bool := d.definedAs.any (·.incremental)

end Definition

namespace Expr

def span : Expr → Span
  | alternation s _ | concatenation s _ | repetition s _ _ | group s _ | optional s _ => s
  | ref w | str w | num w | prose w => w.span

end Expr

namespace Tree

/-- The leaves that stand directly among neighbouring trees, the first of which begins at `start`. --/
def directTokens (start : Nat) : List Tree → List (Token × Span)
  | [] => []
  | .leaf t :: ts => (t, ⟨start, start + t.size⟩) :: directTokens (start + t.size) ts
  | .node kind children :: ts => directTokens (start + (Tree.node kind children).size) ts

/-- The first direct leaf of a kind in a class. --/
def token? (p : TokenKind → Bool) (start : Nat) (ts : List Tree) : Option (Token × Span) :=
  (directTokens start ts).find? fun t => p t.1.kind

/-- The first direct leaf of a kind. --/
def word? (kind : TokenKind) (start : Nat) (ts : List Tree) : Option Word :=
  (token? (· == kind) start ts).map fun t => ⟨t.1.text, t.2⟩

end Tree

namespace Repeat

/-- A number among the leaves of a repeat. --/
def number? (t : Option (Token × Span)) : Option Word :=
  t.bind fun t => if t.1.kind = .number then some ⟨t.1.text, t.2⟩ else none

/-- The view of a repeat's leaves. A lone number is the lower bound; an upper bound stands last, after a
    sign. --/
def ofTrees (start : Nat) (ts : List Tree) : Repeat :=
  let words := Tree.directTokens start ts
  let op : RepeatOp :=
    if words.any (·.1.kind == .hash) then .list else if words.any (·.1.kind == .star) then .range else .exact
  { span := ⟨start, start + Tree.sizes ts⟩, op, min := number? words.head?,
    max := if op = .exact then none else number? words.getLast? }

/-- The first repeat among neighbouring trees. --/
def find? (start : Nat) : List Tree → Option Repeat
  | [] => none
  | .node .bounds children :: _ => some (ofTrees start children)
  | t :: ts => find? (start + t.size) ts

end Repeat

namespace Expr

mutual

/-- The expression that a tree at `start` stands for, if it stands for one. --/
def ofTree? (start : Nat) : Tree → Option Expr
  | .leaf _ => none
  | .node kind children =>
    let span : Span := ⟨start, start + Tree.sizes children⟩
    match kind with
    | .alternation => some (.alternation span (ofForest start children))
    | .concatenation => some (.concatenation span (ofForest start children))
    | .repetition => some (.repetition span (Repeat.find? start children) (ofForest start children).head?)
    | .ref => (Tree.word? .ruleName start children).map .ref
    | .str => (Tree.word? .charVal start children).map .str
    | .num => (Tree.word? .numVal start children).map .num
    | .prose => (Tree.word? .proseVal start children).map .prose
    | .group => some (.group span (ofForest start children).head?)
    | .optional => some (.optional span (ofForest start children).head?)
    | .root | .rule | .bounds | .error => none

/-- The expressions among neighbouring trees, the first of which begins at `start`. --/
def ofForest (start : Nat) : List Tree → List Expr
  | [] => []
  | t :: ts => (ofTree? start t).toList ++ ofForest (start + t.size) ts

end

end Expr

namespace Definition

/-- The view of a rule's parts. --/
def ofTrees (start : Nat) (ts : List Tree) : Definition :=
  { name := Tree.word? .ruleName start ts
    definedAs := (Tree.token? TokenKind.isDefinedAs start ts).map fun t =>
      ⟨t.1.kind == .incEquals, ⟨t.1.text, t.2⟩⟩
    body := (Expr.ofForest start ts).head? }

/-- The rules among neighbouring trees. --/
def ofForest (start : Nat) : List Tree → List Definition
  | [] => []
  | .node .rule children :: ts => ofTrees start children :: ofForest (start + Tree.sizes children) ts
  | t :: ts => ofForest (start + t.size) ts

end Definition

namespace Tree

/-- The rules of a document's tree. --/
def definitions : Tree → List Definition
  | .leaf _ => []
  | .node _ children => Definition.ofForest 0 children

end Tree
end Abnf
