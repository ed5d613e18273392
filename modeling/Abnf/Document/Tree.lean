import Abnf.Document.Token

/-! Lossless trees. The leaves of a tree are all the tokens of its stretch of source, blanks and comments
    among them, so a tree has no need of offsets: they follow from where it stands. -/

namespace Abnf

/-- The kinds of inner node. --/
inductive NodeKind where
  | root | rule | alternation | concatenation | repetition
  /-- The bounds in front of a repeated element. --/
  | bounds
  | ref | str | num | prose | group | optional
  /-- Tokens that fit nowhere. --/
  | error
  deriving DecidableEq, Repr, Inhabited

inductive Tree where
  | leaf (token : Token)
  | node (kind : NodeKind) (children : List Tree)
  deriving Repr, Inhabited

namespace Tree

mutual

/-- The length of a tree in bytes. --/
def size : Tree → Nat
  | .leaf t => t.size
  | .node _ children => sizes children

/-- The length of neighbouring trees in bytes. --/
def sizes : List Tree → Nat
  | [] => 0
  | t :: ts => t.size + sizes ts

end

mutual

/-- The tokens of a tree, in order. --/
def tokens : Tree → List Token
  | .leaf t => [t]
  | .node _ children => forestTokens children

/-- The tokens of neighbouring trees, in order. --/
def forestTokens : List Tree → List Token
  | [] => []
  | t :: ts => t.tokens ++ forestTokens ts

end

/-- One line of a tree's outline. --/
structure Row where
  depth : Nat
  span : Span
  /-- The kind of an inner node, or a token. --/
  content : NodeKind ⊕ Token

mutual

/-- The nodes and leaves of a tree that begins at offset `start`, each before its children. --/
def outline (depth start : Nat) : Tree → List Row
  | .leaf t => [⟨depth, ⟨start, start + t.size⟩, .inr t⟩]
  | .node kind children =>
    ⟨depth, ⟨start, start + sizes children⟩, .inl kind⟩ :: forestOutline (depth + 1) start children

/-- The outlines of neighbouring trees, the first of which begins at `start`. --/
def forestOutline (depth start : Nat) : List Tree → List Row
  | [] => []
  | t :: ts => outline depth start t ++ forestOutline depth (start + t.size) ts

end

end Tree
end Abnf
