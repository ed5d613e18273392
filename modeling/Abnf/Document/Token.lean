import Abnf.Span

/-! Tokens of a grammar document. A token carries its text and no place: where it stands follows from
    the tokens before it, because tokens cover the source without gaps. -/

namespace Abnf

/-- The kinds of token. --/
inductive TokenKind where
  | parenOpen | parenClose | bracketOpen | bracketClose
  | equals
  /-- The sign `=/`, which adds alternatives to a rule. --/
  | incEquals
  | slash | star
  /-- The sign of a list repetition. --/
  | hash
  | number | ruleName
  /-- A quoted string, perhaps marked as case-sensitive or not. --/
  | charVal
  /-- A quoted string whose line ends before its closing quote. --/
  | unterminatedStr
  /-- A numeric value; its digits are not checked yet. --/
  | numVal
  | proseVal
  | whitespace | newline | comment
  /-- A run of characters that belong to no token. --/
  | garbage
  deriving DecidableEq, Repr, Inhabited

namespace TokenKind

/-- Blanks, line ends and comments separate tokens and mean nothing else. --/
def isTrivia : TokenKind → Bool
  | whitespace | newline | comment => true
  | _ => false

/-- Tokens that no rule can contain. --/
def isError : TokenKind → Bool
  | garbage | unterminatedStr => true
  | _ => false

/-- Tokens that begin an element. --/
def startsElement : TokenKind → Bool
  | ruleName | parenOpen | bracketOpen | charVal | unterminatedStr | numVal | proseVal => true
  | _ => false

/-- Tokens that begin a repeat. --/
def startsRepeat : TokenKind → Bool
  | number | star | hash => true
  | _ => false

/-- Tokens that begin an element with or without a repeat. --/
def startsRepetition (k : TokenKind) : Bool := k.startsElement || k.startsRepeat

/-- The signs between a rule's name and its body. --/
def isDefinedAs : TokenKind → Bool
  | equals | incEquals => true
  | _ => false

end TokenKind

/-- A piece of the source and its kind. --/
structure Token where
  kind : TokenKind
  text : String
  deriving DecidableEq, Repr, Inhabited

namespace Token

/-- The length of a token in bytes. --/
def size (t : Token) : Nat := t.text.utf8ByteSize

/-- Tokens that follow one another from an offset, each with its span. --/
def spans (start : Nat) : List Token → List (Token × Span)
  | [] => []
  | t :: ts => (t, ⟨start, start + t.size⟩) :: spans (start + t.size) ts

end Token
end Abnf
