import Abnf.Document.Tree

/-! Chunks: the stretches of a document that stand for one rule each. A rule begins in the first column
    and goes on over every line that begins with a blank, so a document falls into chunks before anything
    is known about its rules. -/

namespace Abnf

/-- A token that matters, with the trivia before it. --/
structure Lexeme where
  leading : List Token
  token : Token
  /-- The byte offset of the token. --/
  start : Nat
  /-- Whether the token stands in the first column of a line. --/
  opensLine : Bool
  deriving Repr, Inhabited

namespace Lexeme

def kind (l : Lexeme) : TokenKind := l.token.kind

def span (l : Lexeme) : Span := ⟨l.start, l.start + l.token.size⟩

/-- The trivia before the token, as leaves. --/
def blanks (l : Lexeme) : List Tree := l.leading.map .leaf

/-- The token and the trivia before it, as leaves. --/
def leaves (l : Lexeme) : List Tree := l.blanks ++ [.leaf l.token]

end Lexeme

/-- The lexemes of tokens that begin at offset `start`, and the trivia after the last of them. `leading`
    is trivia already passed, and `opens` says whether a token that comes next begins a line. --/
def lexemesFrom (start : Nat) (leading : List Token) (opens : Bool) : List Token → List Lexeme × List Token
  | [] => ([], leading)
  | t :: ts =>
    if t.kind.isTrivia then lexemesFrom (start + t.size) (leading ++ [t]) (t.kind == .newline) ts
    else
      let (ls, trailing) := lexemesFrom (start + t.size) [] false ts
      (⟨leading, t, start, opens⟩ :: ls, trailing)

/-- The lexemes of a whole document, and the trivia after the last of them. --/
def lexemes (ts : List Token) : List Lexeme × List Token := lexemesFrom 0 [] true ts

/-- The lexemes from one that opens a line, or from the first of the document, up to the next one that
    opens a line. --/
structure Chunk where
  head : Lexeme
  tail : List Lexeme
  deriving Repr

/-- Lexemes cut in front of each one that opens a line. --/
def chunks : List Lexeme → List Chunk
  | [] => []
  | l :: ls => ⟨l, ls.takeWhile (!·.opensLine)⟩ :: chunks (ls.dropWhile (!·.opensLine))
termination_by ls => ls.length
decreasing_by
  have := (List.dropWhile_suffix (fun l : Lexeme => !l.opensLine) (l := ls)).length_le
  simp only [List.length_cons]
  omega

end Abnf
