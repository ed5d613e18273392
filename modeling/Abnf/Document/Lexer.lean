import Abnf.Document.Token

/-! Cutting a source into tokens. The longest token wins; where none begins, the longest stretch that
    could still have become one is garbage, at least one character of it, and neighbouring stretches of
    garbage are one token. -/

namespace Abnf
namespace Lexer

/-! ### Character classes -/

/-- Characters inside quotes. --/
def isQuoted (c : Char) : Bool := c != '"' && c != '\r' && c != '\n'

/-- Characters of a prose value. --/
def isProse (c : Char) : Bool := c != '>' && c != '\r' && c != '\n'

def isLineEnd (c : Char) : Bool := c == '\r' || c == '\n'

def isBlank (c : Char) : Bool := c == ' ' || c == '\t'

def isNameChar (c : Char) : Bool := c.isAlphanum || c == '-'

/-- Characters that a numeric value may run through, whatever its base. --/
def isNumChar (c : Char) : Bool := c.isAlphanum || c == '.' || c == '-'

/-- Letters that mark a quoted string as case-sensitive or not. --/
def isCaseMark (c : Char) : Bool := c == 's' || c == 'S' || c == 'i' || c == 'I'

/-- Letters that name the base of a numeric value. --/
def isBaseMark (c : Char) : Bool :=
  c == 'b' || c == 'B' || c == 'd' || c == 'D' || c == 'x' || c == 'X'

/-! ### The token at the front -/

/-- The number of leading characters in a class. --/
def run (p : Char → Bool) (cs : List Char) : Nat := (cs.takeWhile p).length

/-- What follows an opening quote: the kind of string, and how many characters belong to it. --/
def quoted (cs : List Char) : TokenKind × Nat :=
  let n := run isQuoted cs
  if (cs.drop n).head? = some '"' then (.charVal, n + 1) else (.unterminatedStr, n)

/-- What follows a percent sign. --/
def percent : List Char → TokenKind × Nat
  | [] => (.garbage, 0)
  | mark :: cs =>
    if isCaseMark mark then
      match cs with
      | '"' :: cs =>
        let (kind, n) := quoted cs
        (kind, n + 2)
      | _ => (.garbage, 1)
    else if isBaseMark mark then (.numVal, run isNumChar cs + 1)
    else (.garbage, 0)

/-- What follows an opening angle bracket. Without its closing bracket the rest of the line could
    still have become prose, so all of it is garbage. --/
def prose (cs : List Char) : TokenKind × Nat :=
  let n := run isProse cs
  if (cs.drop n).head? = some '>' then (.proseVal, n + 1) else (.garbage, n)

/-- The token that begins with character `c` before `cs`: its kind, and how many characters of `cs`
    belong to it. --/
def front (c : Char) (cs : List Char) : TokenKind × Nat :=
  if c == '(' then (.parenOpen, 0)
  else if c == ')' then (.parenClose, 0)
  else if c == '[' then (.bracketOpen, 0)
  else if c == ']' then (.bracketClose, 0)
  else if c == '=' then if cs.head? = some '/' then (.incEquals, 1) else (.equals, 0)
  else if c == '/' then (.slash, 0)
  else if c == '*' then (.star, 0)
  else if c == '#' then (.hash, 0)
  else if c.isDigit then (.number, run Char.isDigit cs)
  else if c.isAlpha then (.ruleName, run isNameChar cs)
  else if c == '"' then quoted cs
  else if c == '%' then percent cs
  else if c == '<' then prose cs
  else if isBlank c then (.whitespace, run isBlank cs)
  else if c == '\n' then (.newline, 0)
  else if c == '\r' then if cs.head? = some '\n' then (.newline, 1) else (.garbage, 0)
  else if c == ';' then (.comment, run (fun d => !isLineEnd d) cs)
  else (.garbage, 0)

/-! ### The whole source -/

/-- The source cut at the front again and again. --/
def pieces : List Char → List Token
  | [] => []
  | c :: cs => ⟨(front c cs).1, String.ofList (c :: cs.take (front c cs).2)⟩ :: pieces (cs.drop (front c cs).2)
termination_by cs => cs.length
decreasing_by simp only [List.length_drop, List.length_cons]; omega

/-- Neighbouring garbage made one token. --/
def mergeGarbage : List Token → List Token
  | [] => []
  | t :: ts =>
    match mergeGarbage ts with
    | [] => [t]
    | u :: us =>
      if t.kind = .garbage ∧ u.kind = .garbage then ⟨.garbage, t.text ++ u.text⟩ :: us else t :: u :: us

end Lexer

/-- The tokens of a source. --/
def tokenize (source : String) : List Token := Lexer.mergeGarbage (Lexer.pieces source.toList)

end Abnf
