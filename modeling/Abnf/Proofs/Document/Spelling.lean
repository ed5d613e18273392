import Abnf.Document.Lexer
import Abnf.Proofs.Document.Lexemes
import Abnf.Proofs.Text.Number
import Mathlib.Data.List.Forall2

/-! Texts of marks: tokens that matter, each with one blank in front of it or none. If each token would be cut in front
    of what follows it, the text of marks is cut into just these tokens (`pieces_marks`), and their lexemes are the
    tokens with the blanks (`lexemesFrom_marks`). A text of lines, each of which is a name and marks, falls into a chunk
    for each line (`chunks_lines`). -/

namespace Abnf

open List (Forall₂)

/-! ### Tokens -/

namespace Token

/-- In front of `rest` just the text of the token is cut off, as a token of its kind that matters. --/
def Stands (t : Token) (rest : List Char) : Prop :=
  (∃ c cs, t.text.toList = c :: cs ∧ Lexer.front c (cs ++ rest) = (t.kind, cs.length)) ∧ t.kind.isTrivia = false ∧
    t.kind ≠ .garbage

/-- A blank. --/
def blank : Token := ⟨.whitespace, " "⟩

/-- The end of a line. --/
def lineEnd : Token := ⟨.newline, "\n"⟩

end Token

namespace Lexer

theorem run_append {p : Char → Bool} {body rest : List Char} (hbody : ∀ c ∈ body, p c = true)
    (hrest : ∀ c ∈ rest.head?, p c = false) : run p (body ++ rest) = body.length := by
  rw [run, List.takeWhile_append_of_pos hbody]
  cases rest with
  | nil => simp
  | cons c rest => simp [hrest c rfl]

theorem pieces_of_stands {t : Token} {rest : List Char} (h : t.Stands rest) :
    pieces (t.text.toList ++ rest) = t :: pieces rest := by
  obtain ⟨⟨c, cs, htext, hfront⟩, -, -⟩ := h
  rw [htext, List.cons_append, pieces, hfront]
  dsimp only
  rw [List.take_left, List.drop_left, ← htext, String.ofList_toList]

/-- No token that matters begins with a blank. --/
theorem pieces_blank {t : Token} {rest : List Char} (h : t.Stands rest) :
    pieces (' ' :: (t.text.toList ++ rest)) = Token.blank :: t :: pieces rest := by
  have hcut := pieces_of_stands h
  obtain ⟨⟨c, cs, htext, hfront⟩, htrivia, -⟩ := h
  have hblank : isBlank c = false := by
    refine Bool.eq_false_iff.mpr fun hc => ?_
    have hkind : (front c (cs ++ rest)).1 = .whitespace := by
      rcases (Bool.or_eq_true _ _).mp hc with hc | hc <;> rw [beq_iff_eq.mp hc] <;> rfl
    rw [hfront] at hkind
    rw [show t.kind = .whitespace from hkind] at htrivia
    cases htrivia
  have hfront : front ' ' (t.text.toList ++ rest) = (.whitespace, 0) := by
    rw [htext, List.cons_append]
    exact congrArg (Prod.mk _) (@run_append isBlank [] _ nofun fun d hd => by cases hd; exact hblank)
  rw [pieces, hfront]
  dsimp only
  rw [List.drop_zero, hcut]
  rfl

theorem mergeGarbage_eq_self : ∀ {ts : List Token}, (∀ t ∈ ts, t.kind ≠ .garbage) → mergeGarbage ts = ts
  | [], _ => rfl
  | t :: ts, h => by
    obtain ⟨ht, hts⟩ := List.forall_mem_cons.mp h
    rw [mergeGarbage, mergeGarbage_eq_self hts]
    cases ts with
    | nil => rfl
    | cons u us => exact if_neg fun hboth => ht hboth.1

end Lexer

/-! ### Tokens of each kind -/

/-- Whether a text is that of a rule name. --/
def isName (s : String) : Bool :=
  match s.toList with
  | [] => false
  | c :: cs => c.isAlpha && cs.all Lexer.isNameChar

/-- What may follow an element: nothing, or what ends every token that stands open. --/
def Closes (rest : List Char) : Prop := ∀ c ∈ rest.head?, c = ' ' ∨ c = ')' ∨ c = ']' ∨ c = '\n'

section
variable {rest : List Char}

theorem Closes.isNumChar (h : Closes rest) : ∀ c ∈ rest.head?, Lexer.isNumChar c = false := by
  intro c hc
  rcases h c hc with rfl | rfl | rfl | rfl <;> rfl

theorem Closes.isNameChar (h : Closes rest) : ∀ c ∈ rest.head?, Lexer.isNameChar c = false := by
  intro c hc
  rcases h c hc with rfl | rfl | rfl | rfl <;> rfl

end

namespace Lexer

theorem front_digit {c : Char} (h : c.isDigit = true) (cs : List Char) : front c cs = (.number, run Char.isDigit cs) := by
  have hne : ∀ d : Char, d.isDigit = false → (c == d) = false := by
    intro d hd
    refine beq_false_of_ne ?_
    rintro rfl
    rw [h] at hd
    cases hd
  simp only [front, hne '(' rfl, hne ')' rfl, hne '[' rfl, hne ']' rfl, hne '=' rfl, hne '/' rfl, hne '*' rfl,
    hne '#' rfl, h, Bool.false_eq_true, if_false, if_true]

theorem isDigit_of_isAlpha {c : Char} (h : c.isAlpha = true) : c.isDigit = false := by
  change (decide (c.val ≥ 'A'.val ∧ c.val ≤ 'Z'.val) || (decide (c.val ≥ 'a'.val) && decide (c.val ≤ 'z'.val))) = true at h
  simp only [Char.isDigit, Bool.or_eq_true, Bool.and_eq_true,
    decide_eq_true_eq, Bool.and_eq_false_iff, decide_eq_false_iff_not, UInt32.le_iff_toNat_le, ge_iff_le] at h ⊢
  have h9 : '9'.val.toNat = 57 := rfl
  have hA : 'A'.val.toNat = 65 := rfl
  have ha : 'a'.val.toNat = 97 := rfl
  omega

theorem front_letter {c : Char} (h : c.isAlpha = true) (cs : List Char) :
    front c cs = (.ruleName, run isNameChar cs) := by
  have hne : ∀ d : Char, d.isAlpha = false → (c == d) = false := by
    intro d hd
    refine beq_false_of_ne ?_
    rintro rfl
    rw [h] at hd
    cases hd
  simp only [front, hne '(' rfl, hne ')' rfl, hne '[' rfl, hne ']' rfl, hne '=' rfl, hne '/' rfl, hne '*' rfl,
    hne '#' rfl, isDigit_of_isAlpha h, h, Bool.false_eq_true, if_false, if_true]

theorem quoted_append {cs : List Char} (h : ∀ c ∈ cs, isQuoted c = true) (rest : List Char) :
    quoted (cs ++ '"' :: rest) = (.charVal, cs.length + 1) := by
  have hrun : run isQuoted (cs ++ '"' :: rest) = cs.length := run_append h fun c hc => by cases hc; rfl
  rw [quoted, hrun, List.drop_left]
  rfl

end Lexer

namespace Token

variable {rest : List Char}

theorem stands_sign (kind : TokenKind) {text : String} {c : Char} (htext : text.toList = [c])
    (h : ∀ cs, Lexer.front c cs = (kind, 0)) (htrivia : kind.isTrivia = false) (hne : kind ≠ .garbage)
    (rest : List Char) : (Token.mk kind text).Stands rest :=
  ⟨⟨c, [], htext, h _⟩, htrivia, hne⟩

theorem stands_equals (h : ∀ c ∈ rest.head?, c ≠ '/') : (Token.mk .equals "=").Stands rest := by
  refine ⟨⟨'=', [], rfl, ?_⟩, rfl, nofun⟩
  have hne : rest.head? ≠ some '/' := fun hr => h '/' hr rfl
  show (if rest.head? = some '/' then _ else _) = _
  rw [if_neg hne]
  rfl

theorem stands_number (n : Nat) (h : ∀ c ∈ rest.head?, c.isDigit = false) : (Token.mk .number n.repr).Stands rest := by
  have htext : (Token.mk .number n.repr).text.toList = Nat.toDigits 10 n := by
    show n.repr.toList = _
    rw [Nat.repr_eq_ofList_toDigits, String.toList_ofList]
  have hall := Digits.isDigit_toDigits n
  cases hcs : Nat.toDigits 10 n with
  | nil => exact absurd hcs Nat.toDigits_ne_nil
  | cons c cs =>
    rw [hcs] at hall
    obtain ⟨hc, hcs'⟩ := List.forall_mem_cons.mp hall
    refine ⟨⟨c, cs, htext.trans hcs, ?_⟩, rfl, nofun⟩
    rw [Lexer.front_digit hc, Lexer.run_append hcs' h]

theorem stands_ruleName {s : String} (hs : isName s = true) (h : ∀ c ∈ rest.head?, Lexer.isNameChar c = false) :
    (Token.mk .ruleName s).Stands rest := by
  unfold isName at hs
  split at hs
  · cases hs
  · rename_i c cs htext
    obtain ⟨hc, hcs⟩ := (Bool.and_eq_true _ _).mp hs
    refine ⟨⟨c, cs, htext, ?_⟩, rfl, fun hkind => by cases hkind⟩
    rw [Lexer.front_letter hc, Lexer.run_append (List.all_eq_true.mp hcs) h]

theorem stands_quoted {cs : List Char} (h : ∀ c ∈ cs, Lexer.isQuoted c = true) (rest : List Char) {text : String}
    (htext : text.toList = '"' :: (cs ++ ['"'])) : (Token.mk .charVal text).Stands rest := by
  refine ⟨⟨'"', cs ++ ['"'], htext, ?_⟩, rfl, nofun⟩
  show Lexer.quoted (cs ++ ['"'] ++ rest) = _
  rw [List.append_assoc, List.singleton_append, Lexer.quoted_append h, List.length_append]
  rfl

theorem stands_exact {cs : List Char} (h : ∀ c ∈ cs, Lexer.isQuoted c = true) (rest : List Char) {text : String}
    (htext : text.toList = '%' :: 's' :: '"' :: (cs ++ ['"'])) : (Token.mk .charVal text).Stands rest := by
  refine ⟨⟨'%', 's' :: '"' :: (cs ++ ['"']), htext, ?_⟩, rfl, nofun⟩
  show ((Lexer.quoted (cs ++ ['"'] ++ rest)).1, (Lexer.quoted (cs ++ ['"'] ++ rest)).2 + 2) = _
  rw [List.append_assoc, List.singleton_append, Lexer.quoted_append h, List.length_cons, List.length_cons,
    List.length_append]
  rfl

theorem stands_numVal {cs : List Char} (h : ∀ c ∈ cs, Lexer.isNumChar c = true)
    (hrest : ∀ c ∈ rest.head?, Lexer.isNumChar c = false) {text : String} (htext : text.toList = '%' :: 'x' :: cs) :
    (Token.mk .numVal text).Stands rest := by
  refine ⟨⟨'%', 'x' :: cs, htext, ?_⟩, rfl, nofun⟩
  show (TokenKind.numVal, Lexer.run Lexer.isNumChar (cs ++ rest) + 1) = _
  rw [Lexer.run_append h hrest, List.length_cons]

end Token

/-! ### Marks -/

/-- A token, and whether a blank stands in front of it. --/
structure Mark where
  spaced : Bool
  token : Token

namespace Mark

def leading (m : Mark) : List Token := if m.spaced then [Token.blank] else []

def tokens (m : Mark) : List Token := m.leading ++ [m.token]

/-- The blank that may stand in front of a text. --/
def space (spaced : Bool) : List Char := if spaced then [' '] else []

def chars (m : Mark) : List Char := space m.spaced ++ m.token.text.toList

/-- Each token would be cut in front of what follows it. --/
def Stand : List Mark → List Char → Prop
  | [], _ => True
  | m :: ms, rest => m.token.Stands (ms.flatMap chars ++ rest) ∧ Stand ms rest

/-- A lexeme is a mark at its place. --/
def Of (m : Mark) (l : Lexeme) : Prop := l.token = m.token ∧ l.leading = m.leading

theorem stand_append : ∀ {ms ns : List Mark} {rest : List Char},
    Stand (ms ++ ns) rest ↔ Stand ms (ns.flatMap chars ++ rest) ∧ Stand ns rest
  | [], _, _ => (iff_of_eq (true_and _)).symm
  | m :: ms, ns, rest => by
    rw [List.cons_append, Stand, Stand, stand_append, List.flatMap_append, List.append_assoc, and_assoc]

theorem Stand.kinds : ∀ {ms : List Mark} {rest : List Char}, Stand ms rest →
    ∀ m ∈ ms, m.token.kind.isTrivia = false ∧ m.token.kind ≠ .garbage
  | [], _, _ => nofun
  | _ :: _, _, ⟨h, hs⟩ => List.forall_mem_cons.mpr ⟨h.2, hs.kinds⟩

theorem pieces_marks : ∀ {ms : List Mark} {rest : List Char}, Stand ms rest →
    Lexer.pieces (ms.flatMap chars ++ rest) = ms.flatMap tokens ++ Lexer.pieces rest
  | [], _, _ => rfl
  | ⟨spaced, t⟩ :: ms, rest, ⟨h, hs⟩ => by
    have ih := pieces_marks hs
    rw [List.flatMap_cons, List.flatMap_cons, List.append_assoc, List.append_assoc]
    cases spaced with
    | false => exact (Lexer.pieces_of_stands h).trans (congrArg (t :: ·) ih)
    | true => exact (Lexer.pieces_blank h).trans (congrArg (Token.blank :: t :: ·) ih)

/-- The lexemes of marks are these, each at its place, and none of them opens a line. --/
theorem lexemesFrom_marks : ∀ {ms : List Mark} (start : Nat) (ts : List Token),
    (∀ m ∈ ms, m.token.kind.isTrivia = false) → ∃ ls stop,
      lexemesFrom start [] false (ms.flatMap tokens ++ ts) =
        (ls ++ (lexemesFrom stop [] false ts).1, (lexemesFrom stop [] false ts).2) ∧
      Forall₂ Of ms ls ∧ ∀ l ∈ ls, l.opensLine = false
  | [], start, ts, _ => ⟨[], start, rfl, .nil, nofun⟩
  | ⟨spaced, t⟩ :: ms, start, ts, h => by
    obtain ⟨ht, hms⟩ := List.forall_mem_cons.mp h
    have ht : t.kind.isTrivia = false := ht
    cases spaced with
    | false =>
      obtain ⟨ls, stop, heq, hof, hopens⟩ := lexemesFrom_marks (start + t.size) ts hms
      refine ⟨⟨[], t, start, false⟩ :: ls, stop, ?_, .cons ⟨rfl, rfl⟩ hof, List.forall_mem_cons.mpr ⟨rfl, hopens⟩⟩
      show lexemesFrom start [] false (t :: (ms.flatMap tokens ++ ts)) = _
      rw [lexemesFrom, ht, heq]
      rfl
    | true =>
      obtain ⟨ls, stop, heq, hof, hopens⟩ := lexemesFrom_marks (start + Token.blank.size + t.size) ts hms
      refine ⟨⟨[.blank], t, start + Token.blank.size, false⟩ :: ls, stop, ?_, .cons ⟨rfl, rfl⟩ hof,
        List.forall_mem_cons.mpr ⟨rfl, hopens⟩⟩
      show lexemesFrom start [] false (Token.blank :: t :: (ms.flatMap tokens ++ ts)) = _
      rw [lexemesFrom]
      show lexemesFrom (start + Token.blank.size) [.blank] false (t :: (ms.flatMap tokens ++ ts)) = _
      rw [lexemesFrom, ht, heq]
      rfl

end Mark

/-! ### Lines -/

/-- A line: a name, the marks behind it, and the end of the line. --/
structure Line where
  name : Token
  marks : List Mark

namespace Line

def tokens (x : Line) : List Token := x.name :: (x.marks.flatMap Mark.tokens ++ [Token.lineEnd])

def chars (x : Line) : List Char := x.name.text.toList ++ (x.marks.flatMap Mark.chars ++ ['\n'])

/-- Each token of the line would be cut in front of what follows it. --/
structure Stands (x : Line) : Prop where
  name : ∀ rest, x.name.Stands (x.marks.flatMap Mark.chars ++ '\n' :: rest)
  marks : ∀ rest, Mark.Stand x.marks ('\n' :: rest)

/-- A chunk has the tokens of a line. --/
def Of (x : Line) (c : Chunk) : Prop := c.head.token = x.name ∧ Forall₂ Mark.Of x.marks c.tail

theorem pieces_lines : ∀ {xs : List Line}, (∀ x ∈ xs, x.Stands) →
    Lexer.pieces (xs.flatMap chars) = xs.flatMap tokens
  | [], _ => by rw [List.flatMap_nil, Lexer.pieces, List.flatMap_nil]
  | x :: xs, h => by
    obtain ⟨hx, hxs⟩ := List.forall_mem_cons.mp h
    have hend : Lexer.pieces ('\n' :: xs.flatMap chars) = Token.lineEnd :: Lexer.pieces (xs.flatMap chars) := by
      rw [Lexer.pieces]
      rfl
    rw [List.flatMap_cons, List.flatMap_cons, chars, tokens, List.append_assoc, List.append_assoc,
      List.singleton_append, Lexer.pieces_of_stands (hx.name _), Mark.pieces_marks (hx.marks _), hend, pieces_lines hxs,
      List.cons_append, List.append_assoc, List.singleton_append]

/-- Each line is a chunk, whatever trivia stands before its name. --/
theorem lexemesFrom_lines : ∀ {xs : List Line} (start : Nat) (leading : List Token), (∀ x ∈ xs, x.Stands) →
    ∃ cs, (lexemesFrom start leading true (xs.flatMap tokens)).1 = cs.flatMap Chunk.lexemes ∧ Forall₂ Of xs cs ∧
      ∀ c ∈ cs, c.head.opensLine = true ∧ ∀ l ∈ c.tail, l.opensLine = false
  | [], _, _, _ => ⟨[], rfl, .nil, nofun⟩
  | x :: xs, start, leading, h => by
    obtain ⟨hx, hxs⟩ := List.forall_mem_cons.mp h
    have hname : x.name.kind.isTrivia = false := (hx.name []).2.1
    obtain ⟨ls, stop, heq, hof, hopens⟩ := Mark.lexemesFrom_marks (start + x.name.size)
      (Token.lineEnd :: xs.flatMap tokens) fun m hm => ((hx.marks []).kinds m hm).1
    obtain ⟨cs, heqs, hofs, hall⟩ := lexemesFrom_lines (stop + Token.lineEnd.size) [.lineEnd] hxs
    refine ⟨⟨⟨leading, x.name, start, true⟩, ls⟩ :: cs, ?_, .cons ⟨rfl, hof⟩ hofs,
      List.forall_mem_cons.mpr ⟨⟨rfl, hopens⟩, hall⟩⟩
    have hend : (lexemesFrom stop [] false (Token.lineEnd :: xs.flatMap tokens)).1 =
        (lexemesFrom (stop + Token.lineEnd.size) [.lineEnd] true (xs.flatMap tokens)).1 := by
      rw [lexemesFrom]
      rfl
    rw [List.flatMap_cons, tokens, List.cons_append, List.append_assoc, List.singleton_append, lexemesFrom, hname, heq]
    dsimp only
    rw [hend, heqs]
    rfl

/-- A text of lines falls into a chunk for each of them. --/
theorem chunks_lines {xs : List Line} (h : ∀ x ∈ xs, x.Stands) :
    Forall₂ Of xs (chunks (lexemes (tokenize (String.ofList (xs.flatMap chars)))).1) := by
  have hkinds : ∀ t ∈ xs.flatMap tokens, t.kind ≠ .garbage := by
    intro t ht
    obtain ⟨x, hx, ht⟩ := List.mem_flatMap.mp ht
    rcases List.mem_cons.mp ht with rfl | ht
    · exact ((h x hx).name []).2.2
    · rcases List.mem_append.mp ht with ht | ht
      · obtain ⟨m, hm, ht⟩ := List.mem_flatMap.mp ht
        rcases List.mem_append.mp ht with ht | ht
        · unfold Mark.leading at ht
          split at ht
          · rw [List.mem_singleton.mp ht]
            exact nofun
          · cases ht
        · exact List.mem_singleton.mp ht ▸ (((h x hx).marks []).kinds m hm).2
      · rw [List.mem_singleton.mp ht]
        exact nofun
  obtain ⟨cs, heq, hof, hall⟩ := lexemesFrom_lines 0 [] h
  rw [tokenize, String.toList_ofList, pieces_lines h, Lexer.mergeGarbage_eq_self hkinds, lexemes, heq,
    chunks_flatMap (fun c hc => (hall c (List.mem_of_mem_tail hc)).1) fun c hc => (hall c hc).2]
  exact hof

end Line
end Abnf
