import Abnf.Document.Chunk
import Abnf.Document.Expr

/-! The grammar of documents, as which lexemes derive which expressions. A relation for each rule of the grammar is
    parametrized by that of the rule below it, and elements are closed up level by level, as brackets nest. No
    relation looks at the trivia before its first token, apart from an alternation of several branches, whose span
    takes that trivia in. -/

namespace Abnf

namespace Lexeme

/-- The token at its place. --/
def word (l : Lexeme) : Word := ⟨l.token.text, l.span⟩

/-- Where the trivia before the token begins. --/
def outset (l : Lexeme) : Nat := l.start - Tree.sizes l.blanks

end Lexeme

/-- No token begins both an element and a repeat. --/
theorem TokenKind.not_startsRepeat {k : TokenKind} (h : k.startsElement = true) : k.startsRepeat = false := by
  cases k <;> first | rfl | cases h

namespace Derivation

/-! ### The grammar -/

/-- From the first token to the last. --/
def extent (ls : List Lexeme) : Span :=
  ⟨(ls.head?.map Lexeme.start).getD 0, (ls.getLast?.map fun l => l.span.stop).getD 0⟩

/-- A number that may be missing. --/
inductive Number : List Lexeme → Option Word → Prop where
  | absent : Number [] none
  | present {l : Lexeme} (h : l.kind = .number) : Number [l] (some l.word)

inductive Sign : Lexeme → RepeatOp → Prop where
  | star {l : Lexeme} (h : l.kind = .star) : Sign l .range
  | hash {l : Lexeme} (h : l.kind = .hash) : Sign l .list

/-- A repeat: `n`, or a sign with or without a number on either side. --/
inductive Bounds : List Lexeme → Repeat → Prop where
  | exact {l : Lexeme} (h : l.kind = .number) : Bounds [l] ⟨extent [l], .exact, some l.word, none⟩
  | signed {low high : List Lexeme} {sign : Lexeme} {min max : Option Word} {op : RepeatOp} (hlow : Number low min)
      (hsign : Sign sign op) (hhigh : Number high max) :
      Bounds (low ++ sign :: high) ⟨extent (low ++ sign :: high), op, min, max⟩

section
variable (E : List Lexeme → Expr → Prop)

/-- An element, with or without a repeat whose parts touch one another and the element. --/
inductive Repetition : List Lexeme → Expr → Prop where
  | once {ls : List Lexeme} {e : Expr} (h : E ls e) : Repetition ls e
  | repeated {bs ls : List Lexeme} {count : Repeat} {e : Expr} (hbs : Bounds bs count) (h : E ls e)
      (htouch : ∀ l ∈ (bs ++ ls.take 1).tail, l.leading = []) :
      Repetition (bs ++ ls) (.repetition (extent (bs ++ ls)) (some count) (some e))

inductive Items : List Lexeme → List Expr → Prop where
  | nil : Items [] []
  | cons {ls ms : List Lexeme} {e : Expr} {es : List Expr} (h : Repetition E ls e) (hs : Items ms es) :
      Items (ls ++ ms) (e :: es)

inductive Concatenation : List Lexeme → Expr → Prop where
  | single {ls : List Lexeme} {e : Expr} (h : Repetition E ls e) : Concatenation ls e
  | several {ls ms : List Lexeme} {e f : Expr} {es : List Expr} (h : Repetition E ls e) (hs : Items E ms (f :: es)) :
      Concatenation (ls ++ ms) (.concatenation (extent (ls ++ ms)) (e :: f :: es))

/-- Branches, each after a slash. --/
inductive Branches : List Lexeme → List Expr → Prop where
  | nil : Branches [] []
  | cons {slash : Lexeme} {ls ms : List Lexeme} {e : Expr} {es : List Expr} (hslash : slash.kind = .slash)
      (h : Concatenation E ls e) (hs : Branches ms es) : Branches (slash :: (ls ++ ms)) (e :: es)

inductive Alternation : List Lexeme → Expr → Prop where
  | single {ls : List Lexeme} {e : Expr} (h : Concatenation E ls e) : Alternation ls e
  | several {l : Lexeme} {ls ms : List Lexeme} {e f : Expr} {es : List Expr} (h : Concatenation E (l :: ls) e)
      (hs : Branches E ms (f :: es)) :
      Alternation (l :: ls ++ ms) (.alternation ⟨l.outset, (extent (l :: ls ++ ms)).stop⟩ (e :: f :: es))

end

inductive Simple : List Lexeme → Expr → Prop where
  | ref {l : Lexeme} (h : l.kind = .ruleName) : Simple [l] (.ref l.word)
  | str {l : Lexeme} (h : l.kind = .charVal) : Simple [l] (.str l.word)
  | num {l : Lexeme} (h : l.kind = .numVal) : Simple [l] (.num l.word)
  | prose {l : Lexeme} (h : l.kind = .proseVal) : Simple [l] (.prose l.word)

inductive Bracketed (A : List Lexeme → Expr → Prop) : List Lexeme → Expr → Prop where
  | group {l r : Lexeme} {ls : List Lexeme} {e : Expr} (hl : l.kind = .parenOpen) (h : A ls e)
      (hr : r.kind = .parenClose) : Bracketed A (l :: (ls ++ [r])) (.group (extent (l :: (ls ++ [r]))) (some e))
  | optional {l r : Lexeme} {ls : List Lexeme} {e : Expr} (hl : l.kind = .bracketOpen) (h : A ls e)
      (hr : r.kind = .bracketClose) : Bracketed A (l :: (ls ++ [r])) (.optional (extent (l :: (ls ++ [r]))) (some e))

/-- An element in which brackets nest at most so many levels deep. --/
def Element : (levels : Nat) → List Lexeme → Expr → Prop
  | 0, ls, e => Simple ls e
  | levels + 1, ls, e => Simple ls e ∨ Bracketed (Alternation (Element levels)) ls e

/-! ### First tokens -/

/-- There is a first token, of a kind in a class. --/
def Begins (p : TokenKind → Bool) (ls : List Lexeme) : Prop := ∃ l ms, ls = l :: ms ∧ p l.kind = true

/-- Whatever trivia stands before the first token, the same expression is derived. --/
def Loose (D : List Lexeme → Expr → Prop) : Prop :=
  ∀ ⦃l : Lexeme⦄ ⦃ls : List Lexeme⦄ ⦃e : Expr⦄ (leading : List Token), D (l :: ls) e → D ({ l with leading } :: ls) e

theorem extent_leading (l : Lexeme) (ls : List Lexeme) (leading : List Token) :
    extent ({ l with leading } :: ls) = extent (l :: ls) := by
  cases ls <;> rfl

theorem Bounds.begins {bs : List Lexeme} {count : Repeat} (h : Bounds bs count) :
    Begins TokenKind.startsRepeat bs := by
  cases h with
  | exact h => exact ⟨_, _, rfl, by rw [h]; rfl⟩
  | signed hlow hsign hhigh =>
    cases hlow with
    | absent => exact ⟨_, _, rfl, by cases hsign with | star h | hash h => rw [h]; rfl⟩
    | present h => exact ⟨_, _, rfl, by rw [h]; rfl⟩

theorem Bounds.loose {l : Lexeme} {ls : List Lexeme} {count : Repeat} (leading : List Token)
    (h : Bounds (l :: ls) count) : Bounds ({ l with leading } :: ls) count := by
  generalize hbs : l :: ls = bs at h
  cases h with
  | exact h =>
    cases hbs
    exact .exact h
  | @signed low high sign _ _ op hlow hsign hhigh =>
    cases hlow with
    | absent =>
      cases hbs
      rw [List.nil_append, ← extent_leading l ls leading]
      have hsign' : Sign { l with leading } op := by
        cases hsign with
        | star h => exact .star h
        | hash h => exact .hash h
      exact .signed .absent hsign' hhigh
    | @present n h =>
      cases hbs
      rw [List.singleton_append, ← extent_leading l _ leading]
      have hlow : Number [{ l with leading }] (some l.word) := .present h
      exact .signed hlow hsign hhigh

theorem Simple.begins {ls : List Lexeme} {e : Expr} (h : Simple ls e) : Begins TokenKind.startsElement ls := by
  cases h with
  | ref h | str h | num h | prose h => exact ⟨_, _, rfl, by rw [h]; rfl⟩

theorem Bracketed.begins {A : List Lexeme → Expr → Prop} {ls : List Lexeme} {e : Expr} (h : Bracketed A ls e) :
    Begins TokenKind.startsElement ls := by
  cases h with
  | group h | optional h => exact ⟨_, _, rfl, by rw [h]; rfl⟩

theorem Element.begins : ∀ {levels : Nat} {ls : List Lexeme} {e : Expr}, Element levels ls e →
    Begins TokenKind.startsElement ls
  | 0, _, _, h => Simple.begins h
  | _ + 1, _, _, .inl h => h.begins
  | _ + 1, _, _, .inr h => h.begins

theorem Simple.loose : Loose Simple := by
  intro l ls e leading h
  cases h with
  | ref h => exact .ref h
  | str h => exact .str h
  | num h => exact .num h
  | prose h => exact .prose h

theorem Bracketed.loose (A : List Lexeme → Expr → Prop) : Loose (Bracketed A) := by
  intro l ls e leading h
  cases h with
  | group hl h hr =>
    rw [← extent_leading l _ leading]
    exact .group hl h hr
  | optional hl h hr =>
    rw [← extent_leading l _ leading]
    exact .optional hl h hr

theorem Element.loose : ∀ levels, Loose (Element levels)
  | 0 => Simple.loose
  | levels + 1 => fun _ _ _ leading h =>
    h.imp (fun h => Simple.loose leading h) fun h => Bracketed.loose (Alternation (Element levels)) leading h

section
variable {E : List Lexeme → Expr → Prop}

theorem Repetition.begins (hE : ∀ ⦃ls e⦄, E ls e → Begins TokenKind.startsElement ls) {ls : List Lexeme} {e : Expr}
    (h : Repetition E ls e) : Begins TokenKind.startsRepetition ls := by
  cases h with
  | once h =>
    obtain ⟨l, ms, rfl, hl⟩ := hE h
    exact ⟨l, ms, rfl, by rw [TokenKind.startsRepetition, hl, Bool.true_or]⟩
  | repeated hbs =>
    obtain ⟨l, ms, rfl, hl⟩ := hbs.begins
    exact ⟨l, _, rfl, by rw [TokenKind.startsRepetition, hl, Bool.or_true]⟩

theorem Concatenation.begins (hE : ∀ ⦃ls e⦄, E ls e → Begins TokenKind.startsElement ls) {ls : List Lexeme} {e : Expr}
    (h : Concatenation E ls e) : Begins TokenKind.startsRepetition ls := by
  cases h with
  | single h => exact h.begins hE
  | several h =>
    obtain ⟨l, ms, rfl, hl⟩ := h.begins hE
    exact ⟨l, _, rfl, hl⟩

theorem Repetition.loose (hE : Loose E) : Loose (Repetition E) := by
  intro l ls e leading h
  generalize hls : l :: ls = ks at h
  cases h with
  | once h =>
    subst hls
    exact .once (hE leading h)
  | @repeated bs ms count e hbs h htouch =>
    obtain ⟨b, bs, rfl, -⟩ := hbs.begins
    cases hls
    rw [List.cons_append, ← extent_leading l _ leading]
    exact .repeated (hbs.loose leading) h htouch

end

end Derivation

/-- A chunk derives the definition of a rule. --/
inductive Chunk.Derives (limit : Nat) : Chunk → Definition → Prop where
  | rule {name sign : Lexeme} {ls : List Lexeme} {e : Expr} (hname : name.kind = .ruleName)
      (hsign : sign.kind.isDefinedAs = true) (h : Derivation.Alternation (Derivation.Element limit) ls e) :
      Chunk.Derives limit ⟨name, sign :: ls⟩ ⟨some name.word, some ⟨sign.kind == .incEquals, sign.word⟩, some e⟩

end Abnf
