import Abnf.Proofs.Document.Acceptance
import Abnf.Proofs.Document.Spelling
import Mathlib.Data.List.TakeWhile

/-! What the definitions of a document without fault are made of. Its tokens are names only where a name is spelled
    (`named_of_mem_tokenize`), and an expression that is derived from such tokens has two parts at least wherever it
    has several, and refers to nothing but names (`Expr.Shaped`). -/

namespace Abnf

open List (Forall₂)

/-! ### Expressions -/

namespace Expr

mutual

/-- An expression whose alternatives and sequences have two parts at least, and whose references are names. --/
def Shaped : Expr → Prop
  | alternation _ es | concatenation _ es => 2 ≤ es.length ∧ ShapedAll es
  | repetition _ _ (some e) | group _ (some e) | optional _ (some e) => Shaped e
  | ref w => isName w.text = true
  | repetition _ _ none | group _ none | optional _ none | str _ | num _ | prose _ => True

def ShapedAll : List Expr → Prop
  | [] => True
  | e :: es => Shaped e ∧ ShapedAll es

end

end Expr

/-- A definition of a name by such an expression. --/
structure Definition.Shaped (d : Definition) : Prop where
  name : ∀ w ∈ d.name, isName w.text = true
  body : ∀ e ∈ d.body, e.Shaped

/-! ### Names -/

/-- If the token is a name, its text is that of a name. --/
def Token.Named (t : Token) : Prop := t.kind = .ruleName → isName t.text = true

namespace Lexer

theorem take_run (p : Char → Bool) (cs : List Char) : cs.take (run p cs) = cs.takeWhile p :=
  (List.prefix_iff_eq_take.mp (List.takeWhile_prefix p)).symm

theorem ite_kind_ne {b : Prop} [Decidable b] {x y : TokenKind × Nat} {kind : TokenKind} (hx : x.1 ≠ kind)
    (hy : y.1 ≠ kind) : (if b then x else y).1 ≠ kind := by
  split
  · exact hx
  · exact hy

theorem percent_ne_ruleName (cs : List Char) : (percent cs).1 ≠ .ruleName := by
  cases cs with
  | nil => exact nofun
  | cons mark cs =>
    refine ite_kind_ne ?_ (ite_kind_ne nofun nofun)
    split
    · exact ite_kind_ne nofun nofun
    · exact nofun

/-- Only a letter begins a name. --/
theorem isAlpha_of_front {c : Char} {cs : List Char} (h : (front c cs).1 = .ruleName) : c.isAlpha = true := by
  by_contra halpha
  refine absurd h ?_
  rw [front, if_neg halpha]
  repeat' refine ite_kind_ne ?_ ?_
  all_goals first | exact percent_ne_ruleName cs | exact fun hkind => by cases hkind

theorem named_of_mem_pieces {t : Token} : ∀ {cs : List Char}, t ∈ pieces cs → t.Named
  | [], h => by
    rw [pieces] at h
    cases h
  | c :: cs, h => by
    rw [pieces] at h
    rcases List.mem_cons.mp h with rfl | h
    · intro hkind
      have halpha := isAlpha_of_front hkind
      have hall : ∀ d ∈ cs.takeWhile isNameChar, isNameChar d = true := fun _ => List.mem_takeWhile_imp
      rw [front_letter halpha]
      dsimp only
      rw [take_run, isName, String.toList_ofList]
      dsimp only
      rw [halpha, Bool.true_and, List.all_eq_true]
      exact hall
    · exact named_of_mem_pieces h
  termination_by cs => cs.length
  decreasing_by simp only [List.length_drop, List.length_cons]; omega

theorem named_of_mem_mergeGarbage {t : Token} : ∀ {ts : List Token}, (∀ t ∈ ts, t.Named) → t ∈ mergeGarbage ts → t.Named
  | [], _, h => by cases h
  | u :: us, hnamed, h => by
    obtain ⟨hu, hus⟩ := List.forall_mem_cons.mp hnamed
    rw [mergeGarbage] at h
    split at h
    · exact List.mem_singleton.mp h ▸ hu
    · rename_i v vs hmerged
      have hrest : ∀ t ∈ v :: vs, t.Named := fun t ht => named_of_mem_mergeGarbage hus (hmerged ▸ ht)
      split at h
      · rcases List.mem_cons.mp h with rfl | h
        · exact fun hkind => by cases hkind
        · exact hrest t (List.mem_cons_of_mem v h)
      · rcases List.mem_cons.mp h with rfl | h
        · exact hu
        · exact hrest t h

end Lexer

theorem named_of_mem_tokenize {source : String} {t : Token} (h : t ∈ tokenize source) : t.Named :=
  Lexer.named_of_mem_mergeGarbage (fun _ => Lexer.named_of_mem_pieces) h

/-- Lexemes are tokens at their places. --/
theorem Significant.mem {before ts : List Token} {ls : List Lexeme} (h : Significant before ts ls) :
    ∀ l ∈ ls, l.token ∈ ts := by
  induction h with
  | nil => exact nofun
  | cons _ _ _ ih =>
    refine List.forall_mem_cons.mpr ⟨List.mem_append_right _ List.mem_cons_self, fun l hl => ?_⟩
    exact List.mem_append_right _ (List.mem_cons_of_mem _ (ih l hl))

theorem named_of_mem_chunks {source : String} {c : Chunk} (hc : c ∈ chunks (lexemes (tokenize source)).1) :
    ∀ l ∈ c.lexemes, l.token.Named := by
  intro l hl
  refine named_of_mem_tokenize ((significant_lexemes (tokenize source)).mem l ?_)
  rw [← flatMap_chunks (lexemes (tokenize source)).1]
  exact List.mem_flatMap.mpr ⟨c, hc, hl⟩

/-! ### Derivations -/

namespace Derivation

/-- What is derived from lexemes whose names are names is shaped. --/
def Shapes (E : List Lexeme → Expr → Prop) : Prop := ∀ ⦃ls : List Lexeme⦄ ⦃e : Expr⦄, E ls e →
  (∀ l ∈ ls, l.token.Named) → e.Shaped

section
variable {E : List Lexeme → Expr → Prop} (hE : Shapes E)
include hE

theorem shapes_repetition : Shapes (Repetition E) := by
  intro ls e h hls
  cases h with
  | once h => exact hE h hls
  | repeated _ h =>
    have he := hE h (List.forall_mem_append.mp hls).2
    exact he

theorem shaped_items {ls : List Lexeme} {es : List Expr} (h : Items E ls es) (hls : ∀ l ∈ ls, l.token.Named) :
    Expr.ShapedAll es := by
  induction h with
  | nil => trivial
  | cons h _ ih =>
    obtain ⟨hls, hms⟩ := List.forall_mem_append.mp hls
    exact ⟨shapes_repetition hE h hls, ih hms⟩

theorem shapes_concatenation : Shapes (Concatenation E) := by
  intro ls e h hls
  cases h with
  | single h => exact shapes_repetition hE h hls
  | several h hs => exact ⟨Nat.le_add_left 2 _, shaped_items hE (.cons h hs) hls⟩

theorem shaped_branches {ls : List Lexeme} {es : List Expr} (h : Branches E ls es) (hls : ∀ l ∈ ls, l.token.Named) :
    Expr.ShapedAll es := by
  induction h with
  | nil => trivial
  | cons _ h _ ih =>
    obtain ⟨hls, hms⟩ := List.forall_mem_append.mp (List.forall_mem_cons.mp hls).2
    exact ⟨shapes_concatenation hE h hls, ih hms⟩

theorem shapes_alternation : Shapes (Alternation E) := by
  intro ls e h hls
  cases h with
  | single h => exact shapes_concatenation hE h hls
  | several h hs =>
    obtain ⟨hls, hms⟩ := List.forall_mem_append.mp hls
    exact ⟨Nat.le_add_left 2 _, shapes_concatenation hE h hls, shaped_branches hE hs hms⟩

end

theorem shapes_simple : Shapes Simple := by
  intro ls e h hls
  cases h with
  | ref h => exact hls _ List.mem_cons_self h
  | str | num | prose => trivial

theorem shapes_bracketed {A : List Lexeme → Expr → Prop} (hA : Shapes A) : Shapes (Bracketed A) := by
  intro ls e h hls
  cases h with
  | group _ h | optional _ h =>
    have he := hA h (List.forall_mem_append.mp (List.forall_mem_cons.mp hls).2).1
    exact he

theorem shapes_element : ∀ levels, Shapes (Element levels)
  | 0 => shapes_simple
  | levels + 1 => fun _ _ h hls => h.elim (shapes_simple · hls)
    (shapes_bracketed (shapes_alternation (shapes_element levels)) · hls)

end Derivation

theorem Chunk.Derives.shaped {limit : Nat} {c : Chunk} {d : Definition} (h : c.Derives limit d)
    (hc : ∀ l ∈ c.lexemes, l.token.Named) : d.Shaped := by
  cases h with
  | rule hname _ h =>
    obtain ⟨hhead, htail⟩ := List.forall_mem_cons.mp hc
    refine ⟨?_, ?_⟩
    · rintro _ ⟨⟩
      exact hhead hname
    · rintro _ ⟨⟩
      exact Derivation.shapes_alternation (Derivation.shapes_element limit) h (List.forall_mem_cons.mp htail).2

theorem shaped_of_derives {limit : Nat} {cs : List Chunk} {ds : List Definition}
    (h : Forall₂ (Chunk.Derives limit) cs ds) (hcs : ∀ c ∈ cs, ∀ l ∈ c.lexemes, l.token.Named) : ∀ d ∈ ds, d.Shaped := by
  induction h with
  | nil => exact nofun
  | cons h _ ih =>
    obtain ⟨hc, hcs⟩ := List.forall_mem_cons.mp hcs
    exact List.forall_mem_cons.mpr ⟨h.shaped hc, ih hcs⟩

/-- The definitions of a document that is read without an error are derived from its chunks. --/
theorem derives_definitions {source : String} {limit : Nat}
    (h : Diagnostic.hasErrors (parse source limit).diagnostics = false) :
    Forall₂ (Chunk.Derives limit) (chunks (lexemes (tokenize source)).1) (parse source limit).tree.definitions := by
  obtain ⟨ds, hds⟩ := exists_definitions (Parser.document_finds (quiet_of_read h))
  rw [(parse_of_derives hds).2]
  exact hds

/-- They are shaped. --/
theorem shaped_definitions {source : String} {limit : Nat}
    (h : Diagnostic.hasErrors (parse source limit).diagnostics = false) :
    ∀ d ∈ (parse source limit).tree.definitions, d.Shaped :=
  shaped_of_derives (derives_definitions h) fun _ => named_of_mem_chunks

/-- They have a name, a sign and a body. --/
theorem whole_definitions {source : String} {limit : Nat}
    (h : Diagnostic.hasErrors (parse source limit).diagnostics = false) :
    ∀ d ∈ (parse source limit).tree.definitions, ∃ name sign body, d = ⟨some name, some sign, some body⟩ := by
  have hall := derives_definitions h
  generalize (parse source limit).tree.definitions = ds, chunks (lexemes (tokenize source)).1 = cs at hall
  induction hall with
  | nil => exact nofun
  | cons hd _ ih =>
    refine List.forall_mem_cons.mpr ⟨?_, ih⟩
    cases hd with
    | rule => exact ⟨_, _, _, rfl⟩

end Abnf
