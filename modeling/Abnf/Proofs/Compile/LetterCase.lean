import Abnf.Proofs.Compile.Likeness
import Abnf.Proofs.Document.LetterCase

/-! Rule names are case-insensitive. A source in which names are spelled in other cases has the same tokens in the same
    places but for the spelling of names (`Respelled.beside`). Wherever a name is looked up, among definitions, references,
    rules of the base or slots, its spelling does not matter, so the same is told of both sources, and their grammars
    differ in nothing but how the names in their tables are spelled (`compile_respelled`). -/

namespace Abnf

/-- A diagnostic without its wording. --/
def Diagnostic.unworded (d : Diagnostic) : Diagnostic := { d with message := "" }

/-- The same places, and names in another spelling. --/
def Likeness.respelled : Likeness where
  spelled a b := SameLetters a.toList b.toList
  placed := Eq
  refl a := .refl a.toList
  sameName := sameName_iff_letters.mpr

theorem Likeness.placed_respelled {n n' : Nat} (h : respelled.placed n n') : n = n' := h

theorem Span.Like.eq {s s' : Span} (h : s.Like .respelled s') : s = s' := by
  cases s
  cases s'
  cases Likeness.placed_respelled h.start
  cases Likeness.placed_respelled h.stop
  rfl

theorem Diagnostic.Related.Like.eq {r r' : Diagnostic.Related} (h : r.Like .respelled r') : r = r' := by
  cases r
  cases r'
  cases h.message
  cases h.span.eq
  rfl

theorem Diagnostic.Like.unworded {d d' : Diagnostic} (h : d.Like .respelled d') : d.unworded = d'.unworded := by
  have hrelated : d.related = d'.related := List.forall₂_eq_eq_eq ▸ h.related.imp fun _ _ => Related.Like.eq
  rw [Diagnostic.unworded, Diagnostic.unworded, h.kind, h.severity, h.span.eq, h.fix, hrelated, h.hints]

theorem map_unworded {ds ds' : List Diagnostic} (h : List.Forall₂ (Diagnostic.Like .respelled) ds ds') :
    ds.map Diagnostic.unworded = ds'.map Diagnostic.unworded := by
  rw [← List.forall₂_eq_eq_eq, List.forall₂_map_left_iff, List.forall₂_map_right_iff]
  exact h.imp fun _ _ => Diagnostic.Like.unworded

/-! ### Lexemes -/

theorem beside_lexemesFrom {ts us : List Token} (h : List.Forall₂ Token.Respelled ts us) :
    ∀ (start : Nat) (leading leading' : List Token) (opens : Bool), leading.isEmpty = leading'.isEmpty →
      List.Forall₂ (Lexeme.Beside .respelled) (lexemesFrom start leading opens ts).1
        (lexemesFrom start leading' opens us).1 := by
  induction h with
  | nil => exact fun _ _ _ _ _ => .nil
  | @cons t u ts us ht _ ih =>
    intro start leading leading' opens hleading
    have hsize : t.size = u.size := ht.letters.text.utf8ByteSize_eq
    have hlexeme : Lexeme.Beside .respelled ⟨leading, t, start, opens⟩ ⟨leading', u, start, opens⟩ := {
      kind := ht.kind
      text := ht.text
      name := ht.name
      span := ⟨rfl, congrArg (start + ·) hsize, Nat.le_add_right _ _⟩
      opensLine := rfl
      touching := hleading }
    rw [lexemesFrom, lexemesFrom, ht.kind, hsize]
    split
    · have hmore : (leading ++ [t]).isEmpty = (leading' ++ [u]).isEmpty := by
        cases leading <;> cases leading' <;> rfl
      exact ih _ _ _ _ hmore
    · exact .cons hlexeme (ih _ _ _ _ rfl)

theorem Respelled.beside {source source' : String} (h : Respelled source source') :
    List.Forall₂ (Lexeme.Beside .respelled) (lexemes (tokenize source)).1 (lexemes (tokenize source')).1 :=
  beside_lexemesFrom h.tokens 0 [] [] true rfl

/-! ### Compiling -/

/-- Rule names are case-insensitive. A source and one in which names are spelled in other cases are both compiled or both
    rejected. The same is told of them but for its wording, and their grammars have the same nodes, the same slots in the
    same order with the same roots, and the same first sets; only the names of slots may be spelled in another case. --/
theorem compile_respelled {source source' : String} (h : Respelled source source') (o : CompileOptions) :
    (∃ c c', compile source o = .ok c ∧ compile source' o = .ok c' ∧
      c.grammar.name = c'.grammar.name ∧ c.grammar.nodes = c'.grammar.nodes ∧
      List.Forall₂ (fun s s' => SameLetters s.name.toList s'.name.toList ∧ s.root = s'.root) c.grammar.slots.toList
        c'.grammar.slots.toList ∧
      c.grammar.firstSets = c'.grammar.firstSets ∧
      c.warnings.map Diagnostic.unworded = c'.warnings.map Diagnostic.unworded) ∨
    ∃ ds ds', compile source o = .error ds ∧ compile source' o = .error ds' ∧
      ds.map Diagnostic.unworded = ds'.map Diagnostic.unworded := by
  have hcompiled := compile_told o Likeness.placed_respelled h.beside h.letters.utf8ByteSize_eq
  generalize compile source o = x at hcompiled ⊢
  generalize compile source' o = x' at hcompiled ⊢
  cases hcompiled with
  | ok hc =>
    obtain ⟨hgrammar, hwarnings⟩ := hc
    exact .inl ⟨_, _, rfl, rfl, hgrammar.name, hgrammar.nodes, hgrammar.slots.imp fun _ _ hs => ⟨hs.name, hs.root⟩,
      hgrammar.firstSets, map_unworded hwarnings⟩
  | error hds => exact .inr ⟨_, _, rfl, rfl, map_unworded hds⟩

/-- Names in capitals instead of small letters, one of them of a rule that is missing. --/
theorem compile_respelled_listing :
    let source := "list = item *(\",\" item)\nitem = 1*alpha\nlist =/ %x41\n"
    let source' := "List = Item *(\",\" Item)\nItem = 1*ALPHA\nList =/ %x41\n"
    let o : CompileOptions := { allowIncomplete := true }
    Respelled source source' ∧ ∃ c c', compile source o = .ok c ∧ compile source' o = .ok c' ∧
      c.grammar.nodes = c'.grammar.nodes ∧ c.grammar.slots ≠ c'.grammar.slots ∧
      c.warnings.map Diagnostic.unworded = c'.warnings.map Diagnostic.unworded := by
  intro source source' o
  have hrespelled : Respelled source source' := ⟨tokenize source', by decide +kernel, (join_tokenize source').symm⟩
  have hok : (compile source o).toOption.isSome := by decide +kernel
  have hslots : (compile source o).toOption.map (·.grammar.slots) ≠ (compile source' o).toOption.map (·.grammar.slots) := by
    decide +kernel
  have hcompiled := compile_respelled hrespelled o
  generalize compile source o = x at hok hslots hcompiled ⊢
  generalize compile source' o = x' at hslots hcompiled ⊢
  rcases hcompiled with ⟨c, c', rfl, rfl, -, hnodes, -, -, hwarnings⟩ | ⟨ds, _, rfl, -⟩
  · exact ⟨hrespelled, c, c', rfl, rfl, hnodes, fun h => hslots (congrArg some h), hwarnings⟩
  · cases hok

end Abnf
