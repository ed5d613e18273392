import Abnf.Compile
import Abnf.Proofs.Grammar.Naming

/-! A document gives the same grammar whatever name it is to have. The name is put into the grammar before the first rule, and
    nothing that is done with the rules looks at it, so a grammar could as well be given its name in the end
    (`compile_setName`). -/

namespace Abnf

namespace Assembly

/-- A state whose grammar goes by another name. --/
def State.setName (s : State) (name : String) : State := { s with grammar := s.grammar.setName name }

section
variable (name : String)

/-! ### Expressions -/

theorem reference_setName (w : Word) (s : State) :
    reference w (s.setName name) = ((reference w s).1, (reference w s).2.setName name) := by
  have hgrammar : (s.setName name).grammar = s.grammar.setName name := rfl
  rw [reference, hgrammar, Grammar.addRef_setName]
  rfl

theorem numeric_setName (w : Word) (s : State) :
    numeric w (s.setName name) = ((numeric w s).1, (numeric w s).2.setName name) := by
  rw [numeric, numeric]
  cases NumVal.node w.text <;> rfl

theorem blanks_setName (s : State) : blanks (s.setName name) = ((blanks s).1, (blanks s).2.setName name) := by
  have hblanks : (s.setName name).blanks = s.blanks := rfl
  rw [blanks, blanks, hblanks]
  cases s.blanks <;> rfl

theorem listOf_setName (element : NodeId) (b : Repeat.Bounds) (s : State) :
    listOf element b (s.setName name) = ((listOf element b s).1, (listOf element b s).2.setName name) := by
  rw [listOf, listOf, blanks_setName]
  by_cases hmax : b.max = some 0
  · rw [if_pos hmax, if_pos hmax]
    rfl
  · rw [if_neg hmax, if_neg hmax]
    by_cases hmin : b.min = 0
    · simp only [hmin, ↓reduceIte]
      rfl
    · simp only [hmin, ↓reduceIte]
      rfl

theorem repeated_setName (element : NodeId) (count : Option Repeat) (s : State) :
    repeated element count (s.setName name) = ((repeated element count s).1, (repeated element count s).2.setName name) := by
  cases count with
  | none => rfl
  | some r =>
    rw [repeated, repeated]
    cases r.bounds with
    | error d => rfl
    | ok b =>
      dsimp only
      split
      · exact listOf_setName name element b s
      · split <;> rfl

mutual

theorem expr_setName : ∀ (e : Expr) (s : State), expr e (s.setName name) = ((expr e s).1, (expr e s).2.setName name)
  | .alternation _ es, s | .concatenation _ es, s => by
    rw [expr, expr, exprs_setName es s]
    rcases exprs es s with ⟨_ | ⟨i, _ | ⟨j, is⟩⟩, t⟩ <;> rfl
  | .repetition _ _ none, _ | .str _, _ | .prose _, _ | .group _ none, _ | .optional _ none, _ => rfl
  | .repetition _ count (some e), s => by
    rw [expr, expr, expr_setName e s]
    exact repeated_setName name (expr e s).1 count (expr e s).2
  | .ref w, s => reference_setName name w s
  | .num w, s => numeric_setName name w s
  | .group _ (some e), s => by
    rw [expr, expr, expr_setName e s]
    dsimp only
    split <;> rfl
  | .optional _ (some e), s => by
    rw [expr, expr, expr_setName e s]
    rfl

theorem exprs_setName : ∀ (es : List Expr) (s : State),
    exprs es (s.setName name) = ((exprs es s).1, (exprs es s).2.setName name)
  | [], _ => rfl
  | e :: es, s => by
    rw [exprs, exprs, expr_setName e s]
    dsimp only
    rw [exprs_setName es]

end

/-! ### Rules -/

theorem extend_setName (o : CompileOptions) (w : Word) (body : NodeId) (s : State) :
    extend o w body (s.setName name) = (extend o w body s).setName name := by
  have hdefinitions : (s.setName name).definitions = s.definitions := rfl
  have hgrammar : (s.setName name).grammar = s.grammar.setName name := rfl
  rw [extend, extend, hdefinitions, hgrammar, Grammar.extend_setName]
  split
  · cases s.grammar.extend w.text body <;> rfl
  · split <;> rfl

theorem define_setName (o : CompileOptions) (w : Word) (sign : DefinedAs) (body : NodeId) (s : State) :
    define o w sign body (s.setName name) = (define o w sign body s).setName name := by
  have hdefinitions : (s.setName name).definitions = s.definitions := rfl
  rw [define, define, hdefinitions]
  cases lookup s.definitions w.text with
  | some first => rfl
  | none =>
    dsimp only
    have hdefine : ∀ g : Grammar, ((g.setName name).define w.text body).2 = (g.define w.text body).2.setName name :=
      fun g => by rw [Grammar.define_setName]
    split
    · exact congrArg (fun g => State.mk g _ _ _ _ _) (hdefine s.grammar)
    · exact congrArg (fun g => State.mk g _ _ _ _ _) (hdefine s.grammar)

theorem definition_setName (o : CompileOptions) (s : State) (d : Definition) :
    definition o (s.setName name) d = (definition o s d).setName name := by
  rw [definition, definition]
  split
  · rw [expr_setName]
    dsimp only
    split
    · exact extend_setName name o _ _ _
    · exact define_setName name o _ _ _ _
  · rfl

/-! ### Documents -/

theorem extendBase_setName (s : State) (e : Extension) :
    extendBase (s.setName name) e = (extendBase s e).setName name := by
  have hdefinitions : (s.setName name).definitions = s.definitions := rfl
  have hgrammar : (s.setName name).grammar = s.grammar.setName name := rfl
  rw [extendBase, extendBase, hdefinitions, hgrammar, Grammar.extend_setName]
  split
  · rfl
  · cases s.grammar.extend e.name.text e.node <;> rfl

theorem checkReference_setName (o : CompileOptions) (s : State) (other : String) :
    checkReference o (s.setName name) other = (checkReference o s other).setName name := by
  have hreferences : (s.setName name).references = s.references := rfl
  rw [checkReference, checkReference, hreferences]
  cases lookup s.references other <;> rfl

/-- What each step does to a state by another name, a run of steps does. --/
theorem foldl_setName {α : Type} {step : State → α → State}
    (h : ∀ s x, step (s.setName name) x = (step s x).setName name) :
    ∀ (xs : List α) (s : State), xs.foldl step (s.setName name) = (xs.foldl step s).setName name
  | [], _ => rfl
  | x :: xs, s => by
    rw [List.foldl_cons, h]
    exact foldl_setName h xs (step s x)

theorem document_setName (o : CompileOptions) (ds : List Definition) :
    document { o with name } ds = ((document o ds).1.setName name, (document o ds).2) := by
  have hinitial : initial { o with name } ds = (initial o ds).setName name :=
    congrArg (fun g => State.mk g _ _ _ _ _) (Grammar.declareAll_setName name _ (Grammar.empty o.name))
  have hdrawn : ds.foldl (definition { o with name }) (initial { o with name } ds) =
      (ds.foldl (definition o) (initial o ds)).setName name := by
    rw [hinitial]
    exact foldl_setName name (definition_setName name o) ds _
  rw [document, document, hdrawn]
  dsimp only
  generalize ds.foldl (definition o) (initial o ds) = s
  have hrest : ∀ s : State,
      let t := s.extensions.foldl extendBase s
      let t' := (s.setName name).extensions.foldl extendBase (s.setName name)
      t'.grammar.undefinedNames.foldl (checkReference { o with name }) t' =
        (t.grammar.undefinedNames.foldl (checkReference o) t).setName name := by
    intro s t t'
    have ht : t' = t.setName name := foldl_setName name (extendBase_setName name) s.extensions s
    rw [ht]
    exact foldl_setName name (checkReference_setName name o) t.grammar.undefinedNames t
  cases o.base with
  | none => exact congrArg (fun s => (s.grammar, s.diagnostics)) (hrest s)
  | some base =>
    have hgrammar : (s.setName name).grammar.includeBase base = (s.grammar.includeBase base).setName name :=
      Grammar.includeBase_setName name base s.grammar
    dsimp only
    rw [hgrammar]
    exact congrArg (fun s => (s.grammar, s.diagnostics)) (hrest { s with grammar := s.grammar.includeBase base })

end

end Assembly

/-- Compiling a document under another name gives the same grammar by that name, and tells the same. --/
theorem compile_setName (source : String) (o : CompileOptions) (name : String) : compile source { o with name } =
    (compile source o).map fun c => { c with grammar := c.grammar.setName name } := by
  rw [compile, compile, Assembly.document_setName]
  dsimp only
  split
  · rfl
  · split
    · rfl
    · rw [Grammar.optimize_setName]
      rfl

end Abnf
