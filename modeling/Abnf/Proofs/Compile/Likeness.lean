import Abnf.Compile
import Abnf.Proofs.Compile.Definitions
import Abnf.Proofs.Document.Faults
import Abnf.Proofs.Grammar.Likeness

/-! Compiling documents that are like one another. Putting a grammar together looks at the names and texts of a document,
    never at where they stand, so rule by rule the states of the two runs stay like one another (`State.Like`,
    `definition_like`), and so do the grammars and what is told of the documents (`document_like`). -/

namespace Abnf

variable {κ : Likeness}

/-! ### Repeats -/

namespace Repeat

theorem count_like {w w' : Word} (h : w.Like κ w') : Concur (Diagnostic.Like κ) Eq (count w) (count w') := by
  rw [count, count, h.text]
  split
  · split
    · exact .ok rfl
    · exact .error ((Diagnostic.Like.of _ h.span).detailed _ _)
  · exact .error ((Diagnostic.Like.of _ h.span).detailed _ _)

theorem count?_like {w w' : Option Word} (h : Option.Rel (Word.Like κ) w w') :
    Concur (Diagnostic.Like κ) Eq (count? w) (count? w') := by
  cases h with
  | none => exact .ok rfl
  | some h => exact (count_like h).bind fun _ _ hn => .ok (congrArg some hn)

theorem bounds_like {r r' : Repeat} (h : r.Like κ r') : Concur (Diagnostic.Like κ) Eq r.bounds r'.bounds := by
  refine (count?_like h.min).bind fun min _ hmin => (count?_like h.max).bind fun max _ hmax => ?_
  cases hmin
  cases hmax
  have htold : r.told min max = r'.told min max := by rw [told, told, h.op]
  extract_lets b b'
  have hb : b = b' := htold
  clear_value b b'
  subst hb
  split
  · split
    · exact .error ((Diagnostic.Like.of _ h.span).detailed _ _)
    · exact .ok rfl
  · exact .ok rfl

end Repeat

namespace Assembly

variable (κ)

structure Extension.Like (e e' : Extension) : Prop where
  name : e.name.Names κ e'.name
  node : e.node = e'.node

/-- What two runs over documents that are like one another have come to. --/
structure State.Like (s s' : State) : Prop where
  grammar : s.grammar.Like κ s'.grammar
  diagnostics : List.Forall₂ (Diagnostic.Like κ) s.diagnostics s'.diagnostics
  definitions : List.Forall₂ (Word.Names κ) s.definitions s'.definitions
  references : List.Forall₂ (Word.Names κ) s.references s'.references
  extensions : List.Forall₂ (Extension.Like κ) s.extensions s'.extensions
  blanks : s.blanks = s'.blanks

variable {κ} {s s' : State}

namespace State.Like

theorem add (h : s.Like κ s') {n n' : Node} (hn : n = n') : (s.add n).1 = (s'.add n').1 ∧ (s.add n).2.Like κ (s'.add n').2 := by
  subst hn
  obtain ⟨hi, hgrammar⟩ := h.grammar.addNode n
  exact ⟨hi, hgrammar, h.diagnostics, h.definitions, h.references, h.extensions, h.blanks⟩

theorem tell (h : s.Like κ s') {d d' : Diagnostic} (hd : d.Like κ d') : (s.tell d).Like κ (s'.tell d') :=
  ⟨h.grammar, List.rel_append h.diagnostics (.cons hd .nil), h.definitions, h.references, h.extensions, h.blanks⟩

theorem withGrammar (h : s.Like κ s') {g g' : Grammar} (hg : g.Like κ g') :
    State.Like κ { s with grammar := g } { s' with grammar := g' } :=
  ⟨hg, h.diagnostics, h.definitions, h.references, h.extensions, h.blanks⟩

end State.Like

theorem lookup_like {words words' : List Word} (h : List.Forall₂ (Word.Names κ) words words') {name name' : String}
    (hname : κ.spelled name name') : Option.Rel (Word.Names κ) (lookup words name) (lookup words' name') := by
  induction h with
  | nil => exact .none
  | cons hw _ ih =>
    rw [lookup, lookup, List.find?_cons, List.find?_cons, κ.sameName_eq hw.text hname]
    split
    · exact .some hw
    · exact ih

theorem isSome_lookup_like {words words' : List Word} (h : List.Forall₂ (Word.Names κ) words words') {name name' : String}
    (hname : κ.spelled name name') : (lookup words name).isSome = (lookup words' name').isSome := by
  have hfirst := lookup_like h hname
  generalize lookup words name = first at hfirst ⊢
  generalize lookup words' name' = first' at hfirst ⊢
  cases hfirst <;> rfl

/-! ### Expressions -/

theorem reference_like {w w' : Word} (hw : w.Names κ w') (h : s.Like κ s') :
    (reference w s).1 = (reference w' s').1 ∧ (reference w s).2.Like κ (reference w' s').2 := by
  obtain ⟨hi, hgrammar⟩ := h.grammar.addRef hw.text
  rw [reference, reference, isSome_lookup_like h.references hw.text]
  refine ⟨hi, hgrammar, h.diagnostics, h.definitions, ?_, h.extensions, h.blanks⟩
  dsimp only
  split
  · exact h.references
  · exact List.rel_append h.references (.cons hw .nil)

theorem string_like {w w' : Word} (hw : w.Like κ w') (h : s.Like κ s') :
    (string w s).1 = (string w' s').1 ∧ (string w s).2.Like κ (string w' s').2 := by
  rw [string, string, hw.text]
  exact h.add rfl

theorem numeric_like {w w' : Word} (hw : w.Like κ w') (h : s.Like κ s') :
    (numeric w s).1 = (numeric w' s').1 ∧ (numeric w s).2.Like κ (numeric w' s').2 := by
  rw [numeric, numeric, hw.text]
  split
  · exact h.add rfl
  · exact (h.tell ((Diagnostic.Like.of _ hw.span).detailed _ _)).add rfl

theorem prose_like {w w' : Word} (hw : w.Like κ w') (h : s.Like κ s') :
    (prose w s).1 = (prose w' s').1 ∧ (prose w s).2.Like κ (prose w' s').2 :=
  (h.tell ((Diagnostic.Like.of _ hw.span).detailed _ _)).add rfl

theorem blanks_like (h : s.Like κ s') : (blanks s).1 = (blanks s').1 ∧ (blanks s).2.Like κ (blanks s').2 := by
  rw [blanks, blanks, h.blanks]
  cases s'.blanks with
  | some i => exact ⟨rfl, h⟩
  | none =>
    obtain ⟨hspace, h₁⟩ := h.add (n := .char 0x20) rfl
    obtain ⟨htab, h₂⟩ := h₁.add (n := .char 0x09) rfl
    obtain ⟨heither, h₃⟩ := h₂.add (congrArg₂ (fun i j => Node.choice [i, j]) hspace htab)
    obtain ⟨hi, h₄⟩ := h₃.add (congrArg (Node.repetition · 0 none) heither)
    exact ⟨hi, h₄.grammar, h₄.diagnostics, h₄.definitions, h₄.references, h₄.extensions, congrArg some hi⟩

theorem listOf_like (element : NodeId) (b : Repeat.Bounds) (h : s.Like κ s') :
    (listOf element b s).1 = (listOf element b s').1 ∧ (listOf element b s).2.Like κ (listOf element b s').2 := by
  have hend : ∀ {t t' : State} {i i' : NodeId}, i = i' → t.Like κ t' →
      let x := if b.min = 0 then t.add (.optional i) else (i, t)
      let x' := if b.min = 0 then t'.add (.optional i') else (i', t')
      x.1 = x'.1 ∧ x.2.Like κ x'.2 := by
    intro t t' i i' hi ht
    split
    · exact ht.add (congrArg Node.optional hi)
    · exact ⟨hi, ht⟩
  rw [listOf, listOf]
  split
  · exact h.add rfl
  · obtain ⟨hblanks, h₁⟩ := blanks_like h
    obtain ⟨hcomma, h₂⟩ := h₁.add (n := .text "," true) rfl
    obtain ⟨hunit, h₃⟩ := h₂.add (congrArg₂ (fun i j => Node.sequence [i, j, i, element]) hblanks hcomma)
    obtain ⟨hfold, h₄⟩ := h₃.add (congrArg Node.fold hunit)
    obtain ⟨htail, h₅⟩ := h₄.add
      (congrArg (Node.repetition · (if b.min = 0 then 0 else b.min - 1) (b.max.map (· - 1))) hfold)
    obtain ⟨hwhole, h₆⟩ := h₅.add (congrArg (fun i => Node.sequence [element, i]) htail)
    exact hend hwhole h₆

theorem repeated_like (element : NodeId) {r r' : Repeat} (hr : r.Like κ r') (h : s.Like κ s') :
    (repeated element (some r) s).1 = (repeated element (some r') s').1 ∧
      (repeated element (some r) s).2.Like κ (repeated element (some r') s').2 := by
  have hbounds := Repeat.bounds_like hr
  rw [repeated, repeated]
  generalize r.bounds = b at hbounds ⊢
  generalize r'.bounds = b' at hbounds ⊢
  cases hbounds with
  | error hd => exact ⟨rfl, h.tell hd⟩
  | ok hb =>
    cases hb
    dsimp only
    rw [hr.op]
    split
    · exact listOf_like element _ h
    · split
      · exact ⟨rfl, h⟩
      · exact h.add rfl

theorem keepsBrackets_like {e e' : Expr} (h : e.Like κ e') : keepsBrackets e = keepsBrackets e' := by
  cases h <;> rfl

/-- One branch is the expression; more are a node of all of them. --/
theorem joined_like (node : List NodeId → Node) {x x' : List NodeId × State} (hids : x.1 = x'.1) (h : x.2.Like κ x'.2) :
    let y := match x with | ([i], s) => (i, s) | (is, s) => s.add (node is)
    let y' := match x' with | ([i], s) => (i, s) | (is, s) => s.add (node is)
    y.1 = y'.1 ∧ y.2.Like κ y'.2 := by
  obtain ⟨is, s⟩ := x
  obtain ⟨is', s'⟩ := x'
  obtain rfl : is = is' := hids
  rcases is with _ | ⟨i, _ | ⟨j, is⟩⟩
  · exact h.add rfl
  · exact ⟨rfl, h⟩
  · exact h.add rfl

mutual

theorem expr_like : ∀ {e e' : Expr}, e.Like κ e' → ∀ {s s' : State}, s.Like κ s' →
    (expr e s).1 = (expr e' s').1 ∧ (expr e s).2.Like κ (expr e' s').2
  | _, _, .alternation hes, s, s', h => by
    obtain ⟨hids, hs⟩ := exprs_like hes h
    rw [expr, expr]
    exact joined_like .choice hids hs
  | _, _, .concatenation hes, s, s', h => by
    obtain ⟨hids, hs⟩ := exprs_like hes h
    rw [expr, expr]
    exact joined_like .sequence hids hs
  | _, _, .repetition hcount he, s, s', h => by
    obtain ⟨hi, hs⟩ := expr_like he h
    rw [expr, expr]
    dsimp only
    rw [hi]
    exact repeated_like _ hcount hs
  | _, _, .ref hw, _, _, h => reference_like hw h
  | _, _, .str hw, _, _, h => string_like hw h
  | _, _, .num hw, _, _, h => numeric_like hw h
  | _, _, .prose hw, _, _, h => prose_like hw h
  | _, _, .group he, s, s', h => by
    obtain ⟨hi, hs⟩ := expr_like he h
    rw [expr, expr, keepsBrackets_like he]
    dsimp only
    split
    · exact hs.add (congrArg Node.fold hi)
    · exact ⟨hi, hs⟩
  | _, _, .optional he, s, s', h => by
    obtain ⟨hi, hs⟩ := expr_like he h
    rw [expr, expr]
    exact hs.add (congrArg Node.optional hi)

theorem exprs_like : ∀ {es es' : List Expr}, Exprs.Like κ es es' → ∀ {s s' : State}, s.Like κ s' →
    (exprs es s).1 = (exprs es' s').1 ∧ (exprs es s).2.Like κ (exprs es' s').2
  | _, _, .nil, _, _, h => ⟨rfl, h⟩
  | _, _, .cons he hes, s, s', h => by
    obtain ⟨hi, hs⟩ := expr_like he h
    obtain ⟨his, hs'⟩ := exprs_like hes hs
    rw [exprs, exprs]
    exact ⟨congrArg₂ List.cons hi his, hs'⟩

end

/-! ### Rules -/

theorem incrementalUndefined_like {w w' : Word} (hw : w.Names κ w') (h : s.Like κ s') :
    (incrementalUndefined w s).Like κ (incrementalUndefined w' s') :=
  h.tell ((Diagnostic.Like.of _ hw.span).detailed _ _)

/-- Alternatives are added to a rule, or it is told that there is no such rule. --/
theorem extended_like {w w' : Word} (hw : w.Names κ w') (body : NodeId) (h : s.Like κ s') :
    State.Like κ (match s.grammar.extend w.text body with
        | .ok (_, grammar) => { s with grammar }
        | .error _ => incrementalUndefined w s)
      (match s'.grammar.extend w'.text body with
        | .ok (_, grammar) => { s' with grammar }
        | .error _ => incrementalUndefined w' s') := by
  have hextend := h.grammar.extend hw.text body
  generalize s.grammar.extend w.text body = x at hextend ⊢
  generalize s'.grammar.extend w'.text body = x' at hextend ⊢
  cases hextend with
  | ok hx => exact h.withGrammar hx.2
  | error _ => exact incrementalUndefined_like hw h

theorem baseDefines_like (o : CompileOptions) {name name' : String} (h : κ.spelled name name') :
    o.baseDefines name = o.baseDefines name' := by
  rw [CompileOptions.baseDefines, CompileOptions.baseDefines]
  cases o.base with
  | none => rfl
  | some base => exact Grammar.defines_sameName (κ.sameName h)

variable (o : CompileOptions)

theorem extend_like {w w' : Word} (hw : w.Names κ w') (body : NodeId) (h : s.Like κ s') :
    (extend o w body s).Like κ (extend o w' body s') := by
  rw [extend, extend, isSome_lookup_like h.definitions hw.text, baseDefines_like o hw.text]
  split
  · exact extended_like hw body h
  · split
    · exact ⟨h.grammar, h.diagnostics, h.definitions, h.references, List.rel_append h.extensions (.cons ⟨hw, rfl⟩ .nil),
        h.blanks⟩
    · exact incrementalUndefined_like hw h

theorem define_like {w w' : Word} (hw : w.Names κ w') {sign sign' : DefinedAs} (hsign : sign.Like κ sign') (body : NodeId)
    (h : s.Like κ s') : (define o w sign body s).Like κ (define o w' sign' body s') := by
  have hfirst := lookup_like h.definitions hw.text
  rw [define, define, baseDefines_like o hw.text]
  generalize lookup s.definitions w.text = first at hfirst ⊢
  generalize lookup s'.definitions w'.text = first' at hfirst ⊢
  cases hfirst with
  | some hfirst =>
    exact h.tell ((((Diagnostic.Like.of _ hsign.word.span).detailed _ _).relatedTo _ hfirst.span).withFix _ _)
  | none =>
    have hdefined : ∀ {t t' : State}, t.Like κ t' →
        State.Like κ { t with grammar := (t.grammar.define w.text body).2, definitions := t.definitions ++ [w] }
          { t' with grammar := (t'.grammar.define w'.text body).2, definitions := t'.definitions ++ [w'] } := fun ht =>
      ⟨ht.grammar.define hw.text body, ht.diagnostics, List.rel_append ht.definitions (.cons hw .nil), ht.references,
        ht.extensions, ht.blanks⟩
    dsimp only
    split
    · exact hdefined (h.tell ((Diagnostic.Like.of _ hw.span).detailed _ _))
    · exact hdefined h

/-- One rule. --/
theorem definition_like {d d' : Definition} (hd : d.Like κ d') (h : s.Like κ s') :
    (definition o s d).Like κ (definition o s' d') := by
  cases hd with
  | mk hname hsign hbody =>
    obtain ⟨hi, hs⟩ := expr_like hbody h
    rw [definition, definition]
    dsimp only
    rw [hi, hsign.incremental]
    split
    · exact extend_like o hname _ hs
    · exact define_like o hname hsign _ hs

/-! ### Documents -/

theorem extendBase_like {e e' : Extension} (he : e.Like κ e') (h : s.Like κ s') :
    (extendBase s e).Like κ (extendBase s' e') := by
  rw [extendBase, extendBase, isSome_lookup_like h.definitions he.name.text, he.node]
  split
  · exact incrementalUndefined_like he.name h
  · exact extended_like he.name _ h

theorem checkReference_like {name name' : String} (hname : κ.spelled name name') (h : s.Like κ s') :
    (checkReference o s name).Like κ (checkReference o s' name') := by
  have hfirst := lookup_like h.references hname
  rw [checkReference, checkReference]
  generalize lookup s.references name = first at hfirst ⊢
  generalize lookup s'.references name' = first' at hfirst ⊢
  cases hfirst with
  | none => exact h
  | some hfirst => exact h.tell (((Diagnostic.Like.of _ hfirst.span).detailed _ _).withSeverity _)

/-- Steps that keep states like one another do so one after the other. --/
theorem foldl_like {α : Type} {R : α → α → Prop} (step : State → α → State)
    (hstep : ∀ {x x' : α} {s s' : State}, R x x' → s.Like κ s' → (step s x).Like κ (step s' x')) {xs xs' : List α}
    (hxs : List.Forall₂ R xs xs') : ∀ {s s' : State}, s.Like κ s' → (xs.foldl step s).Like κ (xs'.foldl step s') := by
  induction hxs with
  | nil => exact fun h => h
  | cons hx _ ih => exact fun h => ih (hstep hx h)

variable {ds ds' : List Definition} (hds : List.Forall₂ (Definition.Like κ) ds ds')
include hds

theorem initial_like : (initial o ds).Like κ (initial o ds') := by
  have hnames : List.Forall₂ κ.spelled (ds.filterMap fun d => d.name.map Word.text)
      (ds'.filterMap fun d => d.name.map Word.text) := by
    refine List.rel_filterMap (fun d d' hd => ?_) hds
    cases hd with
    | mk hname => exact .some hname.text
  exact ⟨(Grammar.Like.refl _).declareAll hnames, .nil, .nil, .nil, .nil, rfl⟩

/-- Whole documents. --/
theorem document_like : (document o ds).1.Like κ (document o ds').1 ∧
    List.Forall₂ (Diagnostic.Like κ) (document o ds).2 (document o ds').2 := by
  have hdrawn : (drawn o ds).Like κ (drawn o ds') :=
    foldl_like (definition o) (fun hd h => definition_like o hd h) hds (initial_like o hds)
  have hbased : (withBase o (drawn o ds)).Like κ (withBase o (drawn o ds')) := by
    rw [withBase, withBase]
    cases o.base with
    | none => exact hdrawn
    | some base => exact hdrawn.withGrammar (hdrawn.grammar.includeBase base)
  have hextended : (extended o ds).Like κ (extended o ds') := foldl_like extendBase extendBase_like hdrawn.extensions hbased
  have hchecked := foldl_like (checkReference o) (fun hname h => checkReference_like o hname h) hextended.grammar.undefinedNames hextended
  rw [document_checked, document_checked]
  exact ⟨hchecked.grammar, hchecked.diagnostics⟩

end Assembly

/-! ### Compiling -/

variable (κ) in
/-- Both sources are compiled or neither, to grammars that are like one another, and the same is told of both. --/
def Compilation.Like : Except (List Diagnostic) Compilation → Except (List Diagnostic) Compilation → Prop :=
  Concur (List.Forall₂ (Diagnostic.Like κ)) fun c c' =>
    c.grammar.Like κ c'.grammar ∧ List.Forall₂ (Diagnostic.Like κ) c.warnings c'.warnings

variable {source source' : String} (o : CompileOptions)

/-- Sources that are like one another, the first of which is read without a word. --/
theorem compile_along (h : Along κ (lexemes (tokenize source)).1 (lexemes (tokenize source')).1)
    (hquiet : (parse source o.nestingLimit).diagnostics = []) :
    Compilation.Like κ (compile source o) (compile source' o) := by
  obtain ⟨hquiet', hds⟩ := parse_like h hquiet
  obtain ⟨hgrammar, hdiagnostics⟩ := Assembly.document_like o hds
  have hclean : ¬Diagnostic.hasErrors [] = true := Bool.false_ne_true
  rw [compile, compile, hquiet, hquiet']
  dsimp only
  rw [if_neg hclean, if_neg hclean, Diagnostic.Like.hasErrors hdiagnostics]
  split
  · exact .error hdiagnostics
  · exact .ok ⟨hgrammar.optimize, hdiagnostics⟩

/-- Sources whose lexemes are at the same places and touch where the others do. --/
theorem compile_told (hκ : ∀ {n n' : Nat}, κ.placed n n' → n = n')
    (h : List.Forall₂ (Lexeme.Beside κ) (lexemes (tokenize source)).1 (lexemes (tokenize source')).1)
    (hsize : source.utf8ByteSize = source'.utf8ByteSize) : Compilation.Like κ (compile source o) (compile source' o) := by
  have htold := parse_told hκ h hsize o.nestingLimit
  by_cases hquiet : (parse source o.nestingLimit).diagnostics = []
  · obtain ⟨stop, htiles⟩ := tiles_lexemes (tokenize source)
    exact compile_along o (htiles.along h) hquiet
  · have herrors := hasErrors_parse.mpr hquiet
    have herrors' := herrors
    rw [Diagnostic.Like.hasErrors htold] at herrors'
    rw [compile, compile, if_pos herrors, if_pos herrors']
    exact .error htold

end Abnf
