import Abnf.Proofs.Compile.Acceptance
import Abnf.Proofs.Compile.Meaning
import Abnf.Proofs.Document.Shape
import Abnf.Proofs.Grammar.Union
import Abnf.Proofs.Match.Missing

/-! What a compiled grammar lacks. A place in its table comes from a definition of the document, from a reference in it,
    or from the base (`Assembly.declared_drawn`, `Grammar.isSome_find?_includeBase`). Unless names may stay without a
    definition, the first two are defined in the end, so all that is lacking is what the base lacks and the document does
    not define (`compile_strict`). The base itself is not asked for what it refers to. -/

namespace Abnf

namespace Grammar

variable {g g' : Grammar}

theorem find?_extend {name : String} {alternative : NodeId} {r : RuleId} (he : g.extend name alternative = .ok (r, g'))
    (other : String) : g'.find? other = g.find? other := by
  obtain ⟨-, root, -, rfl⟩ := extend_eq_ok he
  exact find?_setRoot _ _ _ other

theorem isSome_find?_define (g : Grammar) (name : String) (root : NodeId) (other : String) :
    ((g.define name root).2.find? other).isSome = ((g.find? other).isSome || sameName name other) := by
  rw [← isSome_find?_declare]
  exact congrArg Option.isSome (find?_setRoot (g.declare name).2 (g.declare name).1 root other)

theorem isSome_find?_includeBase {base : Grammar} (hg : g.WellFormed) (hb : base.WellFormed) (name : String) :
    ((g.includeBase base).find? name).isSome = ((g.find? name).isSome || (base.find? name).isSome) := by
  rw [← has_table, table_includeBase hg hb, RuleTable.has_union, has_table, has_table]

end Grammar

namespace Definition

variable {ds : List Definition} {e : Expr}

theorem Contains.of_mem {d : Definition} (hd : d ∈ ds) (h : Contains [d] e) : Contains ds e := by
  obtain ⟨incremental, name, body, hbody, he⟩ := h
  obtain ⟨x, hx, hof⟩ := List.mem_filterMap.mp hbody
  obtain rfl := List.mem_singleton.mp hx
  exact ⟨incremental, name, body, List.mem_filterMap.mpr ⟨x, hd, hof⟩, he⟩

/-- A name that a definition begins with or refers to. --/
def Mentions (d : Definition) (name : String) : Prop :=
  (∃ w, d.name = some w ∧ sameName w.text name = true) ∨ ∃ w, Contains [d] (.ref w) ∧ sameName w.text name = true

end Definition

namespace Assembly

open State Definition

section
variable {o : CompileOptions} {ds : List Definition}

theorem find?_extend (o : CompileOptions) (w : Word) (i : NodeId) (s : State) (name : String) :
    (extend o w i s).grammar.find? name = s.grammar.find? name := by
  unfold extend
  split
  · cases he : s.grammar.extend w.text i with
    | ok out => exact Grammar.find?_extend he name
    | error e => rfl
  · split <;> rfl

theorem find?_extensions (name : String) : ∀ (xs : List Extension) (s : State),
    (xs.foldl extendBase s).grammar.find? name = s.grammar.find? name
  | [], _ => rfl
  | x :: xs, s => by
    rw [List.foldl_cons, find?_extensions name xs, extendBase]
    split
    · rfl
    · split
      · exact Grammar.find?_extend ‹_› name
      · rfl

theorem isSome_find?_define {w : Word} {sign : DefinedAs} {i : NodeId} {s : State} {name : String}
    (h : ((define o w sign i s).grammar.find? name).isSome = true) :
    (s.grammar.find? name).isSome = true ∨ sameName w.text name = true := by
  unfold define at h
  split at h
  · exact .inl h
  · dsimp only at h
    rw [Grammar.isSome_find?_define, Bool.or_eq_true] at h
    split at h <;> exact h

/-- A definition makes places for the names that it mentions only. --/
theorem declared_definition {s : State} {d : Definition} {name : String}
    (h : ((definition o s d).grammar.find? name).isSome = true) :
    (s.grammar.find? name).isSome = true ∨ d.Mentions name := by
  obtain ⟨_ | w, _ | sign, _ | body⟩ := d
  case some.some.some =>
    have hbody : ((expr body s).2.grammar.find? name).isSome = true →
        (s.grammar.find? name).isSome = true ∨ Mentions ⟨some w, some sign, some body⟩ name := by
      intro h
      rcases ((notes_expr body s).declared name).mp h with h | ⟨x, hx, hn⟩
      · exact .inl h
      · have hcontains : Contains ([] ++ [⟨some w, some sign, some body⟩]) (.ref x) := contains_whole.mpr (.inr hx)
        exact .inr (.inr ⟨x, hcontains, hn⟩)
    rw [definition] at h
    dsimp only at h
    split at h
    · rw [find?_extend] at h
      exact hbody h
    · rcases isSome_find?_define h with h | hn
      · exact hbody h
      · exact .inr (.inl ⟨w, rfl, hn⟩)
  all_goals exact .inl h

theorem declared_definitions {name : String} : ∀ (more : List Definition) {s : State},
    ((more.foldl (definition o) s).grammar.find? name).isSome = true →
      (s.grammar.find? name).isSome = true ∨ ∃ d ∈ more, d.Mentions name
  | [], _, h => .inl h
  | d :: more, s, h => by
    rcases declared_definitions more h with h | ⟨d', hd', hn⟩
    · exact (declared_definition h).imp_right fun hn => ⟨d, List.mem_cons_self, hn⟩
    · exact .inr ⟨d', List.mem_cons_of_mem d hd', hn⟩

theorem isSome_find?_declareAll {name : String} : ∀ (names : List String) (g : Grammar),
    ((g.declareAll names).find? name).isSome = true →
      (g.find? name).isSome = true ∨ ∃ other ∈ names, sameName other name = true
  | [], _, h => .inl h
  | other :: names, g, h => by
    rcases isSome_find?_declareAll names (g.declare other).2 h with h | ⟨n, hn, hsame⟩
    · rw [Grammar.isSome_find?_declare, Bool.or_eq_true] at h
      exact h.imp_right fun hsame => ⟨other, List.mem_cons_self, hsame⟩
    · exact .inr ⟨n, List.mem_cons_of_mem other hn, hsame⟩

/-- Each name with a place is mentioned in a definition. --/
theorem declared_drawn {name : String} (h : ((drawn o ds).grammar.find? name).isSome = true) :
    ∃ d ∈ ds, d.Mentions name := by
  rcases declared_definitions ds h with h | h
  · rcases isSome_find?_declareAll _ _ h with h | ⟨other, hother, hsame⟩
    · simp [Grammar.find?, Grammar.empty] at h
    · obtain ⟨d, hd, hname⟩ := List.mem_filterMap.mp hother
      obtain ⟨w, hw, rfl⟩ := Option.map_eq_some_iff.mp hname
      exact ⟨d, hd, .inl ⟨w, hw, hsame⟩⟩
  · exact h

/-- If names may not stay without a definition, all that a document mentions is defined, by itself or by the base. --/
theorem defined_of_mentions (h : o.Accepts ds) (hstrict : o.allowIncomplete = false)
    (hwhole : ∀ d ∈ ds, ∃ w sign body, d = ⟨some w, some sign, some body⟩) {d : Definition} (hd : d ∈ ds) {name : String}
    (hn : d.Mentions name) : bodiesOf false name ds ≠ [] ∨ o.baseDefines name = true := by
  rcases hn with ⟨w, hw, hn⟩ | ⟨w, hw, hn⟩
  · obtain ⟨w', sign, body, rfl⟩ := hwhole d hd
    cases hw
    obtain ⟨before, after, rfl⟩ := List.append_of_mem hd
    have hown : (bodyOf sign.incremental name ⟨some w, some sign, some body⟩).isSome := by
      rw [bodyOf_whole, if_pos ⟨hn, rfl⟩]
      rfl
    -- The definition itself is one, unless it adds to one: that was made before it, or by the base.
    cases hsign : sign.incremental with
    | false => exact .inl (bodiesOf_ne_nil (hsign ▸ hown))
    | true =>
      refine (h.follows before _ after rfl name (hsign ▸ hown)).imp (fun hne => ?_) And.right
      rw [bodiesOf, List.filterMap_append]
      exact List.append_ne_nil_of_left_ne_nil hne _
  · rw [← bodiesOf_sameName hn, ← o.baseDefines_sameName hn]
    exact h.references hstrict w (hw.of_mem hd)

/-- What the grammar of an accepted document lacks is what its base lacks and the document does not define. --/
theorem lacks_extended_iff (hb : ∀ base, o.base = some base → base.WellFormed) (h : o.Accepts ds)
    (hstrict : o.allowIncomplete = false)
    (hwhole : ∀ d ∈ ds, ∃ w sign body, d = ⟨some w, some sign, some body⟩) (name : String) :
    (extended o ds).grammar.Lacks name ↔ bodiesOf false name ds = [] ∧ ∃ base, o.base = some base ∧ base.Lacks name := by
  have hdefines := defines_extended hb (clean_of_accepts hb h) name
  have hplace : ((extended o ds).grammar.find? name).isSome = true ↔
      ((drawn o ds).grammar.find? name).isSome = true ∨
        ∃ base, o.base = some base ∧ (base.find? name).isSome = true := by
    rw [extended, find?_extensions, withBase]
    cases hbase : o.base with
    | none => simp
    | some base =>
      dsimp only
      rw [Grammar.isSome_find?_includeBase (drawn_spec .empty o ds).sound.wellFormed (hb base hbase), Bool.or_eq_true]
      simp
  -- A place that the document made is that of a name it mentions, which is defined in the end.
  rw [Grammar.lacks_iff, hplace, ← Bool.not_eq_true, hdefines, not_or, not_ne_iff]
  constructor
  · rintro ⟨hdrawn | ⟨base, hbase, hfind⟩, hnil, hundefined⟩
    · obtain ⟨d, hd, hn⟩ := declared_drawn hdrawn
      exact absurd (defined_of_mentions h hstrict hwhole hd hn) (not_or.mpr ⟨not_ne_iff.mpr hnil, hundefined⟩)
    · refine ⟨hnil, base, hbase, Grammar.lacks_iff.mpr ⟨hfind, ?_⟩⟩
      simpa [CompileOptions.baseDefines, hbase] using hundefined
  · rintro ⟨hnil, base, hbase, hlacks⟩
    obtain ⟨hfind, hundefined⟩ := Grammar.lacks_iff.mp hlacks
    exact ⟨.inr ⟨base, hbase, hfind⟩, hnil, by simp [CompileOptions.baseDefines, hbase, hundefined]⟩

end

end Assembly

open Definition

theorem accepts_of_compile {source : String} {o : CompileOptions} {c : Compilation} (hc : compile source o = .ok c)
    (hb : ∀ base, o.base = some base → base.WellFormed) :
    o.Accepts (Document.ofSource source o).definitions :=
  (Assembly.hasErrors_document_iff hb).mp (compile_eq_ok hc).2

/-- A grammar is compiled from what the document and its base make of each other. --/
theorem grammar_of_compile {source : String} {o : CompileOptions} {c : Compilation} (hc : compile source o = .ok c) :
    c.grammar = (Assembly.extended o (Document.ofSource source o).definitions).grammar.optimize := by
  rw [(compile_eq_ok hc).1, (Assembly.document_eq o _).1]

theorem lacks_compile_iff {source : String} {o : CompileOptions} {c : Compilation} (hc : compile source o = .ok c)
    (hstrict : o.allowIncomplete = false) (hb : ∀ base, o.base = some base → base.WellFormed) (name : String) :
    c.grammar.Lacks name ↔ bodiesOf false name (Document.ofSource source o).definitions = [] ∧
      ∃ base, o.base = some base ∧ base.Lacks name := by
  rw [grammar_of_compile hc]
  exact Assembly.lacks_extended_iff hb (accepts_of_compile hc hb) hstrict (whole_definitions (read_of_compile hc)) name

/-- Over a complete base, or none, a grammar is complete unless names may stay without a definition. --/
theorem isComplete_compile {source : String} {o : CompileOptions} {c : Compilation} (hc : compile source o = .ok c)
    (hstrict : o.allowIncomplete = false) (hb : ∀ base, o.base = some base → base.WellFormed)
    (hcomplete : ∀ base, o.base = some base → base.isComplete = true) : c.grammar.isComplete = true := by
  refine (wellFormed_compile hc hb).distinct.isComplete_iff.mpr fun name hname => ?_
  obtain ⟨-, base, hbase, hlacks⟩ := (lacks_compile_iff hc hstrict hb name).mp hname
  exact (hb base hbase).distinct.isComplete_iff.mp (hcomplete base hbase) name hlacks

/-- If names may not stay without a definition, a compiled grammar defines all that its document refers to, and lacks only
    what the base lacks and the document does not define. So over a complete base, or none, it is complete and no match
    fails for want of a rule; over another base a match that does has come to a name that the base lacks. --/
theorem compile_strict {source : String} {o : CompileOptions} {c : Compilation} (hc : compile source o = .ok c)
    (hstrict : o.allowIncomplete = false) (hb : ∀ base, o.base = some base → base.WellFormed) :
    (∀ w, Contains (Document.ofSource source o).definitions (.ref w) → c.grammar.defines w.text = true) ∧
      (∀ name, c.grammar.Lacks name ↔ bodiesOf false name (Document.ofSource source o).definitions = [] ∧
        ∃ base, o.base = some base ∧ base.Lacks name) ∧
      ((∀ base, o.base = some base → base.isComplete = true) → c.grammar.isComplete = true ∧
        ∀ input observed r start m, r < c.grammar.slots.size →
          Match.run ⟨c.grammar, input, observed⟩ r start ≠ .error (.missing m)) ∧
      ∀ input observed r start m, r < c.grammar.slots.size →
        Match.run ⟨c.grammar, input, observed⟩ r start = .error (.missing m) →
        ∃ name, m = .undefined c.grammar.name name ∧ c.grammar.Lacks name := by
  have hw := wellFormed_compile hc hb
  refine ⟨fun w href => ?_, lacks_compile_iff hc hstrict hb, fun hcomplete => ?_,
    fun input observed r start m hr hrun => Match.lacks_of_run hw hr hrun⟩
  · have haccepts := accepts_of_compile hc hb
    rw [grammar_of_compile hc]
    exact (Assembly.defines_extended hb (Assembly.clean_of_accepts hb haccepts) w.text).mpr
      (haccepts.references hstrict w href)
  · have hall := isComplete_compile hc hstrict hb hcomplete
    exact ⟨hall, fun input observed r start m hr => Match.run_ne_missing hw hall hr m⟩

/-- A base `x = y z` that defines neither of the names that it refers to. --/
def Grammar.unfinished : Grammar :=
  ⟨"unfinished", #[.ruleRef 1, .ruleRef 2, .sequence [0, 1]], #[⟨"x", some 2⟩, ⟨"y", none⟩, ⟨"z", none⟩], none⟩

/-- A document that defines one of them. --/
def filling : String := "y = \"a\"\nr = x\n"

theorem Grammar.wellFormed_unfinished : Grammar.unfinished.WellFormed := .of_passes (by decide +kernel)

theorem exists_compile_filling : ∃ c, compile filling { base := some Grammar.unfinished } = .ok c := by
  have hok : (compile filling { base := some Grammar.unfinished }).toOption.isSome = true := by decide +kernel
  cases hc : compile filling { base := some Grammar.unfinished } with
  | ok c => exact ⟨c, rfl⟩
  | error ds =>
    rw [hc] at hok
    cases hok

/-- The document refers to what the base leaves without a definition through a rule of the base only, and nothing is told
    of that: the grammar is not complete, and a match fails. --/
theorem compile_strict_unfinished :
    let o : CompileOptions := { base := some Grammar.unfinished }
    o.allowIncomplete = false ∧ (∀ base, o.base = some base → base.WellFormed) ∧
      ∃ c, compile filling o = .ok c ∧ c.grammar.isComplete = false ∧ c.grammar.rule "r" = .ok 1 ∧
        Match.run ⟨c.grammar, ⟨#[0x61]⟩, fun _ => true⟩ 1 0 = .error (.missing (.undefined "grammar" "z")) := by
  intro o
  obtain ⟨c, hc⟩ := exists_compile_filling
  have h : (compile filling o).toOption.map (fun c => (c.grammar.isComplete, c.grammar.rule "r",
      Match.run ⟨c.grammar, ⟨#[0x61]⟩, fun _ => true⟩ 1 0)) =
        some (false, .ok 1, .error (.missing (.undefined "grammar" "z"))) := by decide +kernel
  rw [hc] at h
  obtain ⟨hcomplete, hrule, hrun⟩ : c.grammar.isComplete = false ∧ c.grammar.rule "r" = .ok 1 ∧
      Match.run ⟨c.grammar, ⟨#[0x61]⟩, fun _ => true⟩ 1 0 = .error (.missing (.undefined "grammar" "z")) := by
    simpa [Except.toOption] using h
  refine ⟨rfl, ?_, c, hc, hcomplete, hrule, hrun⟩
  rintro base ⟨⟩
  exact Grammar.wellFormed_unfinished

/-- Of the names that the base lacks, the one that the document defines is no longer lacking. --/
theorem compile_strict_filling :
    let o : CompileOptions := { base := some Grammar.unfinished }
    o.allowIncomplete = false ∧ (∀ base, o.base = some base → base.WellFormed) ∧
      ∃ c, compile filling o = .ok c ∧ c.grammar.Lacks "z" ∧ ¬c.grammar.Lacks "y" := by
  intro o
  have hb : ∀ base, o.base = some base → base.WellFormed := by
    rintro base ⟨⟩
    exact Grammar.wellFormed_unfinished
  obtain ⟨c, hc⟩ := exists_compile_filling
  obtain ⟨-, hlacks, -⟩ := compile_strict hc rfl hb
  have hz : bodiesOf false "z" (Document.ofSource filling o).definitions = [] :=
    List.isEmpty_iff.mp (by decide +kernel)
  have hy : bodiesOf false "y" (Document.ofSource filling o).definitions ≠ [] :=
    List.isEmpty_eq_false_iff.mp (by decide +kernel)
  refine ⟨rfl, hb, c, hc, (hlacks "z").mpr ⟨hz, _, rfl, 2, ?_, rfl⟩, fun h => hy ((hlacks "y").mp h).1⟩
  decide +kernel

end Abnf
