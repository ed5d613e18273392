import Abnf.Proofs.Compile.Acceptance
import Abnf.Proofs.Compile.Layout
import Abnf.Proofs.Compile.Naming
import Abnf.Proofs.Compile.Patterns
import Abnf.Proofs.Match.Sharing

/-! Alternatives in one rule or one after the other. A document that adds alternatives to its rule with `=/` is made into a
    grammar that differs from that of one longer choice only in which choices stand open and in where the nodes lie
    (`exists_regroups_separate`), so both match alike (`agree_alternatives`). -/

namespace Abnf

/-- Alternatives put together; one stands for itself. --/
def Expr.join (span : Span) : List Expr → Expr
  | [e] => e
  | es => .alternation span es

namespace Assembly

open State Definition

/-- A rule with all its parts. --/
def rule (w : Word) (sign : DefinedAs) (body : Expr) : Definition := ⟨some w, some sign, some body⟩

/-- The state in which the one rule of a document has a place. --/
def outset (o : CompileOptions) (w : Word) : State :=
  { grammar := ((Grammar.empty o.name).declare w.text).2, diagnostics := [], definitions := [], references := [],
    extensions := [], blanks := none }

section
variable {o : CompileOptions} {w : Word} {sign more : DefinedAs} {names : List String} {e : Expr}

theorem initial_rules (o : CompileOptions) (w : Word) (sign more : DefinedAs) (e f : Expr) :
    initial o [rule w sign e, rule w more f] = outset o w := by
  have hself := Grammar.declare_eq_self _ (Grammar.find?_declare (Grammar.empty o.name) w.text)
  have hgrammar : (((Grammar.empty o.name).declare w.text).2.declare w.text).2 = ((Grammar.empty o.name).declare w.text).2 := by
    rw [hself]
  exact congrArg (fun grammar => State.mk grammar [] [] [] [] none) hgrammar

/-! ### Grammars of one rule -/

/-- The one rule of a grammar has a root of some pattern, and names have been declared in their order. --/
structure Solely (o : CompileOptions) (w : Word) (names : List String) (p : Pattern String) (g : Grammar) : Prop where
  names : g.slots.map Slot.name = ((outset o w).grammar.declareAll names).slots.map Slot.name
  root : ∃ r i, g.find? w.text = some r ∧ g.root? r = some i ∧ g.Unfolds g.Stands p i ∧ ∀ q ≠ r, g.root? q = none

theorem Solely.shares {p : Pattern String} {g g' : Grammar} (h : Solely o w names p g) (h' : Solely o w names p g') :
    g.Shares g' := by
  have hnames := h'.names.trans h.names.symm
  refine ⟨hnames, fun r => ?_⟩
  obtain ⟨q, i, hq, hi, hp, hothers⟩ := h.root
  obtain ⟨q', j, hq', hj, hp', hothers'⟩ := h'.root
  cases hq.symm.trans ((Grammar.find?_congr_names hnames w.text).symm.trans hq')
  by_cases hr : r = q
  · subst hr
    exact .inr ⟨i, j, hi, hj, p, hp, hp'⟩
  · exact .inl ⟨hothers r hr, hothers' r hr⟩

/-- A rule has been defined, its root being that of its body, and no other. --/
structure Begun (o : CompileOptions) (w : Word) (names : List String) (s : State) (i : NodeId) (s' : State) : Prop where
  grows : s.grammar.Grows s'.grammar
  names : s'.grammar.slots.map Slot.name = ((outset o w).grammar.declareAll names).slots.map Slot.name
  root : ∃ r, s'.grammar.find? w.text = some r ∧ s'.grammar.root? r = some i ∧ ∀ q ≠ r, s'.grammar.root? q = none
  definitions : s'.definitions = [w]
  extensions : s'.extensions = []
  spaced : s'.Spaced

/-- A rule that is not defined yet is defined, whatever is told of it. --/
theorem define_of_lookup (o : CompileOptions) {s : State} (sign : DefinedAs) (i : NodeId)
    (h : lookup s.definitions w.text = none) : ∃ ds, define o w sign i s =
      { s with
        grammar := (s.grammar.define w.text i).2, diagnostics := ds, definitions := s.definitions ++ [w] } := by
  rw [define, h]
  dsimp only
  split <;> exact ⟨_, rfl⟩

theorem begun_definition (hsign : sign.incremental = false) (h : (outset o w).Refers names (expr e (outset o w)).2) :
    Begun o w names (expr e (outset o w)).2 (expr e (outset o w)).1 (definition o (outset o w) (rule w sign e)) := by
  generalize hout : expr e (outset o w) = out at h
  obtain ⟨i, s⟩ := out
  have hfind : s.grammar.find? w.text = some ((Grammar.empty o.name).declare w.text).1 :=
    h.grows.find? (Grammar.find?_declare (Grammar.empty o.name) w.text)
  have hroots : ∀ q, s.grammar.root? q = none := fun q =>
    (h.roots q).trans ((Grammar.root?_declare _ w.text q).trans (Grammar.root?_eq_none_of_le (Nat.zero_le q)))
  have hdefine : (s.grammar.define w.text i).2 =
      { s.grammar.setRoot ((Grammar.empty o.name).declare w.text).1 i with firstSets := none } := by
    rw [Grammar.define, Grammar.declare_eq_self _ hfind]
  have hnone : lookup s.definitions w.text = none := by
    rw [h.definitions]
    rfl
  obtain ⟨ds, hadded⟩ := define_of_lookup o sign i hnone
  have hdefinition : definition o (outset o w) (rule w sign e) = define o w sign i s := by
    rw [definition, rule]
    dsimp only
    rw [hout, hsign, if_neg Bool.false_ne_true]
  rw [hdefinition, hadded, hdefine, h.definitions]
  have hgrows : s.grammar.Grows { s.grammar.setRoot ((Grammar.empty o.name).declare w.text).1 i with firstSets := none } :=
    (Grammar.grows_setRoot _ _ _).trans (.of_eq rfl rfl)
  exact
    { grows := hgrows
      names := (Grammar.names_setRoot _ _ _).trans h.names
      root := by
        refine ⟨_, hgrows.find? hfind, (Grammar.root?_setRoot _ _ _ _).trans (if_pos ⟨rfl, Grammar.lt_size_of_find? hfind⟩),
          fun q hq => (Grammar.root?_setRoot _ _ _ _).trans ((if_neg fun h => hq h.1.symm).trans (hroots q))⟩
      definitions := rfl
      extensions := h.extensions
      spaced := h.spaced.grow hgrows rfl }

/-! ### Alternatives -/

variable {es fs : List Expr} {ps qs : List (Pattern String)}

theorem solely_joined (h : Patterned es ps) (hmany : 2 ≤ es.length) (hsign : sign.incremental = false) (span : Span) :
    (drawn o [rule w sign (.alternation span es)]).extensions = [] ∧
      Solely o w (Expr.names (Expr.partsAll es)) (.choice ps) (drawn o [rule w sign (.alternation span es)]).grammar := by
  have hdraws := h.draws span hmany (s := outset o w) nofun
  have hbegun := begun_definition hsign hdraws.refers
  obtain ⟨r, hr, hroot, hothers⟩ := hbegun.root
  exact ⟨hbegun.extensions, hbegun.names, r, _, hr, hroot, hdraws.has.grow hbegun.grows, hothers⟩

/-- Alternatives are added to a rule that has been defined. --/
theorem extend_of_root (o : CompileOptions) {s : State} (hown : (lookup s.definitions w.text).isSome) {r : RuleId}
    {old i : NodeId} (hr : s.grammar.find? w.text = some r) (hold : s.grammar.root? r = some old) :
    extend o w i s = { s with
      grammar := (s.grammar.addNode (s.grammar.extended old i)).2.setRoot r s.grammar.nodes.size } := by
  rw [extend, if_pos hown, Grammar.extend_eq_setRoot i hr hold]

/-- With all alternatives side by side, the one rule of a grammar has their choice as its root. --/
theorem exists_regroups_extended {s : State} (hw : s.grammar.WellFormed)
    (hnames : s.grammar.slots.map Slot.name = ((outset o w).grammar.declareAll names).slots.map Slot.name) {r : RuleId}
    (hr : s.grammar.find? w.text = some r) (hothers : ∀ q ≠ r, s.grammar.root? q = none) {a b : NodeId} {is : List NodeId}
    (hall : s.HasAll ps is) (hopens : s.grammar.Opens [a, b] is) :
    ∃ g, ((s.grammar.addNode (s.grammar.extended a b)).2.setRoot r s.grammar.nodes.size).Regroups g ∧ g.WellFormed ∧
      Solely o w names (.choice ps) g := by
  obtain ⟨ns, hns, hopens'⟩ := s.grammar.exists_extended a b
  have hgrow := Grammar.grows_addNode s.grammar (.choice is)
  have hgrow' := hgrow.trans (Grammar.grows_setRoot _ r s.grammar.nodes.size)
  rw [hns]
  refine ⟨_, Grammar.regroups_setRoot hopens' hopens r, ?_, (Grammar.names_setRoot _ _ _).trans hnames, r,
    s.grammar.nodes.size, hgrow'.find? hr, ?_, ?_, fun q hq => ?_⟩
  · exact (hw.addNode (n := .choice is) hall.lt_size nofun).setRoot r (Grammar.lt_size_addNode _ _) rfl
  · exact (Grammar.root?_setRoot _ _ _ _).trans (if_pos ⟨rfl, Grammar.lt_size_of_find? (hgrow.find? hr)⟩)
  · exact ⟨is, Grammar.getElem?_addNode_self _ _, Grammar.UnfoldsAll.mono hgrow'.nodes hgrow'.stands hall⟩
  · exact (Grammar.root?_setRoot _ _ _ _).trans ((if_neg fun h => hq h.1.symm).trans (hothers q hq))

/-- Alternatives that are added one by one make the grammar of one choice, but for which choices stand open. --/
theorem exists_regroups_separate (h : Patterned es ps) (h' : Patterned fs qs) (hsign : sign.incremental = false)
    (hmore : more.incremental = true) (span span' : Span) :
    let s := drawn o [rule w sign (.alternation span es), rule w more (.alternation span' fs)]
    s.extensions = [] ∧ ∃ g, s.grammar.Regroups g ∧ g.WellFormed ∧
      Solely o w (Expr.names (Expr.partsAll (es ++ fs))) (.choice (ps ++ qs)) g := by
  intro s
  have hforks := h.forks span (s := outset o w) nofun
  have hbegun := begun_definition hsign hforks.refers
  have hforks' := h'.forks span' hbegun.spaced
  have hsound := (lowers_expr (.alternation span' fs) (drawn_spec .empty o [rule w sign (.alternation span es)]).sound).sound
  have hs : s = extend o w (expr (.alternation span' fs) (definition o (outset o w) (rule w sign (.alternation span es)))).1
      (expr (.alternation span' fs) (definition o (outset o w) (rule w sign (.alternation span es)))).2 := by
    have hinitial : s = definition o (definition o (outset o w) (rule w sign (.alternation span es)))
        (rule w more (.alternation span' fs)) := by
      rw [← initial_rules o w sign more (.alternation span es) (.alternation span' fs)]
      rfl
    rw [hinitial, definition, rule]
    dsimp only
    rw [hmore, if_pos rfl]
  obtain ⟨r, hr, hroot, hothers⟩ := hbegun.root
  obtain ⟨is, his, hopens⟩ := hforks.opens
  obtain ⟨js, hjs, hopens'⟩ := hforks'.opens
  have hgrown := hbegun.grows.trans hforks'.refers.grows
  have hown : (lookup (expr (.alternation span' fs)
      (definition o (outset o w) (rule w sign (.alternation span es)))).2.definitions w.text).isSome := by
    rw [hforks'.refers.definitions, hbegun.definitions]
    simp [lookup, sameName_refl]
  rw [hs, extend_of_root o hown (hforks'.refers.grows.find? hr) ((hforks'.refers.roots r).trans hroot)]
  refine ⟨hforks'.refers.extensions.trans hbegun.extensions, ?_⟩
  refine exists_regroups_extended hsound.wellFormed ?_ (hforks'.refers.grows.find? hr) ?_
    ((his.grow hgrown).append hjs) ((hopens.grow hgrown.nodes).append hopens')
  · rw [Expr.partsAll_append, Expr.names_append, Grammar.declareAll_append]
    exact hforks'.refers.names.trans (Grammar.names_declareAll_congr _ hbegun.names)
  · exact fun q hq => (hforks'.refers.roots q).trans (hothers q hq)

/-! ### Documents -/

theorem grammar_document {ds : List Definition} (h : (drawn o ds).extensions = []) :
    (document o ds).1 = (withBase o (drawn o ds)).grammar := by
  rw [(document_eq o ds).1, extended, h, List.foldl_nil]

theorem name_document (o : CompileOptions) (ds : List Definition) : (document o ds).1.name = o.name :=
  congrArg (fun x => x.1.name) (show document o ds = ((document o ds).1.setName o.name, _) from document_setName o.name o ds)

/-- A rule with further alternatives behind it matches like one with all of them. --/
theorem agree_alternatives (hb : ∀ base, o.base = some base → base.WellFormed) (hes : es ≠ []) (hfs : fs ≠ [])
    (hsign : sign.incremental = false) (hmore : more.incremental = true) (span span' span'' : Span) :
    Match.Agree (document o [rule w sign (.alternation span (es ++ fs))]).1.optimize
      (document o [rule w sign (.alternation span' es), rule w more (.alternation span'' fs)]).1.optimize := by
  generalize hg : (document o [rule w sign (.alternation span (es ++ fs))]).1 = g
  generalize hg' : (document o [rule w sign (.alternation span' es), rule w more (.alternation span'' fs)]).1 = g'
  obtain ⟨ps, hps⟩ := exists_patterned es
  obtain ⟨qs, hqs⟩ := exists_patterned fs
  have hmany : 2 ≤ (es ++ fs).length := by
    have hes := List.length_pos_of_ne_nil hes
    have hfs := List.length_pos_of_ne_nil hfs
    rw [List.length_append]
    omega
  obtain ⟨hnone, hsolely⟩ := solely_joined (o := o) (w := w) (hps.append hqs) hmany hsign span
  obtain ⟨hnone', k, hregroups, hk, hsolely'⟩ := exists_regroups_separate (o := o) (w := w) hps hqs hsign hmore span' span''
  have hwell := (drawn_spec .empty o [rule w sign (.alternation span' es), rule w more (.alternation span'' fs)]).sound.wellFormed
  -- The base goes on where they stop, so they stay apart in no more than they are.
  have hbased : ∃ k, g'.Regroups k ∧ k.WellFormed ∧ g'.WellFormed ∧ g.Shares k := by
    rw [← hg, ← hg', grammar_document hnone, grammar_document hnone', withBase, withBase]
    cases hbase : o.base with
    | none => exact ⟨k, hregroups, hk, hwell, hsolely.shares hsolely'⟩
    | some base =>
      have hbase := hb base hbase
      exact ⟨k.includeBase base, hregroups.includeBase, hk.includeBase hbase, hwell.includeBase hbase,
        (hsolely.shares hsolely').includeBase hbase⟩
  obtain ⟨k, hregroups, hk, hwell, hshares⟩ := hbased
  have hname : g'.name = g.name := by rw [← hg, ← hg', name_document, name_document]
  have hroots : ∀ r, (g'.root? r).isSome = (g.root? r).isSome := by
    intro r
    rw [← hregroups.roots r]
    rcases hshares.roots r with ⟨h, h'⟩ | ⟨i, j, h, h', -⟩
    · rw [h, h']
    · rw [h, h']
      rfl
  refine Match.agree_of_yields hname (hregroups.names.symm.trans hshares.names) hroots fun input observed r start a => ?_
  exact (Match.yields_shares hshares).trans (Match.yields_regroup_optimize hwell hk hregroups).symm

/-! ### Single alternatives -/

theorem expr_join (span : Span) (es : List Expr) (s : State) : expr (.join span es) s = expr (.alternation span es) s := by
  match es with
  | [] | _ :: _ :: _ => rfl
  | [e] => rfl

theorem definition_join (s : State) (w : Word) (sign : DefinedAs) (span : Span) (es : List Expr) :
    definition o s (rule w sign (.join span es)) = definition o s (rule w sign (.alternation span es)) := by
  rw [rule, rule, definition, definition]
  dsimp only
  rw [expr_join]

theorem document_join (before after : List Definition) (w : Word) (sign : DefinedAs) (span : Span) (es : List Expr) :
    document o (before ++ rule w sign (.join span es) :: after) =
      document o (before ++ rule w sign (.alternation span es) :: after) := by
  have hdrawn : drawn o (before ++ rule w sign (.join span es) :: after) =
      drawn o (before ++ rule w sign (.alternation span es) :: after) := by
    have hinitial : initial o (before ++ rule w sign (.join span es) :: after) =
        initial o (before ++ rule w sign (.alternation span es) :: after) := by
      simp only [initial, List.filterMap_append, List.filterMap_cons, rule]
    rw [drawn, drawn, List.foldl_append, List.foldl_append, List.foldl_cons, List.foldl_cons, definition_join, hinitial]
  rw [document_checked, document_checked, extended, extended, hdrawn]

/-! ### Acceptance -/

section
variable {f x : Expr} {ds : List Definition}

theorem contains_rule : Contains [rule w sign e] x ↔ x ∈ e.parts := by
  have hnone : ¬Contains [] x := by
    rintro ⟨_, _, _, hbody, -⟩
    cases hbody
  exact (@contains_whole [] _ _ _ _).trans (or_iff_right hnone)

theorem contains_rules : Contains [rule w sign e, rule w more f] x ↔ x ∈ e.parts ∨ x ∈ f.parts :=
  (@contains_whole [rule w sign e] _ _ _ _).trans (or_congr_left contains_rule)

theorem length_bodiesOf_rule (hsign : sign.incremental = false) (name : String) :
    (bodiesOf false name [rule w sign e]).length = if sameName w.text name then 1 else 0 := by
  cases h : sameName w.text name <;> simp [bodiesOf, rule, bodyOf_whole, hsign, h]

theorem length_bodiesOf_rules (hsign : sign.incremental = false) (hmore : more.incremental = true) (name : String) :
    (bodiesOf false name [rule w sign e, rule w more f]).length = if sameName w.text name then 1 else 0 := by
  cases h : sameName w.text name <;> simp [bodiesOf, rule, bodyOf_whole, hsign, hmore, h]

/-- A document that gives its one rule the bodies of two documents of one rule may be made of what they may be. --/
theorem accepts_of_parts (hsign : sign.incremental = false) (he : o.Accepts [rule w sign e]) (hf : o.Accepts [rule w sign f])
    (hparts : ∀ x, Contains ds x → x ∈ e.parts ∨ x ∈ f.parts ∨ ∃ span es, x = .alternation span es)
    (hown : ∀ name, (bodiesOf false name ds).length = if sameName w.text name then 1 else 0)
    (hfollows : InOrder (fun before d => ∀ name, (d.bodyOf true name).isSome → bodiesOf false name before ≠ []) ds) :
    o.Accepts ds := by
  have hcontains : ∀ {x}, Contains ds x → (∀ span es, x ≠ .alternation span es) →
      Contains [rule w sign e] x ∨ Contains [rule w sign f] x := by
    intro x hx hne
    rw [contains_rule, contains_rule]
    rcases hparts x hx with he | hf | ⟨span, es, rfl⟩
    · exact .inl he
    · exact .inr hf
    · exact absurd rfl (hne span es)
  have hnil : ∀ g name, bodiesOf false name [rule w sign g] ≠ [] ↔ bodiesOf false name ds ≠ [] := by
    intro g name
    rw [← List.length_pos_iff, ← List.length_pos_iff, hown, length_bodiesOf_rule hsign]
  exact
    { prose := fun v hv => (hcontains hv nofun).elim (he.prose v) (hf.prose v)
      values := fun v hv => (hcontains hv nofun).elim (he.values v) (hf.values v)
      repeats := fun span r x hx => (hcontains hx nofun).elim (he.repeats span r x) (hf.repeats span r x)
      once := fun name => by
        rw [hown]
        split <;> decide
      follows := fun before d after hds name hname => .inl (hfollows before d after hds name hname)
      overrides := fun hreject name hname => he.overrides hreject name ((hnil e name).mpr hname)
      references := fun hcomplete v hv => by
        rcases hcontains hv nofun with hv | hv
        · exact (he.references hcomplete v hv).imp_left (hnil e v.text).mp
        · exact (hf.references hcomplete v hv).imp_left (hnil f v.text).mp }

theorem accepts_join (hb : ∀ base, o.base = some base → base.WellFormed) (span : Span) (es : List Expr) :
    o.Accepts [rule w sign (.join span es)] ↔ o.Accepts [rule w sign (.alternation span es)] := by
  rw [← hasErrors_document_iff hb, ← hasErrors_document_iff hb]
  exact iff_of_eq (congrArg (fun x => Diagnostic.hasErrors x.2 = false) (document_join [] [] w sign span es))

theorem document_joins (span span' : Span) (es fs : List Expr) :
    document o [rule w sign (.join span es), rule w more (.join span' fs)] =
      document o [rule w sign (.alternation span es), rule w more (.alternation span' fs)] :=
  (document_join [] [_] w sign span es).trans (document_join [_] [] w more span' fs)

/-- A rule that may have its body is defined. --/
theorem defines_rule (hb : ∀ base, o.base = some base → base.WellFormed) (hsign : sign.incremental = false)
    (h : o.Accepts [rule w sign e]) : (document o [rule w sign e]).1.optimize.defines w.text = true := by
  rw [(document_eq o _).1]
  refine (defines_extended hb (clean_of_accepts hb h) w.text).mpr (.inl ?_)
  rw [← List.length_pos_iff, length_bodiesOf_rule hsign, sameName_refl]
  exact Nat.one_pos

/-- If a rule may have either of two bodies, it may have the alternatives of both in one, or one after the other. --/
theorem accepts_alternatives (hsign : sign.incremental = false) (hmore : more.incremental = true) (span span' span'' : Span)
    (he : o.Accepts [rule w sign (.alternation span' es)]) (hf : o.Accepts [rule w sign (.alternation span'' fs)]) :
    o.Accepts [rule w sign (.alternation span (es ++ fs))] ∧
      o.Accepts [rule w sign (.alternation span' es), rule w more (.alternation span'' fs)] := by
  have hfirst : ∀ e : Expr, InOrder (fun before d => ∀ name, (d.bodyOf true name).isSome →
      bodiesOf false name before ≠ []) [rule w sign e] := by
    refine fun e => (@inOrder_snoc _ [] _).mpr ⟨inOrder_nil _, fun name hname => ?_⟩
    rw [rule, bodyOf_whole, hsign, if_neg fun h => Bool.noConfusion h.2] at hname
    cases hname
  constructor
  · refine accepts_of_parts hsign he hf (fun x hx => ?_) (length_bodiesOf_rule hsign) (hfirst _)
    rw [contains_rule, Expr.parts, Expr.partsAll_append] at hx
    simp only [List.mem_append, List.mem_singleton, Expr.parts] at hx ⊢
    rcases hx with (hx | hx) | rfl
    · exact .inl (.inl hx)
    · exact .inr (.inl (.inl hx))
    · exact .inr (.inr ⟨_, _, rfl⟩)
  · refine accepts_of_parts hsign he hf (fun x hx => ?_) (length_bodiesOf_rules hsign hmore)
      ((@inOrder_snoc _ [_] _).mpr ⟨hfirst _, fun name hname => ?_⟩)
    · exact (contains_rules.mp hx).imp_right .inl
    · rw [← List.length_pos_iff, length_bodiesOf_rule hsign]
      rw [rule, bodyOf_whole] at hname
      split at hname
      · rename_i h
        rw [if_pos h.1]
        exact Nat.one_pos
      · cases hname

end

end
end Assembly
end Abnf
