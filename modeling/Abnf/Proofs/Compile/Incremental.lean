import Abnf.Proofs.Compile.Alternatives
import Abnf.Proofs.Compile.Completeness
import Abnf.Proofs.Grammar.Construction

/-! Incremental alternatives. Adding an alternative to a rule makes one longer choice (`extend_alternatives`), and a source
    with `=/` behind its rule is compiled to rules that match as those of a source with all alternatives in one. -/

namespace Abnf

/-! ### Tokens of rules -/

/-- The tokens of a rule, the first of which stands in the first column and no other does. --/
def ruleMarks (name sign : Token) (body : List Token) : List (Token × Bool) :=
  (name, true) :: (sign :: body).map fun t => (t, false)

/-- The lexemes of a rule. --/
structure RuleLexemes (name sign : Token) (body : List Token) (n s : Lexeme) (ls : List Lexeme) : Prop where
  name : n.mark = (name, true)
  sign : s.mark = (sign, false)
  body : ls.map Lexeme.mark = body.map fun t => (t, false)

section
variable {name sign other more : Token} {body body' : List Token} {source : String}

theorem exists_ruleLexemes {rest : List (Token × Bool)} {ks : List Lexeme}
    (h : ks.map Lexeme.mark = ruleMarks name sign body ++ rest) :
    ∃ n s ls ms, RuleLexemes name sign body n s ls ∧ ks = n :: s :: ls ++ ms ∧ ms.map Lexeme.mark = rest := by
  obtain ⟨rule, ms, rfl, hrule, hms⟩ := List.map_eq_append_iff.mp h
  obtain ⟨n, tail, rfl, hn, htail⟩ := List.map_eq_cons_iff.mp hrule
  obtain ⟨s, ls, rfl, hs, hls⟩ := List.map_eq_cons_iff.mp htail
  exact ⟨n, s, ls, ms, ⟨hn, hs, hls⟩, rfl, hms⟩

theorem RuleLexemes.opensLine {n s : Lexeme} {ls : List Lexeme} (h : RuleLexemes name sign body n s ls) :
    n.opensLine = true ∧ ∀ l ∈ s :: ls, l.opensLine = false := by
  refine ⟨congrArg Prod.snd h.name, List.forall_mem_cons.mpr ⟨congrArg Prod.snd h.sign, fun l hl => ?_⟩⟩
  have hmem : l.mark ∈ body.map fun t => (t, false) := h.body ▸ List.mem_map_of_mem hl
  obtain ⟨t, -, ht⟩ := List.mem_map.mp hmem
  exact congrArg Prod.snd ht.symm

/-- A source with the tokens of one rule is one chunk. --/
theorem chunks_one (h : significant source = ruleMarks name sign body) :
    ∃ n s ls, RuleLexemes name sign body n s ls ∧ (lexemes (tokenize source)).1 = n :: s :: ls ∧
      chunks (lexemes (tokenize source)).1 = [⟨n, s :: ls⟩] := by
  obtain ⟨n, s, ls, ms, hrule, hks, hms⟩ := exists_ruleLexemes (h.trans (List.append_nil _).symm)
  obtain rfl := List.map_eq_nil_iff.mp hms
  rw [List.append_nil] at hks
  refine ⟨n, s, ls, hrule, hks, ?_⟩
  have hchunks := @chunks_flatMap [⟨n, s :: ls⟩] nofun (List.forall_mem_singleton.mpr hrule.opensLine.2)
  rw [List.flatMap_singleton] at hchunks
  rw [hks]
  exact hchunks

/-- A source with the tokens of two rules is two chunks. --/
theorem chunks_two (h : significant source = ruleMarks name sign body ++ ruleMarks other more body') :
    ∃ n s ls n' s' ls', RuleLexemes name sign body n s ls ∧ RuleLexemes other more body' n' s' ls' ∧
      (lexemes (tokenize source)).1 = n :: s :: ls ++ n' :: s' :: ls' ∧
      chunks (lexemes (tokenize source)).1 = [⟨n, s :: ls⟩, ⟨n', s' :: ls'⟩] := by
  obtain ⟨n, s, ls, ms, hrule, hks, hms⟩ := exists_ruleLexemes h
  obtain ⟨n', s', ls', ms', hrule', rfl, hms'⟩ := exists_ruleLexemes (hms.trans (List.append_nil _).symm)
  obtain rfl := List.map_eq_nil_iff.mp hms'
  rw [List.append_nil] at hks
  refine ⟨n, s, ls, n', s', ls', hrule, hrule', hks, ?_⟩
  have hchunks := @chunks_flatMap [⟨n, s :: ls⟩, ⟨n', s' :: ls'⟩]
    (List.forall_mem_singleton.mpr hrule'.opensLine.1)
    (List.forall_mem_cons.mpr ⟨hrule.opensLine.2, List.forall_mem_singleton.mpr hrule'.opensLine.2⟩)
  rw [List.flatMap_cons, List.flatMap_singleton] at hchunks
  rw [hks]
  exact hchunks

end

/-! ### Bodies -/

namespace Derivation

variable {E : List Lexeme → Expr → Prop} {ls ms : List Lexeme} {es fs : List Expr} {e f : Expr}

theorem Branches.append (h : Branches E ls es) (h' : Branches E ms fs) : Branches E (ls ++ ms) (es ++ fs) := by
  induction h with
  | nil => exact h'
  | cons hslash h _ ih =>
    rw [List.cons_append, List.append_assoc]
    exact .cons hslash h ih

theorem Alternation.exists_branches (h : Alternation E ls e) : ∃ ks ms span f es, ls = ks ++ ms ∧
    Concatenation E ks f ∧ Branches E ms es ∧ e = .join span (f :: es) := by
  cases h with
  | single h => exact ⟨ls, [], ⟨0, 0⟩, e, [], (List.append_nil ls).symm, h, .nil, rfl⟩
  | several h hs => exact ⟨_, _, _, _, _, rfl, h, hs, rfl⟩

/-- With a slash between, alternatives make one longer list of them. --/
theorem alternation_joined (hbegins : ∀ ⦃ls e⦄, E ls e → Begins TokenKind.startsElement ls) (h : Alternation E ls e)
    (h' : Alternation E ms f) {slash : Lexeme} (hslash : slash.kind = .slash) :
    ∃ span span' span'' es fs, es ≠ [] ∧ fs ≠ [] ∧ e = .join span es ∧ f = .join span' fs ∧
      Alternation E (ls ++ slash :: ms) (.alternation span'' (es ++ fs)) := by
  obtain ⟨ks, rest, span, e₀, es, rfl, hhead, hes, rfl⟩ := h.exists_branches
  obtain ⟨ks', rest', span', f₀, fs, rfl, hhead', hfs, rfl⟩ := h'.exists_branches
  obtain ⟨l, ks, rfl, -⟩ := hhead.begins hbegins
  have hall : Branches E (rest ++ slash :: (ks' ++ rest')) (es ++ f₀ :: fs) := hes.append (.cons hslash hhead' hfs)
  rw [List.append_assoc]
  cases es with
  | nil => exact ⟨_, _, _, _, _, List.cons_ne_nil _ _, List.cons_ne_nil _ _, rfl, rfl, .several hhead hall⟩
  | cons e₁ es => exact ⟨_, _, _, _, _, List.cons_ne_nil _ _, List.cons_ne_nil _ _, rfl, rfl, .several hhead hall⟩

end Derivation

namespace Assembly

variable {o : CompileOptions}

/-- Documents that differ in no more than where their words stand. --/
theorem document_anywhere {ds ds' : List Definition} (h : List.Forall₂ (Definition.Like .anywhere) ds ds') :
    (document o ds').1 = (document o ds).1 ∧
      Diagnostic.hasErrors (document o ds').2 = Diagnostic.hasErrors (document o ds).2 := by
  obtain ⟨hgrammar, hdiagnostics⟩ := document_like o h
  exact ⟨hgrammar.eq.symm, (Diagnostic.Like.hasErrors hdiagnostics).symm⟩

end Assembly

/-! ### Sources -/

section
variable {source : String} {o : CompileOptions}

theorem compile_of_derives {ds : List Definition}
    (h : List.Forall₂ (Chunk.Derives o.nestingLimit) (chunks (lexemes (tokenize source)).1) ds)
    (hclean : Diagnostic.hasErrors (Assembly.document o ds).2 = false) :
    ∃ c, compile source o = .ok c ∧ c.grammar = (Assembly.document o ds).1.optimize := by
  obtain ⟨hquiet, hds⟩ := parse_of_derives h
  have hnone : ¬Diagnostic.hasErrors [] = true := Bool.false_ne_true
  rw [compile, hquiet, hds]
  dsimp only
  rw [if_neg hnone, hclean, if_neg Bool.false_ne_true]
  exact ⟨_, rfl, rfl⟩

/-- Where the tokens of a body stand again, they derive the same again. --/
theorem carries_body {limit : Nat} {ls ls' : List Lexeme} {pos stop : Nat} {e : Expr} (htiles : Tiles pos ls stop)
    (h : ls.map Lexeme.mark = ls'.map Lexeme.mark)
    (htouch : ls'.IsChain fun l m => l.kind.startsRepeat = true → m.leading = [])
    (he : Derivation.Alternation (Derivation.Element limit) ls e) :
    ∃ e', Derivation.Alternation (Derivation.Element limit) ls' e' ∧ e.Like .anywhere e' :=
  Derivation.carries_alternation (Derivation.carries_element limit) (fun _ _ => Derivation.Element.begins) he
    (along_of_marks htiles h htouch)

/-- A body that is compiled on its own derives, wherever it stands, an expression that the rule may have. --/
theorem exists_body {name sign : Token} {body : List Token} (hc : ∃ c, compile source o = .ok c)
    (h : significant source = ruleMarks name sign body) (hb : ∀ base, o.base = some base → base.WellFormed)
    {n s : Lexeme} {ls : List Lexeme} (hrule : RuleLexemes name sign body n s ls)
    (htouch : ls.IsChain fun l m => l.kind.startsRepeat = true → m.leading = []) : n.kind = .ruleName ∧
      s.kind.isDefinedAs = true ∧ ∃ e, Derivation.Alternation (Derivation.Element o.nestingLimit) ls e ∧
        o.Accepts [Assembly.rule n.word ⟨s.kind == .incEquals, s.word⟩ e] := by
  obtain ⟨c, hc⟩ := hc
  obtain ⟨n₀, s₀, ls₀, hrule₀, hlexemes, hchunks⟩ := chunks_one h
  have hderives := derives_definitions (read_of_compile hc)
  have hclean := (compile_eq_ok hc).2
  rw [hchunks] at hderives
  obtain ⟨d, ds, hd, hds, hdefinitions⟩ := List.forall₂_cons_left_iff.mp hderives
  obtain rfl := List.forall₂_nil_left_iff.mp hds
  rw [Document.ofSource, hdefinitions] at hclean
  cases hd with
  | rule hname hsign he =>
    have hn := Lexeme.like_of_mark (hrule₀.name.trans hrule.name.symm)
    have hs := Lexeme.like_of_mark (hrule₀.sign.trans hrule.sign.symm)
    have hkind : s₀.kind ≠ .ruleName := fun h => by
      rw [h] at hsign
      cases hsign
    obtain ⟨stop, -, -, -, -, htiles⟩ := hlexemes ▸ tiles_lexemes (tokenize source)
    obtain ⟨e', he', hlike⟩ := carries_body htiles (hrule₀.body.trans hrule.body.symm) htouch he
    have hdefinition : Definition.Like .anywhere ⟨some n₀.word, some ⟨s₀.kind == .incEquals, s₀.word⟩, some _⟩
        (Assembly.rule n.word ⟨s.kind == .incEquals, s.word⟩ e') :=
      .mk (hn.names hname) ⟨by rw [hs.kind], hs.word hkind⟩ hlike
    rw [← (Assembly.document_anywhere (.cons hdefinition .nil)).2] at hclean
    exact ⟨hn.kind ▸ hname, hs.kind ▸ hsign, e', he', (Assembly.hasErrors_document_iff hb).mp hclean⟩

variable {first second joined separate : String} {name equals slash more : Token} {A B : List Token}

/-- Sources that give a rule two bodies: one of them, the other, both with a slash between, and one behind the other with a
    sign between that adds to the rule. However the last two are laid out, their repeats touch what they repeat. --/
structure Variants (name equals slash more : Token) (A B : List Token) (first second joined separate : String) : Prop where
  kinds : equals.kind = .equals ∧ slash.kind = .slash ∧ more.kind = .incEquals
  ofFirst : significant first = ruleMarks name equals A
  ofSecond : significant second = ruleMarks name equals B
  ofJoined : significant joined = ruleMarks name equals (A ++ slash :: B) ∧ Touching (tokenize joined)
  ofSeparate : significant separate = ruleMarks name equals A ++ ruleMarks name more B ∧ Touching (tokenize separate)

/-- Bodies that have been read in one rule are read the same in two rules. --/
theorem exists_separate (hmore : more.kind = .incEquals)
    (h : significant separate = ruleMarks name equals A ++ ruleMarks name more B) (htouch : Touching (tokenize separate))
    {limit posA stopA posB stopB : Nat} {n s : Lexeme} {lsA lsB : List Lexeme} (hA : RuleLexemes name equals A n s lsA)
    (hB : RuleLexemes name equals B n s lsB) (hname : n.kind = .ruleName) (hsign : s.kind.isDefinedAs = true)
    (htilesA : Tiles posA lsA stopA) (htilesB : Tiles posB lsB stopB) {e f : Expr}
    (he : Derivation.Alternation (Derivation.Element limit) lsA e)
    (hf : Derivation.Alternation (Derivation.Element limit) lsB f) : ∃ (sign : DefinedAs) (ds : List Definition),
      sign.incremental = true ∧ List.Forall₂ (Chunk.Derives limit) (chunks (lexemes (tokenize separate)).1) ds ∧
      List.Forall₂ (Definition.Like .anywhere)
        [Assembly.rule n.word ⟨s.kind == .incEquals, s.word⟩ e, Assembly.rule n.word sign f] ds := by
  obtain ⟨n₁, s₁, ls₁, n₂, s₂, ls₂, hrule₁, hrule₂, hlexemes, hchunks⟩ := chunks_two h
  have hchain := (significant_lexemes (tokenize separate)).touching htouch
  rw [hlexemes] at hchain
  obtain ⟨e', he', hee⟩ := carries_body htilesA (hA.body.trans hrule₁.body.symm) hchain.left_of_append.tail.tail he
  obtain ⟨f', hf', hff⟩ := carries_body htilesB (hB.body.trans hrule₂.body.symm) hchain.right_of_append.tail.tail hf
  have hn₁ := Lexeme.like_of_mark (hA.name.trans hrule₁.name.symm)
  have hs₁ := Lexeme.like_of_mark (hA.sign.trans hrule₁.sign.symm)
  have hn₂ := Lexeme.like_of_mark (hA.name.trans hrule₂.name.symm)
  have hs₂ : s₂.kind = .incEquals := (congrArg (fun x => x.1.kind) hrule₂.sign).trans hmore
  have hkind : s.kind ≠ .ruleName := fun h => by
    rw [h] at hsign
    cases hsign
  have hincremental : (s₂.kind == .incEquals) = true := by
    rw [hs₂]
    rfl
  refine ⟨⟨s₂.kind == .incEquals, s₂.word⟩, [Assembly.rule n₁.word ⟨s₁.kind == .incEquals, s₁.word⟩ e',
    Assembly.rule n₂.word ⟨s₂.kind == .incEquals, s₂.word⟩ f'], hincremental, ?_, ?_⟩
  · rw [hchunks]
    exact .cons (.rule (hn₁.kind ▸ hname) (hs₁.kind ▸ hsign) he')
      (.cons (.rule (hn₂.kind ▸ hname) (by rw [hs₂]; rfl) hf') .nil)
  · have hself : s₂.Like .anywhere s₂ := Lexeme.like_of_mark rfl
    exact .cons (.mk (hn₁.names hname) ⟨by rw [hs₁.kind], hs₁.word hkind⟩ hee)
      (.cons (.mk (hn₂.names hname) ⟨rfl, hself.word (by rw [hs₂]; decide)⟩ hff) .nil)

/-- Where bodies are compiled on their own, the rules that both longer sources are read as have the alternatives of both. --/
theorem exists_rules (hb : ∀ base, o.base = some base → base.WellFormed)
    (h : Variants name equals slash more A B first second joined separate) (hfirst : ∃ c, compile first o = .ok c)
    (hsecond : ∃ c, compile second o = .ok c) :
    ∃ (w : Word) (sign more : DefinedAs) (span span' span'' : Span) (es fs : List Expr) (ds : List Definition),
      w.text = name.text ∧ sign.incremental = false ∧ more.incremental = true ∧ es ≠ [] ∧ fs ≠ [] ∧
      o.Accepts [Assembly.rule w sign (.join span' es)] ∧ o.Accepts [Assembly.rule w sign (.join span'' fs)] ∧
      List.Forall₂ (Chunk.Derives o.nestingLimit) (chunks (lexemes (tokenize joined)).1)
        [Assembly.rule w sign (.alternation span (es ++ fs))] ∧
      List.Forall₂ (Chunk.Derives o.nestingLimit) (chunks (lexemes (tokenize separate)).1) ds ∧
      List.Forall₂ (Definition.Like .anywhere)
        [Assembly.rule w sign (.join span' es), Assembly.rule w more (.join span'' fs)] ds := by
  obtain ⟨hequals, hslash, hmore⟩ := h.kinds
  obtain ⟨hjoined, htouch⟩ := h.ofJoined
  obtain ⟨hseparate, htouch'⟩ := h.ofSeparate
  obtain ⟨n, s, ls, hrule, hlexemes, hchunks⟩ := chunks_one hjoined
  obtain ⟨lsA, rest, rfl, hbodyA, hrest⟩ := List.map_eq_append_iff.mp (hrule.body.trans List.map_append)
  obtain ⟨m, lsB, rfl, hm, hbodyB⟩ := List.map_eq_cons_iff.mp hrest
  have hA : RuleLexemes name equals A n s lsA := ⟨hrule.name, hrule.sign, hbodyA⟩
  have hB : RuleLexemes name equals B n s lsB := ⟨hrule.name, hrule.sign, hbodyB⟩
  have hchain := (significant_lexemes (tokenize joined)).touching htouch
  rw [hlexemes] at hchain
  replace hchain := hchain.tail.tail
  obtain ⟨hname, hsign, eA, hderA, haccA⟩ := exists_body hfirst h.ofFirst hb hA hchain.left_of_append
  obtain ⟨-, -, eB, hderB, haccB⟩ := exists_body hsecond h.ofSecond hb hB hchain.right_of_append.tail
  obtain ⟨span', span'', span, es, fs, hes, hfs, rfl, rfl, hall⟩ :=
    Derivation.alternation_joined (fun _ _ => Derivation.Element.begins) hderA hderB
      ((congrArg (fun x => x.1.kind) hm).trans hslash)
  have hincremental : (s.kind == .incEquals) = false := by
    rw [show s.kind = .equals from (congrArg (fun x => x.1.kind) hrule.sign).trans hequals]
    rfl
  obtain ⟨stop, -, -, -, -, htiles⟩ := hlexemes ▸ tiles_lexemes (tokenize joined)
  obtain ⟨mid, htilesA, -, -, htilesB⟩ := tiles_append.mp htiles
  obtain ⟨sign, ds, hsign', hderives, hlike⟩ :=
    exists_separate hmore hseparate htouch' hA hB hname hsign htilesA htilesB hderA hderB
  refine ⟨n.word, _, sign, span, span', span'', es, fs, ds, congrArg (fun x => x.1.text) hrule.name, hincremental, hsign',
    hes, hfs, haccA, haccB, ?_, hderives, hlike⟩
  rw [hchunks]
  exact .cons (.rule hname hsign hall) .nil

/-- Alternatives may stand in one rule or one after the other. Bodies that are compiled on their own are compiled with a
    slash between, and with a sign between that adds the one to the other; and the rules of both sources match alike. --/
theorem compile_variants (hb : ∀ base, o.base = some base → base.WellFormed)
    (h : Variants name equals slash more A B first second joined separate) (hfirst : ∃ c, compile first o = .ok c)
    (hsecond : ∃ c, compile second o = .ok c) : ∃ c c', compile joined o = .ok c ∧ compile separate o = .ok c' ∧
      (∃ r, c.grammar.rule name.text = .ok r) ∧ Match.Agree c.grammar c'.grammar := by
  obtain ⟨w, sign, more', span, span', span'', es, fs, ds, hw, hsign, hmore, hes, hfs, he, hf, hjoined, hseparate, hlike⟩ :=
    exists_rules hb h hfirst hsecond
  rw [Assembly.accepts_join hb] at he hf
  obtain ⟨haccepts, haccepts'⟩ := Assembly.accepts_alternatives hsign hmore span span' span'' he hf
  obtain ⟨hgrammar, herrors⟩ := Assembly.document_anywhere (o := o) hlike
  rw [Assembly.document_joins] at hgrammar herrors
  have hclean := (Assembly.hasErrors_document_iff hb).mpr haccepts
  have hclean' := herrors.trans ((Assembly.hasErrors_document_iff hb).mpr haccepts')
  obtain ⟨c, hc, hcg⟩ := compile_of_derives hjoined hclean
  obtain ⟨c', hc', hcg'⟩ := compile_of_derives hseparate hclean'
  rw [hgrammar] at hcg'
  refine ⟨c, c', hc, hc', ?_, ?_⟩
  · have hdefines := Assembly.defines_rule hb hsign haccepts
    obtain ⟨r, i, hr, hi⟩ := Grammar.defines_iff.mp hdefines
    rw [hcg, ← hw]
    exact ⟨r, Grammar.rule_eq_ok.mpr ⟨hr, i, hi⟩⟩
  · rw [hcg, hcg']
    exact Assembly.agree_alternatives hb hes hfs hsign hmore _ _ _

end

/-! ### Extended rules -/

/-- With enough fuel, a node comes to an answer, its effects behind those of the trail. --/
def Match.Evaluates (σ : Setting) (i : NodeId) (pos : Nat) (t : Trail) (a : Answer) : Prop :=
  ∃ fuel, Shows t.log (some a) (evaluate σ fuel i pos t)

/-- Incremental alternatives mean one longer choice. A defined rule that is extended has a new root, and nothing else has
    changed. Wherever its old root and the alternative come to answers, the new root comes to the first of them that reads
    something, else the first that is a match. A name without a definition is unknown, and nothing changes. So a source
    that adds one body to another is compiled to rules that match as those with both in one choice. --/
theorem extend_alternatives :
    (∀ (g : Grammar) (name : String) (alternative : NodeId),
      (∀ (r : RuleId) (old : NodeId), g.find? name = some r → g.root? r = some old → ∃ g' root,
        g.extend name alternative = .ok (r, g') ∧ g'.root? r = some root ∧ (∀ q, q ≠ r → g'.root? q = g.root? q) ∧
        g'.slots.map Slot.name = g.slots.map Slot.name ∧
        (∀ (i : NodeId) (n : Node), g.nodes[i]? = some n → g'.nodes[i]? = some n) ∧
        ∀ (input : ByteArray) (observed : RuleId → Bool) (pos : Nat) (t : Trail) (a b : Answer),
          Match.Evaluates ⟨g', input, observed⟩ old pos t a → Match.Evaluates ⟨g', input, observed⟩ alternative pos t b →
          Match.Evaluates ⟨g', input, observed⟩ root pos t (a.orElse pos b)) ∧
      ((∀ r, g.find? name = some r → g.root? r = none) → g.extend name alternative = .error (.unknown name) ∧
        (Grammar.Operation.extend name alternative).perform g = (none, g))) ∧
    ∀ (o : CompileOptions) (name equals slash more : Token) (A B : List Token) (first second joined separate : String),
      (∀ base, o.base = some base → base.WellFormed) → Variants name equals slash more A B first second joined separate →
      (∃ c, compile first o = .ok c) → (∃ c, compile second o = .ok c) →
      ∃ c c', compile joined o = .ok c ∧ compile separate o = .ok c' ∧ (∃ r, c.grammar.rule name.text = .ok r) ∧
        Match.Agree c.grammar c'.grammar := by
  refine ⟨fun g name alternative => ⟨fun r old hr hold => ?_, fun hnone => ?_⟩, ?_⟩
  · obtain ⟨g', hext, hextends⟩ := Grammar.extend_of_root alternative hr hold
    refine ⟨g', g.nodes.size, hext, hextends.defined, hextends.others, hextends.names, hextends.nodes, ?_⟩
    intro input observed pos t a b ha hb
    exact (Match.yields_node_iff t).mp
      (Match.yields_extend hextends ((Match.yields_node_iff t).mpr ha) ((Match.yields_node_iff t).mpr hb))
  · have herror := Grammar.extend_of_none alternative hnone
    refine ⟨herror, ?_⟩
    rw [Grammar.Operation.perform, herror]
  · intro o name equals slash more A B first second joined separate hb h hfirst hsecond
    exact compile_variants hb h hfirst hsecond

/-- The first alternative is a rule that reads nothing, which is taken back as the second reads a letter; and a rule is
    given two bodies, of which the second refers to it. --/
theorem extend_alternatives_listing :
    let g : Grammar := ⟨"g", #[.literal [0x61] true, .repetition 0 0 none, .ruleRef 1, .literal [0x63] false],
      #[⟨"r", some 2⟩, ⟨"t", some 1⟩, ⟨"u", none⟩], none⟩
    let input : ByteArray := ⟨#[0x63]⟩
    let name : Token := ⟨.ruleName, "r"⟩
    let A : List Token := [⟨.charVal, "\"a\""⟩]
    let B : List Token := [⟨.charVal, "\"b\""⟩, name]
    let first := "r = \"a\""
    let second := "r = \"b\" r"
    let joined := "r = \"a\" / \"b\" r ; both\r\n"
    let separate := "r = \"a\"\r\nr =/ \"b\" r\r\n"
    (∃ g' root, g.extend "R" 3 = .ok (0, g') ∧ g'.root? 0 = some root ∧
      Match.Evaluates ⟨g', input, fun _ => true⟩ 2 0 .empty (.matched 0 #[.enter 1 0, .exit 0]) ∧
      Match.Evaluates ⟨g', input, fun _ => true⟩ root 0 .empty (.matched 1 #[])) ∧
    g.extend "u" 3 = .error (.unknown "u") ∧
    Variants name ⟨.equals, "="⟩ ⟨.slash, "/"⟩ ⟨.incEquals, "=/"⟩ A B first second joined separate ∧
    ∃ c c', compile joined {} = .ok c ∧ compile separate {} = .ok c' ∧ Match.Agree c.grammar c'.grammar := by
  intro g input name A B first second joined separate
  have hvariants : Variants name ⟨.equals, "="⟩ ⟨.slash, "/"⟩ ⟨.incEquals, "=/"⟩ A B first second joined separate :=
    ⟨by decide, by decide +kernel, by decide +kernel, by decide +kernel, by decide +kernel⟩
  obtain ⟨hgrammars, hsources⟩ := extend_alternatives
  refine ⟨?_, ?_, hvariants, ?_⟩
  · have hfind : g.find? "R" = some 0 := by decide +kernel
    obtain ⟨g', root, hext, hroot, -, -, -, heval⟩ := (hgrammars g "R" 3).1 0 2 hfind rfl
    have hg' : g' = ⟨"g", #[.literal [0x61] true, .repetition 0 0 none, .ruleRef 1, .literal [0x63] false, .choice [2, 3]],
        #[⟨"r", some 4⟩, ⟨"t", some 1⟩, ⟨"u", none⟩], none⟩ := by
      rw [Grammar.extend, hfind] at hext
      cases hext
      rfl
    have hold : Match.Evaluates ⟨g', input, fun _ => true⟩ 2 0 .empty (.matched 0 #[.enter 1 0, .exit 0]) := by
      subst hg'
      exact ⟨4, .matched rfl⟩
    have hnew : Match.Evaluates ⟨g', input, fun _ => true⟩ 3 0 .empty (.matched 1 #[]) := by
      subst hg'
      exact ⟨1, .matched rfl⟩
    exact ⟨g', root, hext, hroot, hold, heval input (fun _ => true) 0 .empty _ _ hold hnew⟩
  · refine ((hgrammars g "u" 3).2 fun r hr => ?_).1
    have hfind : g.find? "u" = some 2 := by decide +kernel
    obtain rfl := Option.some.inj (hfind.symm.trans hr)
    rfl
  · have hfirst : (compile first {}).isOk = true := by decide +kernel
    have hsecond : (compile second {}).isOk = true := by decide +kernel
    obtain ⟨c, c', hc, hc', -, hagree⟩ := hsources {} name _ _ _ A B first second joined separate nofun hvariants
      (exists_of_isOk hfirst) (exists_of_isOk hsecond)
    exact ⟨c, c', hc, hc', hagree⟩

end Abnf
