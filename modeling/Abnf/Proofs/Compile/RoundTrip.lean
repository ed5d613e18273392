import Abnf.Proofs.Binary.Acceptance
import Abnf.Proofs.Compile.Proper
import Abnf.Proofs.Compile.Render
import Abnf.Proofs.Document.Reading
import Abnf.Proofs.Match.Resemblance

/-! Compiling the text of a grammar. The text has a line for each rule, and if it is clear how every pattern is written,
    the text compiles to a grammar that differs from the first only in brackets, repetitions of once and no more, and the
    notation of literals (`Grammar.Clear.compile_render`). Such grammars resemble each other, so their matches are the
    same (`Grammar.Clear.run_render`). What is compiled is clear if its patterns are legible, as they are but for bounds
    right under bounds and for literals with letters that cannot stand in quotes (`run_compile_render`). -/

namespace Abnf

open List (Forall₂)
open Binary (named built)

/-! ### Documents -/

namespace Assembly

/-- A definition gives a rule its one body, which is made into a pattern. --/
def Defines (d : Definition) (x : String × Pattern String) : Prop :=
  ∃ name sign body, d = ⟨some name, some ⟨false, sign⟩, some body⟩ ∧ name.text = x.1 ∧ Makes body x.2

theorem declareAll_of_declareDistinct : ∀ {names : List String} {g g' : Grammar},
    Binary.declareDistinct g names = .ok g' → g.declareAll names = g'
  | [], _, _, h => Except.ok.inj h
  | name :: names, g, g', h => by
    rw [Binary.declareDistinct] at h
    split at h
    · cases h
    · exact declareAll_of_declareDistinct (g := (g.declare name).2) h

section
variable {o : CompileOptions} {ds : List Definition} {xs : List (String × Pattern String)}

theorem names_of_defines (h : Forall₂ Defines ds xs) :
    (ds.filterMap fun d => d.name.map Word.text) = xs.map Prod.fst := by
  induction h with
  | nil => rfl
  | cons hd _ ih =>
    obtain ⟨name, sign, body, rfl, hname, -⟩ := hd
    simp only [List.filterMap_cons, Option.map_some, ih, hname, List.map_cons]

theorem definition_of_defines (hbase : o.base = none) {d : Definition} {x : String × Pattern String} (h : Defines d x)
    {s : State} (hnone : lookup s.definitions x.1 = none) : ∃ w references, w.text = x.1 ∧
      definition o s d = { s with
        grammar := s.grammar.definePattern x.1 x.2, definitions := s.definitions ++ [w], references } := by
  obtain ⟨name, sign, body, rfl, hname, hmakes⟩ := h
  obtain ⟨references, hbody⟩ := hmakes s
  refine ⟨name, references, hname, ?_⟩
  have hundefined : o.baseDefines name.text = false := by
    rw [CompileOptions.baseDefines, hbase]
    rfl
  rw [definition]
  dsimp only
  rw [hbody]
  dsimp only
  rw [if_neg Bool.false_ne_true, define]
  dsimp only
  rw [hname, hnone]
  dsimp only
  rw [← hname, hundefined, Bool.and_false, if_neg Bool.false_ne_true, Grammar.definePattern]

theorem definitions_of_defines (hbase : o.base = none) (h : Forall₂ Defines ds xs) : ∀ s : State,
    ((xs.map Prod.fst).Pairwise fun a b => sameName a b = false) → (∀ x ∈ xs, lookup s.definitions x.1 = none) →
    ∃ definitions references, ds.foldl (definition o) s = { s with
      grammar := xs.foldl (fun g x => g.definePattern x.1 x.2) s.grammar, definitions, references } := by
  induction h with
  | nil => exact fun s _ _ => ⟨s.definitions, s.references, rfl⟩
  | @cons d x ds xs hd _ ih =>
    intro s hdis hnone
    obtain ⟨hne, hdis⟩ := List.pairwise_cons.mp hdis
    obtain ⟨hx, hxs⟩ := List.forall_mem_cons.mp hnone
    obtain ⟨w, references, hw, heq⟩ := definition_of_defines hbase hd hx
    rw [List.foldl_cons, heq]
    refine ih _ hdis fun y hy => ?_
    rw [← Option.not_isSome_iff_eq_none, isSome_lookup_append, hxs y hy, hw, hne y.1 (List.mem_map_of_mem hy)]
    exact Bool.false_ne_true

/-- A document that defines different names by patterns of these names. --/
theorem document_of_defines (hbase : o.base = none) (h : Forall₂ Defines ds xs)
    (hdis : (xs.map Prod.fst).Pairwise fun a b => sameName a b = false)
    (hc : (built o.name (xs.map Prod.fst) xs).isComplete = true) :
    document o ds = (built o.name (xs.map Prod.fst) xs, []) := by
  have hinitial : (initial o ds).grammar = named o.name (xs.map Prod.fst) := by
    show (Grammar.empty o.name).declareAll _ = _
    rw [names_of_defines h]
    exact declareAll_of_declareDistinct (Binary.declareDistinct_empty hdis)
  obtain ⟨definitions, references, hdefinitions⟩ := definitions_of_defines hbase h (initial o ds) hdis fun _ _ => rfl
  have hfinal : ds.foldl (definition o) (initial o ds) =
      ⟨built o.name (xs.map Prod.fst) xs, [], definitions, references, [], none⟩ := by
    rw [hdefinitions, hinitial]
    rfl
  have hundefined : (built o.name (xs.map Prod.fst) xs).undefinedNames = [] := by
    rw [Grammar.undefinedNames, List.map_eq_nil_iff, List.filter_eq_nil_iff]
    intro s hs
    have hsome := Array.all_eq_true_iff_forall_mem.mp hc s (Array.mem_toList_iff.mp hs)
    rwa [Option.isNone_iff_eq_none, ← ne_eq, ← Option.isSome_iff_ne_none]
  rw [document, hfinal, hbase]
  dsimp only
  rw [List.foldl_nil]
  dsimp only
  rw [hundefined, List.foldl_nil]

end

end Assembly

/-! ### Texts -/

namespace Grammar

/-- A grammar whose names can be written, and whose patterns are clear. --/
structure Clear (g : Grammar) : Prop where
  names : ∀ s ∈ g.slots, isName s.name = true
  patterns : ∀ x ∈ g.rules, (g.pattern x.2.2).Clear g.ruleName

/-- The line of a rule. --/
def line (g : Grammar) (x : RuleId × String × NodeId) : Line :=
  ⟨⟨.ruleName, x.2.1⟩, ⟨true, ⟨.equals, "="⟩⟩ :: (g.pattern x.2.2).marks g.ruleName true⟩

/-- What the line of a rule is read back as. --/
def rereadRule (g : Grammar) (x : RuleId × String × NodeId) : String × Pattern String :=
  (x.2.1, (g.pattern x.2.2).reread g.ruleName)

/-- What the text of a grammar is read back as. --/
def reread (g : Grammar) (name : String) : Grammar := Binary.rebuilt g name fun p => p.reread g.ruleName

section
variable {g : Grammar} {x : RuleId × String × NodeId}

/-- A proper grammar whose patterns are legible is clear. --/
theorem Proper.clear (h : g.Proper) (hw : g.WellFormed) (hl : ∀ x ∈ g.rules, (g.pattern x.2.2).legible = true) :
    g.Clear where
  names s hs := h.names s.name (Array.mem_map_of_mem hs)
  patterns x hx := by
    obtain ⟨s, hs, -, hi⟩ := mem_rules.mp hx
    exact clear_of_legible hw h (hw.unfolds_pattern (hw.roots _ _ (root?_eq_some_iff.mpr ⟨s, hs, hi⟩))) (hl x hx)

theorem Clear.chars_line (h : g.Clear) (hx : x ∈ g.rules) :
    (g.line x).chars = (x.2.1 ++ " = " ++ g.renderNode x.2.2 ++ "\n").toList := by
  rw [line, Line.chars]
  dsimp only
  rw [List.flatMap_cons, Pattern.chars_marks g.ruleName (h.patterns x hx)]
  simp only [String.toList_append, List.append_assoc]
  rfl

theorem Clear.render_eq (h : g.Clear) : g.render = String.ofList ((g.rules.map g.line).flatMap Line.chars) := by
  rw [← String.toList_inj, String.toList_ofList, render, String.toList_join, List.flatMap_map, List.flatMap_map]
  refine List.flatMap_congr fun x hx => ?_
  exact (h.chars_line hx).symm

theorem Clear.stands_line (h : g.Clear) (hx : x ∈ g.rules) : (g.line x).Stands where
  name rest := by
    obtain ⟨s, hs, hname, -⟩ := mem_rules.mp hx
    refine Token.stands_ruleName ?_ ?_
    · exact hname ▸ h.names s (Array.mem_of_getElem? hs)
    · rintro c ⟨⟩
      rfl
  marks rest := by
    refine ⟨Token.stands_equals ?_, Pattern.stand_marks g.ruleName (h.patterns x hx) true _ ?_⟩
    · rw [Pattern.chars_marks g.ruleName (h.patterns x hx)]
      rintro c ⟨⟩
      decide
    · rintro c ⟨⟩
      exact Or.inr (Or.inr (Or.inr rfl))

/-- A chunk with the tokens of a rule's line defines the rule by what its pattern is read back as. --/
theorem Clear.exists_definition (h : g.Clear) (hx : x ∈ g.rules) {limit : Nat}
    (hlimit : (g.pattern x.2.2).height ≤ limit) {c : Chunk} (hc : (g.line x).Of c) :
    ∃ d, c.Derives limit d ∧ Assembly.Defines d (g.rereadRule x) := by
  obtain ⟨head, tail⟩ := c
  obtain ⟨hname, htail⟩ := hc
  obtain ⟨sign, ls, hsign, hls, rfl⟩ := List.forall₂_cons_left_iff.mp htail
  obtain ⟨e, he, hmakes, -⟩ := Pattern.reads_of_clear g.ruleName (h.patterns x hx) hlimit hls
  have hkind : sign.kind = .equals := congrArg Token.kind hsign.1
  refine ⟨_, .rule (congrArg Token.kind hname) ?_ he.alternation, head.word, sign.word, e, ?_, congrArg Token.text hname,
    hmakes⟩
  · rw [hkind]
    rfl
  · rw [hkind]
    rfl

/-- The text of a grammar has a chunk for each rule, which defines it by what its pattern is read back as. --/
theorem Clear.exists_definitions (h : g.Clear) {limit : Nat} : ∀ {xs : List (RuleId × String × NodeId)} {cs : List Chunk},
    (∀ x ∈ xs, x ∈ g.rules) → (∀ x ∈ xs, (g.pattern x.2.2).height ≤ limit) → Forall₂ Line.Of (xs.map g.line) cs →
    ∃ ds, Forall₂ (Chunk.Derives limit) cs ds ∧ Forall₂ Assembly.Defines ds (xs.map g.rereadRule)
  | [], _, _, _, .nil => ⟨[], .nil, .nil⟩
  | x :: xs, _ :: _, hmem, hlimit, .cons hc hcs => by
    obtain ⟨hx, hxs⟩ := List.forall_mem_cons.mp hmem
    obtain ⟨hheight, hheights⟩ := List.forall_mem_cons.mp hlimit
    obtain ⟨d, hd, hdef⟩ := h.exists_definition hx hheight hc
    obtain ⟨ds, hds, hdefs⟩ := h.exists_definitions hxs hheights hcs
    exact ⟨d :: ds, .cons hd hds, .cons hdef hdefs⟩

end

end Grammar

namespace Pattern

section
variable {ρ : Type} {name : ρ → String} {P : String → Prop}

theorem refers_foldIf {b : Bool} {p : Pattern String} (h : p.Refers P) : (foldIf b p).Refers P := by
  cases b <;> exact h

theorem refers_repeated {p : Pattern String} (h : p.Refers P) (min : UInt32) (max : Option UInt32) :
    (repeated p min max).Refers P := by
  unfold repeated
  split <;> exact h

theorem refers_ofBytes (bs : List UInt8) : (ofBytes bs).Refers P := by
  match bs with
  | [] | [_] | _ :: _ :: _ => trivial

mutual

/-- No other rules are referred to in what a pattern is read back as. --/
theorem refers_reread : ∀ {p : Pattern ρ}, p.Refers (fun r => P (name r)) → (p.reread name).Refers P
  | .literal bs _, _ => by
    rw [reread]
    split
    · trivial
    · exact refers_ofBytes bs
  | .charRange .., _ => trivial
  | .sequence _, h => refers_rereads true h
  | .choice _, h => refers_rereads false h
  | .repetition p min max, h => by
    have hp : (p.reread name).Refers P := refers_reread (p := p) h
    rw [reread]
    split
    · exact hp
    · exact refers_repeated (refers_foldIf hp) min max
  | .ruleRef _, h => h
  | .fold p, h => by
    rw [reread]
    exact refers_foldIf (refers_reread (p := p) h)

theorem refers_rereads (tight : Bool) : ∀ {ps : List (Pattern ρ)}, RefersAll (fun r => P (name r)) ps →
    RefersAll P (rereads name tight ps)
  | [], _ => trivial
  | _ :: _, ⟨h, hs⟩ => ⟨refers_foldIf (refers_reread h), refers_rereads tight hs⟩

end

end

end Pattern

/-! ### Grammars -/

namespace Grammar

section
variable {g : Grammar} (hw : g.WellFormed) (hc : g.isComplete = true)
include hw hc

theorem isComplete_reread (name : String) : (g.reread name).isComplete = true :=
  Binary.isComplete_rebuilt (fun h => Pattern.refers_reread h) hw hc name

theorem wellFormed_reread (name : String) : (g.reread name).WellFormed :=
  WellFormed.definePatterns _ (Binary.wellFormed_named (Binary.pairwise_names hw hc))

/-- The text of a clear grammar compiles, if brackets may nest as deep as its patterns are. --/
theorem Clear.compile_render (h : g.Clear) {o : CompileOptions} (hbase : o.base = none)
    (hlimit : ∀ x ∈ g.rules, (g.pattern x.2.2).height ≤ o.nestingLimit) :
    compile g.render o = .ok ⟨(g.reread o.name).optimize, []⟩ := by
  have hstands : ∀ y ∈ g.rules.map g.line, y.Stands := List.forall_mem_map.mpr fun x hx => h.stands_line hx
  have hchunks := Line.chunks_lines hstands
  rw [← h.render_eq] at hchunks
  obtain ⟨ds, hderives, hdefines⟩ := h.exists_definitions (fun _ hx => hx) hlimit hchunks
  obtain ⟨hquiet, htree⟩ := parse_of_derives hderives
  have hnames : (g.rules.map g.rereadRule).map Prod.fst = g.rules.map fun x => x.2.1 := List.map_map
  have hbuilt : g.reread o.name = built o.name ((g.rules.map g.rereadRule).map Prod.fst) (g.rules.map g.rereadRule) := by
    rw [hnames]
    rfl
  have hdocument : Assembly.document o ds = (g.reread o.name, []) := by
    rw [hbuilt]
    refine Assembly.document_of_defines hbase hdefines ?_ ?_
    · exact hnames ▸ Binary.pairwise_names hw hc
    · exact hbuilt ▸ isComplete_reread hw hc o.name
  rw [compile]
  dsimp only
  rw [hquiet, htree, hdocument]
  rfl

/-- What is read back has the same names in the same places, and each rule has what its pattern is read back as. --/
theorem reread_spec (name : String) : (g.reread name).slots.map Slot.name = g.slots.map Slot.name ∧
    ∀ r i, g.root? r = some i → ∃ j, (g.reread name).root? r = some j ∧
      (g.reread name).Unfolds g.Stands ((g.pattern i).reread g.ruleName) j :=
  (Binary.rebuilt_spec (fun h => Pattern.refers_reread h) hw hc name).2

end

end Grammar

/-! ### Nodes -/

namespace Match

theorem sameByte_of_caseless {b : UInt8} (h : (Byte.lower b == b && Byte.upper b == b) = true) (c : UInt8) :
    sameByte true b c = sameByte false b c := by
  rw [Bool.and_eq_true, beq_iff_eq, beq_iff_eq] at h
  obtain ⟨hlower, hupper⟩ := h
  rw [sameByte, sameByte, if_pos rfl, if_neg Bool.false_ne_true, hlower, Bool.eq_iff_iff, beq_iff_eq, beq_iff_eq]
  revert hlower hupper
  unfold Byte.lower Byte.upper
  grind

theorem bytesAt_of_caseless (input : ByteArray) : ∀ {bs : List UInt8}, Pattern.caseless bs = true → ∀ pos,
    bytesAt input true pos bs = bytesAt input false pos bs
  | [], _, _ => rfl
  | b :: bs, h, pos => by
    obtain ⟨hb, hbs⟩ := (Bool.and_eq_true _ _).mp (show (_ && _) = true from h)
    rw [bytesAt, bytesAt, bytesAt_of_caseless input hbs, funext (sameByte_of_caseless hb)]

end Match

namespace Node

/-- Without letters the letter case makes no difference. --/
theorem sameLeaf_of_caseless {bs : List UInt8} (h : Pattern.caseless bs = true) :
    (literal bs true).SameLeaf (literal bs false) where
  stops input pos := by
    refine ⟨_, rfl, ?_⟩
    rw [leafStop?, Match.literal?, Match.literal?, Match.bytesAt_of_caseless input h]
  sets node rule := by
    cases bs with
    | nil => rfl
    | cons b bs =>
      obtain ⟨hb, -⟩ := (Bool.and_eq_true _ _).mp (show (_ && _) = true from h)
      rw [Bool.and_eq_true, beq_iff_eq, beq_iff_eq] at hb
      refine FirstSet.ext_has fun x => ?_
      simp [FirstSet.ofNode, FirstSet.ofLiteral, hb.1, hb.2]

/-- A single byte is a range of one code point. --/
theorem sameLeaf_single (b : UInt8) : (literal [b] false).SameLeaf (charRange b.toUInt32 b.toUInt32) where
  stops input pos := by
    refine ⟨_, rfl, ?_⟩
    have hlim : b.toUInt32 < byteLimit := UInt32.lt_iff_toNat_lt.mpr b.toNat_lt
    rw [leafStop?, Match.charRange?, Match.literal?, if_pos hlim, Match.bytesAt, Match.bytesAt, Bool.and_true]
    congr 1
    rcases Nat.lt_or_ge pos input.size with hlt | hge
    · have heq : ∀ c : UInt8, (b ≤ c ∧ c ≤ b) ↔ b = c :=
        fun c => ⟨fun h => UInt8.le_antisymm h.1 h.2, fun h => h ▸ ⟨UInt8.le_refl b, UInt8.le_refl b⟩⟩
      rw [getElem?_pos input pos hlt]
      simp [heq, Match.sameByte, Nat.le_of_lt hlt]
    · rw [getElem?_neg input pos (Nat.not_lt.mpr hge)]
      simp
  sets node rule := by
    have hlim : b.toUInt32 < byteLimit := UInt32.lt_iff_toNat_lt.mpr b.toNat_lt
    refine FirstSet.ext_has fun x => ?_
    rw [FirstSet.ofNode, FirstSet.ofNode, FirstSet.ofCharRange, if_pos hlim, FirstSet.has_range, UInt8.toUInt8_toUInt32]
    refine FirstSet.has_byte.trans ⟨fun h => ⟨b, h, UInt8.le_refl b, UInt8.le_refl b⟩, ?_⟩
    rintro ⟨c, rfl, h₁, h₂⟩
    rw [UInt8.le_antisymm h₁ h₂]

theorem sameLeaf_ofBytes {bs : List UInt8} {ignoreCase : Bool} (h : ignoreCase = true → Pattern.caseless bs = true) :
    (literal bs ignoreCase).SameLeaf (NumVal.bytesNode bs) := by
  have hcase : (literal bs ignoreCase).SameLeaf (literal bs false) := by
    cases ignoreCase with
    | true => exact sameLeaf_of_caseless (h rfl)
    | false => exact sameLeaf_literal bs false
  match bs with
  | [] | _ :: _ :: _ => exact hcase
  | [b] => exact hcase.trans (sameLeaf_single b)

end Node

namespace Grammar

section
variable {g g' : Grammar}

/-- A node of a grammar and one of what its text is read back as, which may be in brackets that the text has added. --/
def Reread (g g' : Grammar) (i j : NodeId) : Prop := ∃ p : Pattern RuleId, p.Clear g.ruleName ∧ g.Unfolds Eq p i ∧
  (g'.Unfolds g.Stands (p.reread g.ruleName) j ∨ g'.Unfolds g.Stands (.fold (p.reread g.ruleName)) j)

theorem reread_of_foldIf {p : Pattern RuleId} {b : Bool} {i j : NodeId} (hp : p.Clear g.ruleName) (hi : g.Unfolds Eq p i)
    (hj : g'.Unfolds g.Stands (.foldIf b (p.reread g.ruleName)) j) : Reread g g' i j := by
  cases b with
  | false => exact ⟨p, hp, hi, Or.inl hj⟩
  | true => exact ⟨p, hp, hi, Or.inr hj⟩

theorem reread_all (tight : Bool) : ∀ {ps : List (Pattern RuleId)} {ns ns' : List NodeId}, Pattern.ClearAll g.ruleName ps →
    g.UnfoldsAll Eq ps ns → g'.UnfoldsAll g.Stands (Pattern.rereads g.ruleName tight ps) ns' → Forall₂ (Reread g g') ns ns'
  | [], [], [], _, _, _ => .nil
  | _ :: _, _ :: _, _ :: _, ⟨hp, hps⟩, ⟨h, hs⟩, ⟨h', hs'⟩ => .cons (reread_of_foldIf hp h h') (reread_all tight hps hs hs')
  | [], [], _ :: _, _, _, h' => h'.elim
  | [], _ :: _, _, _, h, _ => h.elim
  | _ :: _, [], _, _, h, _ => h.elim
  | _ :: _, _ :: _, [], _, _, h' => h'.elim

theorem pairs_reread (hw : g.WellFormed) (room : Nat) {p : Pattern RuleId} {i j : NodeId} (hp : p.Clear g.ruleName)
    (hi : g.Unfolds Eq p i) (hj : g'.Unfolds g.Stands (p.reread g.ruleName) j) : Pairs room (Reread g g') g g' i j := by
  cases p with
  | literal bs ignoreCase =>
    rw [Pattern.reread] at hj
    cases hq : Pattern.quotable bs with
    | true =>
      rw [hq] at hj
      exact .similar hi hj (.leaf (Node.sameLeaf_literal bs ignoreCase))
    | false =>
      rw [hq] at hj
      have hcase : ignoreCase = true → Pattern.caseless bs = true := fun h => (hp h).resolve_left (by rw [hq]; exact nofun)
      have hj : g'.nodes[j]? = some (NumVal.bytesNode bs) := by
        match bs, hj with
        | [], hj | [_], hj | _ :: _ :: _, hj => exact hj
      exact .similar hi hj (.leaf (Node.sameLeaf_ofBytes hcase))
  | charRange lo hi' => exact .similar hi hj (.leaf (Node.sameLeaf_charRange lo hi'))
  | sequence ps =>
    obtain ⟨ns, hn, hns⟩ := hi
    obtain ⟨ns', hn', hns'⟩ := hj
    exact .similar hn hn' (.sequence (reread_all true hp.2 hns hns'))
  | choice ps =>
    obtain ⟨ns, hn, hns⟩ := hi
    obtain ⟨ns', hn', hns'⟩ := hj
    exact .similar hn hn' (.choice (reread_all false hp.2 hns hns'))
  | repetition p min max =>
    obtain ⟨n, hn, hnp⟩ := hi
    rw [Pattern.reread] at hj
    split at hj
    · rename_i hoption
      obtain ⟨rfl, rfl⟩ := hoption
      obtain ⟨n', hn', hnp'⟩ := hj
      exact .similar hn hn' (.repetition ⟨p, hp.2.2, hnp, Or.inl hnp'⟩ 0 fun _ _ => rfl)
    · rw [Pattern.repeated] at hj
      split at hj
      · rename_i honce
        obtain ⟨rfl, rfl⟩ := honce
        -- Once and no more is not made into a node, so the repetition wraps what its part is read back as.
        exact .left hn (.once n) (hw.parts i _ hn n List.mem_cons_self) (reread_of_foldIf hp.2.2 hnp hj)
      · obtain ⟨n', hn', hnp'⟩ := hj
        exact .similar hn hn' (.repetition (reread_of_foldIf hp.2.2 hnp hnp') min fun _ _ => rfl)
  | ruleRef r =>
    have hlt : r < g.slots.size := hw.refers hi
    obtain ⟨q, hn, rfl⟩ := hi
    obtain ⟨q', hn', hq'⟩ := hj
    obtain rfl : r = q' := Option.some.inj ((Binary.stands_ruleName hw hlt).symm.trans hq')
    exact .similar hn hn' (.ruleRef r)
  | fold p =>
    obtain ⟨n, hn, hnp⟩ := hi
    rw [Pattern.reread] at hj
    have hp : p.Clear g.ruleName := hp
    exact .left hn (.fold n) (hw.parts i _ hn n List.mem_cons_self) (reread_of_foldIf hp hnp hj)

end

section
variable {g : Grammar} (hw : g.WellFormed) (hc : g.isComplete = true)
include hw hc

/-- A clear grammar resembles what its text is read back as. --/
theorem Clear.resembles (h : g.Clear) (room : Nat) (name : String) :
    g.Resembles room (Reread g (g.reread name)) (g.reread name) where
  nodes i j hij := by
    obtain ⟨p, hp, hi, hj⟩ := hij
    rcases hj with hj | hj
    · exact pairs_reread hw room hp hi hj
    · -- Brackets that the text has added are taken off.
      obtain ⟨n, hn, hnp⟩ := hj
      have hlt := (wellFormed_reread hw hc name).parts j _ hn n List.mem_cons_self
      exact .right hn (.fold n) hlt ⟨p, hp, hi, Or.inl hnp⟩
  roots r := by
    obtain ⟨hnames, hroots⟩ := reread_spec hw hc name
    by_cases hlt : r < g.slots.size
    · obtain ⟨i, hi⟩ := Option.ne_none_iff_exists'.mp ((hw.complete hc).root?_ne_none hlt)
      obtain ⟨j, hj, hunf⟩ := hroots r i hi
      obtain ⟨s, hs, hsi⟩ := root?_eq_some_iff.mp hi
      have hclear := h.patterns _ (mem_rules.mpr ⟨s, hs, rfl, hsi⟩)
      exact Or.inr ⟨i, j, hi, hj, _, hclear, hw.unfolds_pattern (hw.roots r i hi), Or.inl hunf⟩
    · have hsize := congrArg Array.size hnames
      rw [Array.size_map, Array.size_map] at hsize
      have hle : g.slots.size ≤ r := Nat.le_of_not_lt hlt
      exact Or.inl ⟨root?_eq_none_of_le hle, root?_eq_none_of_le (hsize.le.trans hle)⟩

/-- The text of a clear grammar compiles to one with the same rules in the same places, and every match that comes to an
    end finds the same. --/
theorem Clear.run_render (h : g.Clear) {o : CompileOptions} (hbase : o.base = none)
    (hlimit : ∀ x ∈ g.rules, (g.pattern x.2.2).height ≤ o.nestingLimit) :
    ∃ c, compile g.render o = .ok c ∧ c.grammar.slots.map Slot.name = g.slots.map Slot.name ∧
      ∀ (r : RuleId) (observed : RuleId → Bool) (input : ByteArray) (start : Nat), r < g.slots.size →
        Match.Terminates ⟨g, input, observed⟩ r start →
        ∃ found, (Match.run ⟨g, input, observed⟩ r start).map Run.found = .ok found ∧
          (Match.run ⟨c.grammar, input, observed⟩ r start).map Run.found = .ok found := by
  refine ⟨_, h.compile_render hw hc hbase hlimit, (reread_spec hw hc o.name).1, fun r observed input start hr hterm => ?_⟩
  exact Match.run_resemble hw hc (h.resembles hw hc input.size o.name) hr (Nat.le_refl _) hterm

end

end Grammar

/-! ### Compiled grammars -/

/-- The text of a complete compiled grammar means what the grammar means, if its patterns are legible: it compiles
    without a base, to a grammar with the same rules in the same places, and every match that comes to an end finds the
    same there. The base must be proper, as every compiled grammar is. --/
theorem run_compile_render {source : String} {o : CompileOptions} {c : Compilation} (hc : compile source o = .ok c)
    (hb : ∀ base, o.base = some base → base.WellFormed ∧ base.Proper) (hcomplete : c.grammar.isComplete = true)
    (hlegible : ∀ x ∈ c.grammar.rules, (c.grammar.pattern x.2.2).legible = true) {o' : CompileOptions}
    (hbase : o'.base = none) (hlimit : ∀ x ∈ c.grammar.rules, (c.grammar.pattern x.2.2).height ≤ o'.nestingLimit) :
    ∃ c', compile c.grammar.render o' = .ok c' ∧ c'.grammar.slots.map Slot.name = c.grammar.slots.map Slot.name ∧
      ∀ (r : RuleId) (observed : RuleId → Bool) (input : ByteArray) (start : Nat), r < c.grammar.slots.size →
        Match.Terminates ⟨c.grammar, input, observed⟩ r start →
        ∃ found, (Match.run ⟨c.grammar, input, observed⟩ r start).map Run.found = .ok found ∧
          (Match.run ⟨c'.grammar, input, observed⟩ r start).map Run.found = .ok found := by
  have hw : c.grammar.WellFormed := wellFormed_compile hc fun base h => (hb base h).1
  have hproper : c.grammar.Proper := proper_compile hc fun base h => (hb base h).2
  exact Grammar.Clear.run_render hw hcomplete (hproper.clear hw hlegible) hbase hlimit

/-- Groups, an option, bounds and a list, over a rule of the base. --/
def nested : String := "r = 2(\"a\" / %s\"B\" s) [s] 1*%x30-39\nu = 1#2(s %xC3.A9)\n"

theorem run_compile_render_nested :
    let o : CompileOptions := { base := some Grammar.turns }
    let input : ByteArray := ⟨#[0x41, 0x61, 0x31]⟩
    ∃ c c', compile nested o = .ok c ∧ compile c.grammar.render {} = .ok c' ∧
      ∃ found, (Match.run ⟨c.grammar, input, fun _ => true⟩ 0 0).map Run.found = .ok found ∧
        (Match.run ⟨c'.grammar, input, fun _ => true⟩ 0 0).map Run.found = .ok found := by
  intro o input
  have hok : (compile nested o).toOption.isSome := by decide +kernel
  have hchecks : ∀ c ∈ (compile nested o).toOption, c.grammar.isComplete = true ∧
      (∀ x ∈ c.grammar.rules, (c.grammar.pattern x.2.2).legible = true) ∧
      (∀ x ∈ c.grammar.rules, (c.grammar.pattern x.2.2).height ≤ defaultNestingLimit) ∧
      0 < c.grammar.slots.size ∧ (Match.runWith ⟨c.grammar, input, fun _ => true⟩ 32 0 0).isSome := by decide +kernel
  have hb : ∀ base, o.base = some base → base.WellFormed ∧ base.Proper := by
    intro base h
    obtain rfl : Grammar.turns = base := Option.some.inj h
    exact ⟨Grammar.wellFormed_turns, (by decide +kernel)⟩
  have hbase : ({} : CompileOptions).base = none := rfl
  cases hc : compile nested o with
  | error ds =>
    rw [hc] at hok
    cases hok
  | ok c =>
    rw [hc] at hchecks
    obtain ⟨hcomplete, hlegible, hlimit, hsize, hterm⟩ := hchecks c rfl
    obtain ⟨c', hc', -, hrun⟩ := run_compile_render hc hb hcomplete hlegible hbase hlimit
    exact ⟨c, c', rfl, hc', hrun 0 (fun _ => true) input 0 hsize ⟨32, hterm⟩⟩

/-- Under other bounds, bounds are not legible: they run together. --/
example : (compile "r = 2(3\"a\")\n" {}).toOption.map (fun c => c.grammar.render) = some "r = 23\"a\"\n" := by
  decide +kernel

end Abnf
