import Abnf.Proofs.Compile.Definitions
import Abnf.Proofs.Compile.Validity
import Abnf.Proofs.Match.Alternatives

/-! The patterns of expressions. What an expression is made into depends on nothing that was made before: the names it
    refers to are declared in their order, and its node has always the same pattern (`exists_patterned`). The one node
    that is shared, for the blanks around commas, has one pattern too. -/

namespace Abnf

namespace Expr

/-- The name of a rule, for a reference. --/
def name? : Expr → Option String
  | .ref w => some w.text
  | _ => none

/-- The names that are referred to, in their order. --/
def names (ps : List Expr) : List String := ps.filterMap name?

theorem partsAll_append : ∀ es fs : List Expr, partsAll (es ++ fs) = partsAll es ++ partsAll fs
  | [], _ => rfl
  | e :: es, fs => by rw [List.cons_append, partsAll, partsAll, partsAll_append es fs, List.append_assoc]

theorem names_append (ps qs : List Expr) : names (ps ++ qs) = names ps ++ names qs := List.filterMap_append

theorem names_snoc (ps : List Expr) {e : Expr} (h : e.name? = none) : names (ps ++ [e]) = names ps := by
  rw [names_append, names, names, List.filterMap_cons_none h, List.filterMap_nil, List.append_nil]

end Expr

namespace Assembly

open State

/-- The blanks that may stand around a comma. --/
def spacing : Pattern String := .repetition (.choice [.charRange 0x20 0x20, .charRange 0x09 0x09]) 0 none

/-- A node of a state has a pattern. --/
def State.Has (s : State) (p : Pattern String) (i : NodeId) : Prop := s.grammar.Unfolds s.grammar.Stands p i

/-- The node for blanks is one, if there is any. --/
def State.Spaced (s : State) : Prop := ∀ i, s.blanks = some i → s.Has spacing i

/-- Nodes are made, and names declared that are referred to. --/
structure State.Refers (s : State) (names : List String) (s' : State) : Prop extends s.Steps s' where
  names : s'.grammar.slots.map Slot.name = (s.grammar.declareAll names).slots.map Slot.name
  spaced : s'.Spaced

/-- What becomes of a state in which a node of some pattern is made. --/
structure Draws (s : State) (names : List String) (p : Pattern String) (out : NodeId × State) : Prop where
  refers : s.Refers names out.2
  has : out.2.Has p out.1

section
variable {s s' s'' : State} {names others : List String} {p q : Pattern String} {i j : NodeId} {out : NodeId × State}

theorem State.Has.grow (h : s.Has p i) (hg : s.grammar.Grows s'.grammar) : s'.Has p i :=
  Grammar.Unfolds.mono hg.nodes hg.stands h

theorem State.Spaced.grow (h : s.Spaced) (hg : s.grammar.Grows s'.grammar) (hb : s'.blanks = s.blanks) : s'.Spaced :=
  fun i hi => (h i (hb ▸ hi)).grow hg

namespace State.Refers

theorem refl (h : s.Spaced) : s.Refers [] s := ⟨.refl s, rfl, h⟩

theorem trans (h : s.Refers names s') (h' : s'.Refers others s'') : s.Refers (names ++ others) s'' where
  toSteps := h.toSteps.trans h'.toSteps
  names := by
    rw [h'.names, Grammar.declareAll_append]
    exact Grammar.names_declareAll_congr others h.names
  spaced := h'.spaced

end State.Refers

theorem Draws.after (h : Draws s' others p out) (hs : s.Refers names s') : Draws s (names ++ others) p out :=
  ⟨hs.trans h.refers, h.has⟩

/-- A node is added that has a pattern in every grammar that goes on from here. --/
theorem draws_add (hs : s.Spaced) {n : Node} (hp : ∀ (g : Grammar) (i : NodeId), s.grammar.Grows g →
    g.nodes[i]? = some n → g.Unfolds g.Stands p i) : Draws s [] p (s.add n) := by
  have hgrows : s.grammar.Grows (s.add n).2.grammar := Grammar.grows_addNode s.grammar n
  exact ⟨⟨⟨hgrows, fun _ => rfl, rfl, rfl, id⟩, rfl, hs.grow hgrows rfl⟩, hp _ _ hgrows (Grammar.getElem?_addNode_self s.grammar n)⟩

theorem draws_literal (hs : s.Spaced) (bs : List UInt8) (ignoreCase : Bool) :
    Draws s [] (.literal bs ignoreCase) (s.add (.literal bs ignoreCase)) := draws_add hs fun _ _ _ hi => hi

theorem draws_charRange (hs : s.Spaced) (lo hi : UInt32) : Draws s [] (.charRange lo hi) (s.add (.charRange lo hi)) :=
  draws_add hs fun _ _ _ hi => hi

theorem draws_repetition (hs : s.Spaced) (h : s.Has p i) (min : UInt32) (max : Option UInt32) :
    Draws s [] (.repetition p min max) (s.add (.repetition i min max)) :=
  draws_add hs fun _ _ hg hi => ⟨i, hi, Grammar.Unfolds.mono hg.nodes hg.stands h⟩

theorem draws_fold (hs : s.Spaced) (h : s.Has p i) : Draws s [] (.fold p) (s.add (.fold i)) :=
  draws_add hs fun _ _ hg hi => ⟨i, hi, Grammar.Unfolds.mono hg.nodes hg.stands h⟩

/-- Nodes of a state have patterns. --/
def State.HasAll (s : State) (ps : List (Pattern String)) (is : List NodeId) : Prop :=
  s.grammar.UnfoldsAll s.grammar.Stands ps is

variable {ps : List (Pattern String)} {is : List NodeId}

theorem State.HasAll.nil : s.HasAll [] [] := trivial

theorem State.HasAll.cons (h : s.Has p i) (hs : s.HasAll ps is) : s.HasAll (p :: ps) (i :: is) := ⟨h, hs⟩

theorem State.HasAll.append {qs : List (Pattern String)} {js : List NodeId} : ∀ {ps : List (Pattern String)} {is : List NodeId},
    s.HasAll ps is → s.HasAll qs js → s.HasAll (ps ++ qs) (is ++ js)
  | [], [], _, h' => h'
  | _ :: _, _ :: _, ⟨h, hs⟩, h' => .cons h (append hs h')

theorem State.HasAll.lt_size : ∀ {ps : List (Pattern String)} {is : List NodeId}, s.HasAll ps is →
    ∀ i ∈ is, i < s.grammar.nodes.size
  | [], [], _ => nofun
  | _ :: _, _ :: _, ⟨h, hs⟩ => List.forall_mem_cons.mpr ⟨Grammar.Unfolds.lt_size h, lt_size hs⟩

theorem State.HasAll.grow (h : s.HasAll ps is) (hg : s.grammar.Grows s'.grammar) : s'.HasAll ps is :=
  Grammar.UnfoldsAll.mono hg.nodes hg.stands h

theorem draws_sequence (hs : s.Spaced) (h : s.HasAll ps is) : Draws s [] (.sequence ps) (s.add (.sequence is)) :=
  draws_add hs fun _ _ hg hi => ⟨is, hi, Grammar.UnfoldsAll.mono hg.nodes hg.stands h⟩

theorem draws_choice (hs : s.Spaced) (h : s.HasAll ps is) : Draws s [] (.choice ps) (s.add (.choice is)) :=
  draws_add hs fun _ _ hg hi => ⟨is, hi, Grammar.UnfoldsAll.mono hg.nodes hg.stands h⟩

/-! ### Leaves and repeats -/

theorem draws_reference (hs : s.Spaced) (w : Word) : Draws s [w.text] (.ruleRef w.text) (reference w s) := by
  have hgrows : s.grammar.Grows (reference w s).2.grammar := Grammar.grows_addRef s.grammar w.text
  have hsteps : s.Steps (reference w s).2 :=
    ⟨hgrows, Grammar.root?_declare s.grammar w.text, rfl, rfl, id⟩
  refine ⟨⟨hsteps, rfl, hs.grow hgrows rfl⟩, _, Grammar.getElem?_addNode_self _ _, ?_⟩
  exact Grammar.find?_declare s.grammar w.text

/-- What is told of leaves a state with the same nodes. --/
theorem Draws.told {d : Diagnostic} (h : Draws (s.tell d) names p out) : Draws s names p out :=
  ⟨⟨(steps_tell s d).trans h.refers.toSteps, h.refers.names, h.refers.spaced⟩, h.has⟩

theorem exists_draws_numeric (w : Word) : ∃ p, ∀ s : State, s.Spaced → Draws s [] p (numeric w s) := by
  unfold numeric
  cases hn : NumVal.node w.text with
  | ok n =>
    rcases NumVal.leaf_of_node hn .empty with ⟨bs, rfl, -⟩ | ⟨lo, hi, rfl, -⟩
    · exact ⟨_, fun s hs => draws_literal hs bs false⟩
    · exact ⟨_, fun s hs => draws_charRange hs lo hi⟩
  | error kind => exact ⟨_, fun s hs => (draws_literal (s := s.tell _) hs [] false).told⟩

theorem draws_blanks (hs : s.Spaced) : Draws s [] spacing (blanks s) := by
  unfold blanks
  split
  · exact ⟨.refl hs, hs _ ‹_›⟩
  · have space := draws_charRange hs 0x20 0x20
    have tab := draws_charRange space.refers.spaced 0x09 0x09
    have either := draws_choice tab.refers.spaced (.cons (space.has.grow tab.refers.grows) (.cons tab.has .nil))
    have many := draws_repetition either.refers.spaced either.has 0 none
    have hrefers := space.refers.trans (tab.refers.trans (either.refers.trans many.refers))
    -- The node is kept for the lists to come.
    have hkept := many.has
    refine ⟨⟨⟨hrefers.grows, hrefers.roots, hrefers.definitions, hrefers.extensions, hrefers.clean⟩, hrefers.names, ?_⟩,
      hkept⟩
    rintro i ⟨⟩
    exact hkept

/-- A list that has an element. --/
def listed (b : Repeat.Bounds) (p : Pattern String) : Pattern String :=
  .sequence [p, .repetition (.fold (.sequence [spacing, .literal ",".toByteArray.data.toList true, spacing, p]))
    (if b.min = 0 then 0 else b.min - 1) (b.max.map (· - 1))]

theorem exists_draws_listOf (b : Repeat.Bounds) (p : Pattern String) :
    ∃ q, ∀ {s : State} {i : NodeId}, s.Spaced → s.Has p i → Draws s [] q (listOf i b s) := by
  have hend : ∀ {s : State} {out : NodeId × State}, Draws s [] (listed b p) out →
      Draws s [] (if b.min = 0 then .repetition (listed b p) 0 (some 1) else listed b p)
        (if b.min = 0 then out.2.add (.optional out.1) else out) := by
    intro s out h
    split
    · exact (draws_repetition h.refers.spaced h.has 0 (some 1)).after h.refers
    · exact h
  unfold listOf
  split
  · exact ⟨_, fun hs _ => draws_literal hs [] false⟩
  · refine ⟨if b.min = 0 then .repetition (listed b p) 0 (some 1) else listed b p, fun {s i} hs h => ?_⟩
    have ows := draws_blanks hs
    have comma := draws_literal ows.refers.spaced ",".toByteArray.data.toList true
    have hows := ows.has.grow comma.refers.grows
    have hi := (h.grow ows.refers.grows).grow comma.refers.grows
    have unit := draws_sequence comma.refers.spaced (.cons hows (.cons comma.has (.cons hows (.cons hi .nil))))
    have folded := draws_fold unit.refers.spaced unit.has
    have tail := draws_repetition folded.refers.spaced folded.has (if b.min = 0 then 0 else b.min - 1) (b.max.map (· - 1))
    have hi := ((hi.grow unit.refers.grows).grow folded.refers.grows).grow tail.refers.grows
    have whole := draws_sequence tail.refers.spaced (.cons hi (.cons tail.has .nil))
    exact hend (whole.after
      (ows.refers.trans (comma.refers.trans (unit.refers.trans (folded.refers.trans tail.refers)))))

theorem exists_draws_repeated (count : Option Repeat) (p : Pattern String) :
    ∃ q, ∀ {s : State} {i : NodeId}, s.Spaced → s.Has p i → Draws s [] q (repeated i count s) := by
  have hsame : ∀ {s : State} {i : NodeId}, s.Spaced → s.Has p i → Draws s [] p (i, s) := fun hs h => ⟨.refl hs, h⟩
  unfold repeated
  cases count with
  | none => exact ⟨p, hsame⟩
  | some r =>
    dsimp only
    cases r.bounds with
    | error d => exact ⟨p, fun {s _} hs h => (hsame (s := s.tell d) hs h).told⟩
    | ok b =>
      dsimp only
      split
      · exact exists_draws_listOf b p
      · split
        · exact ⟨p, hsame⟩
        · exact ⟨_, fun hs h => draws_repetition hs h b.min b.max⟩

/-! ### Expressions -/

/-- One node stands for itself; more make a node of all of them. --/
theorem exists_draws_collapse {node : List NodeId → Node} {pattern : List (Pattern String) → Pattern String}
    (hnode : ∀ {s : State} {ps : List (Pattern String)} {is : List NodeId}, s.Spaced → s.HasAll ps is →
      Draws s [] (pattern ps) (s.add (node is))) (ps : List (Pattern String)) :
    ∃ q, ∀ {s : State} {out : List NodeId × State}, s.Refers names out.2 → out.2.HasAll ps out.1 →
      Draws s names q (match out with | ([i], s) => (i, s) | (is, s) => s.add (node is)) := by
  have hseveral : ∀ {s : State} {out : List NodeId × State}, s.Refers names out.2 → out.2.HasAll ps out.1 →
      Draws s names (pattern ps) (out.2.add (node out.1)) := by
    intro s out hrefers hall
    have h := (hnode hrefers.spaced hall).after hrefers
    rwa [List.append_nil] at h
  rcases ps with _ | ⟨p, _ | ⟨p', ps⟩⟩
  · refine ⟨pattern [], ?_⟩
    rintro s ⟨_ | ⟨i, is⟩, s'⟩ hrefers hall
    · exact hseveral hrefers hall
    · cases hall
  · refine ⟨p, ?_⟩
    rintro s ⟨_ | ⟨i, _ | ⟨j, is⟩⟩, s'⟩ hrefers hall
    · cases hall
    · exact ⟨hrefers, hall.1⟩
    · cases hall.2
  · refine ⟨pattern (p :: p' :: ps), ?_⟩
    rintro s ⟨_ | ⟨i, _ | ⟨j, is⟩⟩, s'⟩ hrefers hall
    · cases hall
    · cases hall.2
    · exact hseveral hrefers hall

/-- An expression around another refers to what that one refers to. --/
theorem Draws.around {e : Expr} {ps : List Expr} (h : Draws s (Expr.names ps ++ []) p out) (he : e.name? = none) :
    Draws s (Expr.names (ps ++ [e])) p out := by
  rw [Expr.names_snoc ps he]
  rwa [List.append_nil] at h

/-- Whatever was made before, expressions declare the names that they refer to, and their nodes have these patterns. --/
def Patterned (es : List Expr) (ps : List (Pattern String)) : Prop :=
  ∀ {s : State}, s.Spaced → s.Refers (Expr.names (Expr.partsAll es)) (exprs es s).2 ∧ (exprs es s).2.HasAll ps (exprs es s).1

mutual

/-- The node of an expression has the same pattern whatever was made before. --/
theorem exists_draws : ∀ e : Expr, ∃ p, ∀ {s : State}, s.Spaced → Draws s (Expr.names e.parts) p (expr e s)
  | .alternation span es => by
    obtain ⟨ps, h⟩ := exists_patterned es
    obtain ⟨q, hq⟩ := exists_draws_collapse draws_choice ps
    refine ⟨q, fun hs => ?_⟩
    rw [Expr.parts, Expr.names_snoc _ rfl]
    exact hq (h hs).1 (h hs).2
  | .concatenation span es => by
    obtain ⟨ps, h⟩ := exists_patterned es
    obtain ⟨q, hq⟩ := exists_draws_collapse draws_sequence ps
    refine ⟨q, fun hs => ?_⟩
    rw [Expr.parts, Expr.names_snoc _ rfl]
    exact hq (h hs).1 (h hs).2
  | .repetition _ _ none => ⟨_, fun hs => draws_literal hs [] false⟩
  | .repetition span count (some e) => by
    obtain ⟨p, hp⟩ := exists_draws e
    obtain ⟨q, hq⟩ := exists_draws_repeated count p
    exact ⟨q, fun hs => ((hq (hp hs).refers.spaced (hp hs).has).after (hp hs).refers).around rfl⟩
  | .ref w => ⟨_, fun hs => draws_reference hs w⟩
  | .str w => ⟨_, fun hs => draws_literal hs _ _⟩
  | .num w => by
    obtain ⟨p, hp⟩ := exists_draws_numeric w
    exact ⟨p, fun hs => hp _ hs⟩
  | .prose w => ⟨_, fun {s} hs => (draws_literal (s := s.tell _) hs [] false).told⟩
  | .group _ none => ⟨_, fun hs => draws_literal hs [] false⟩
  | .group span (some e) => by
    obtain ⟨p, hp⟩ := exists_draws e
    refine ⟨if keepsBrackets e then .fold p else p, fun {s} hs => ?_⟩
    rw [expr, Expr.parts, Expr.names_snoc _ rfl]
    dsimp only
    split
    · have h := (draws_fold (hp hs).refers.spaced (hp hs).has).after (hp hs).refers
      rwa [List.append_nil] at h
    · exact hp hs
  | .optional _ none => by
    refine ⟨.repetition (.literal [] false) 0 (some 1), fun hs => ?_⟩
    have h := draws_literal hs [] false
    exact (draws_repetition h.refers.spaced h.has 0 (some 1)).after h.refers
  | .optional span (some e) => by
    obtain ⟨p, hp⟩ := exists_draws e
    exact ⟨_, fun hs => ((draws_repetition (hp hs).refers.spaced (hp hs).has 0 (some 1)).after (hp hs).refers).around rfl⟩

theorem exists_patterned : ∀ es : List Expr, ∃ ps, Patterned es ps
  | [] => ⟨[], fun hs => ⟨.refl hs, .nil⟩⟩
  | e :: es => by
    obtain ⟨p, hp⟩ := exists_draws e
    obtain ⟨ps, hps⟩ := exists_patterned es
    refine ⟨p :: ps, fun hs => ?_⟩
    have h := hp hs
    obtain ⟨hrefers, hall⟩ := hps h.refers.spaced
    rw [exprs, Expr.partsAll, Expr.names_append]
    exact ⟨h.refers.trans hrefers, .cons (h.has.grow hrefers.grows) hall⟩

end

/-! ### Alternatives -/

theorem exprs_append : ∀ (es fs : List Expr) (s : State), exprs (es ++ fs) s =
    ((exprs es s).1 ++ (exprs fs (exprs es s).2).1, (exprs fs (exprs es s).2).2)
  | [], _, _ => rfl
  | e :: es, fs, s => by
    rw [List.cons_append, exprs, exprs]
    dsimp only
    rw [exprs_append es fs, List.cons_append]

theorem length_exprs (es : List Expr) (s : State) : (exprs es s).1.length = es.length := by
  induction es generalizing s with
  | nil => rfl
  | cons e es ih => exact congrArg Nat.succ (ih (expr e s).2)

theorem Patterned.append {es fs : List Expr} {qs : List (Pattern String)} (h : Patterned es ps) (h' : Patterned fs qs) :
    Patterned (es ++ fs) (ps ++ qs) := by
  intro s hs
  obtain ⟨hrefers, hall⟩ := h hs
  obtain ⟨hrefers', hall'⟩ := h' hrefers.spaced
  rw [exprs_append, Expr.partsAll_append, Expr.names_append]
  exact ⟨hrefers.trans hrefers', .append (hall.grow hrefers'.grows) hall'⟩

/-- The node of alternatives has theirs standing open in it. --/
structure Forks (s : State) (names : List String) (ps : List (Pattern String)) (out : NodeId × State) : Prop where
  refers : s.Refers names out.2
  opens : ∃ is, out.2.HasAll ps is ∧ out.2.grammar.Opens [out.1] is

theorem Patterned.forks {es : List Expr} (h : Patterned es ps) (span : Span) (hs : s.Spaced) :
    Forks s (Expr.names (Expr.partsAll es)) ps (expr (.alternation span es) s) := by
  obtain ⟨hrefers, hall⟩ := h hs
  have hchoice := (draws_choice hrefers.spaced hall).refers
  have hopens : ((exprs es s).2.add (.choice (exprs es s).1)).2.grammar.Opens
      [((exprs es s).2.add (.choice (exprs es s).1)).1] (exprs es s).1 := by
    have h := Grammar.Opens.choice (Grammar.getElem?_addNode_self (exprs es s).2.grammar (.choice (exprs es s).1)) .nil
    rwa [List.append_nil] at h
  have hseveral : Forks s (Expr.names (Expr.partsAll es)) ps ((exprs es s).2.add (.choice (exprs es s).1)) := by
    refine ⟨?_, _, hall.grow hchoice.grows, hopens⟩
    have := hrefers.trans hchoice
    rwa [List.append_nil] at this
  rw [expr]
  generalize exprs es s = out at hrefers hall hseveral ⊢
  obtain ⟨is, s'⟩ := out
  match is with
  | [i] => exact ⟨hrefers, _, hall, .keep i .nil⟩
  | [] | _ :: _ :: _ => exact hseveral

/-- At least two alternatives are made into a choice among them. --/
theorem Patterned.draws {es : List Expr} (h : Patterned es ps) (span : Span) (hmany : 2 ≤ es.length) (hs : s.Spaced) :
    Draws s (Expr.names (Expr.partsAll es)) (.choice ps) (expr (.alternation span es) s) := by
  obtain ⟨hrefers, hall⟩ := h hs
  have hseveral := (draws_choice hrefers.spaced hall).after hrefers
  rw [List.append_nil] at hseveral
  have hlength := length_exprs es s
  rw [expr]
  generalize exprs es s = out at hseveral hlength ⊢
  obtain ⟨is, s'⟩ := out
  match is with
  | [] | [_] =>
    simp at hlength
    omega
  | _ :: _ :: _ => exact hseveral

end
end Assembly
end Abnf
