import Abnf.Proofs.Grammar.Naming

/-! Grammars under construction. A grammar is built by operations that are given ids of it and hand out new ones; one
    that is included was built by operations of its own. Each operation keeps the grammar well-formed if its ids are
    there, and leaves in place what is there (`Operation.sound_perform`). So a run of operations does both
    (`performAll_built`): names stay distinct, parts stay before their nodes, and first sets are those of the
    grammar that they are found in. -/

namespace Abnf.Grammar

/-! ### Operations -/

/-- An id that a grammar hands out. --/
inductive Handle where
  | node (i : NodeId)
  | rule (r : RuleId)
  deriving DecidableEq, Repr

/-- Whether a grammar has what an id stands for. --/
def has (g : Grammar) : Handle → Bool
  | .node i => i < g.nodes.size
  | .rule r => r < g.slots.size

/-- An operation on a grammar under construction. --/
inductive Operation where
  | setName (name : String)
  | addNode (n : Node)
  | addRef (name : String)
  | declare (name : String)
  | define (name : String) (root : NodeId)
  | extend (name : String) (alternative : NodeId)
  /-- Include a grammar that was begun under a name and built by operations. --/
  | includeBuilt (name : String) (operations : List Operation)
  | optimize

/-- The ids that an operation is given. --/
def Operation.uses : Operation → List Handle
  | addNode n => n.children.map .node ++ n.rules.map .rule
  | define _ i | extend _ i => [.node i]
  | setName _ | addRef _ | declare _ | includeBuilt .. | optimize => []

mutual

/-- The id that an operation hands out, if any, and the grammar after it. A rule without a definition cannot be
    extended, and nothing changes then. --/
def Operation.perform : Operation → Grammar → Option Handle × Grammar
  | .setName name, g => (none, g.setName name)
  | .addNode n, g => (some (.node (g.addNode n).1), (g.addNode n).2)
  | .addRef name, g => (some (.node (g.addRef name).1), (g.addRef name).2)
  | .declare name, g => (some (.rule (g.declare name).1), (g.declare name).2)
  | .define name root, g => (some (.rule (g.define name root).1), (g.define name root).2)
  | .extend name alternative, g =>
    match g.extend name alternative with
    | .ok (r, extended) => (some (.rule r), extended)
    | .error _ => (none, g)
  | .includeBuilt name operations, g => (none, g.includeBase (performAll operations (Grammar.empty name)))
  | .optimize, g => (none, g.optimize)

/-- The grammar after a run of operations. --/
def performAll : List Operation → Grammar → Grammar
  | [], g => g
  | op :: ops, g => performAll ops (op.perform g).2

end

mutual

/-- Whether an operation is given ids of the grammar. A grammar that it includes has to be built with its own. --/
def Operation.fits : Operation → Grammar → Bool
  | .includeBuilt name operations, _ => fitAll operations (Grammar.empty name)
  | op, g => op.uses.all g.has

/-- Whether each operation of a run is given ids of the grammar that it finds. --/
def fitAll : List Operation → Grammar → Bool
  | [], _ => true
  | op :: ops, g => op.fits g && fitAll ops (op.perform g).2

end

theorem performAll_append : ∀ (before after : List Operation) (g : Grammar),
    performAll (before ++ after) g = performAll after (performAll before g)
  | [], _, _ => rfl
  | op :: before, after, g => by
    rw [List.cons_append, performAll, performAll, performAll_append before after]

theorem fitAll_append : ∀ (before after : List Operation) (g : Grammar),
    fitAll (before ++ after) g = (fitAll before g && fitAll after (performAll before g))
  | [], _, _ => rfl
  | op :: before, after, g => by
    rw [List.cons_append, fitAll, fitAll, performAll, fitAll_append before after, Bool.and_assoc]

/-! ### What operations keep -/

/-- What is there stays: nodes and names in their places, and the definitions of rules. --/
structure Keeps (g g' : Grammar) : Prop where
  grows : g.Grows g'
  defined : ∀ r, (g.root? r).isSome → (g'.root? r).isSome

namespace Keeps

variable {g g' g'' : Grammar}

theorem refl (g : Grammar) : g.Keeps g := ⟨.refl g, fun _ h => h⟩

theorem trans (h : g.Keeps g') (h' : g'.Keeps g'') : g.Keeps g'' :=
  ⟨h.grows.trans h'.grows, fun r hr => h'.defined r (h.defined r hr)⟩

/-- Grammars that differ in nothing but their name and first sets. --/
theorem of_eq (hn : g'.nodes = g.nodes) (hs : g'.slots = g.slots) : g.Keeps g' where
  grows := .of_eq hn hs
  defined r h := by rwa [root?, hs]

theorem has (h : g.Keeps g') {x : Handle} (hx : g.has x = true) : g'.has x = true := by
  cases x with
  | node i => exact decide_eq_true (Nat.lt_of_lt_of_le (of_decide_eq_true hx) h.grows.size_nodes_le)
  | rule r => exact decide_eq_true (Nat.lt_of_lt_of_le (of_decide_eq_true hx) h.grows.size_slots_le)

end Keeps

section
variable (g : Grammar)

theorem keeps_addNode (n : Node) : g.Keeps (g.addNode n).2 := ⟨grows_addNode g n, fun _ h => h⟩

theorem keeps_declare (name : String) : g.Keeps (g.declare name).2 :=
  ⟨grows_declare g name, fun r h => by rwa [root?_declare]⟩

theorem keeps_addRef (name : String) : g.Keeps (g.addRef name).2 := (keeps_declare g name).trans (keeps_addNode _ _)

theorem keeps_setRoot (r : RuleId) (root : NodeId) : g.Keeps (g.setRoot r root) := by
  refine ⟨grows_setRoot g r root, fun q h => ?_⟩
  rw [root?_setRoot]
  split
  · rfl
  · exact h

theorem keeps_define (name : String) (root : NodeId) : g.Keeps (g.define name root).2 :=
  (keeps_declare g name).trans ((keeps_setRoot _ _ _).trans (.of_eq rfl rfl))

theorem keeps_extend {name : String} {alternative : NodeId} {r : RuleId} {g' : Grammar}
    (h : g.extend name alternative = .ok (r, g')) : g.Keeps g' := by
  obtain ⟨-, root, -, rfl⟩ := extend_eq_ok h
  exact (keeps_addNode g _).trans (keeps_setRoot _ _ _)

theorem keeps_includeBase (base : Grammar) : g.Keeps (g.includeBase base) := by
  refine ⟨grows_includeBase g base, fun r h => ?_⟩
  obtain ⟨i, hi⟩ := Option.isSome_iff_exists.mp h
  have hroot : (g.withNames base).root? r = some i := (root?_declareAll r _ g).trans hi
  obtain ⟨s, hs, hsi⟩ := root?_eq_some_iff.mp hroot
  rw [root?_includeBase hs, hsi]
  rfl

end

/-! ### One operation, and runs -/

/-- What an operation makes of a grammar: one that is well-formed and keeps what was there, and that has the id that
    is handed out. --/
structure Sound (g : Grammar) (result : Option Handle × Grammar) : Prop where
  wellFormed : result.2.WellFormed
  keeps : g.Keeps result.2
  handed : ∀ x, result.1 = some x → result.2.has x = true

theorem Operation.has_of_fits {op : Operation} {g : Grammar} (h : op.fits g = true) : ∀ x ∈ op.uses, g.has x = true := by
  cases op with
  | includeBuilt => exact List.forall_mem_nil _
  | setName | addNode | addRef | declare | define | extend | optimize =>
    rw [Operation.fits, List.all_eq_true] at h
    · exact h
    · exact nofun

theorem has_declare (g : Grammar) (name : String) : (g.declare name).2.has (.rule (g.declare name).1) = true :=
  decide_eq_true (lt_size_of_find? (find?_declare g name))

mutual

theorem Operation.sound_perform : ∀ (op : Operation) {g : Grammar}, g.WellFormed → op.fits g = true →
    g.Sound (op.perform g)
  | .setName name, g, hw, _ => ⟨hw.setName name, .of_eq rfl rfl, nofun⟩
  | .addNode n, g, hw, h => by
    have huses := Operation.has_of_fits h
    rw [Operation.uses, List.forall_mem_append, List.forall_mem_map, List.forall_mem_map] at huses
    obtain ⟨hparts, hrules⟩ := huses
    refine ⟨hw.addNode (fun c hc => of_decide_eq_true (hparts c hc)) fun r hr => of_decide_eq_true (hrules r hr),
      keeps_addNode g n, ?_⟩
    rintro _ ⟨⟩
    exact decide_eq_true (lt_size_addNode g n)
  | .addRef name, g, hw, _ => by
    refine ⟨hw.addRef name, keeps_addRef g name, ?_⟩
    rintro _ ⟨⟩
    exact decide_eq_true (lt_size_addNode _ _)
  | .declare name, g, hw, _ => by
    refine ⟨hw.declare name, keeps_declare g name, ?_⟩
    rintro _ ⟨⟩
    exact has_declare g name
  | .define name root, g, hw, h => by
    have hroot := Operation.has_of_fits h (.node root) List.mem_cons_self
    refine ⟨hw.define name (of_decide_eq_true hroot), keeps_define g name root, ?_⟩
    rintro _ ⟨⟩
    exact (keeps_setRoot (g.declare name).2 _ root).has (has_declare g name)
  | .extend name alternative, g, hw, h => by
    have halt := Operation.has_of_fits h (.node alternative) List.mem_cons_self
    rw [Operation.perform]
    split
    · rename_i r g' hext
      have hkeeps := keeps_extend g hext
      obtain ⟨hfind, -⟩ := extend_eq_ok hext
      refine ⟨hw.extend (of_decide_eq_true halt) hext, hkeeps, ?_⟩
      rintro _ ⟨⟩
      exact hkeeps.has (x := .rule r) (decide_eq_true (lt_size_of_find? hfind))
    · exact ⟨hw, .refl g, nofun⟩
  | .includeBuilt name ops, g, hw, h => by
    have hbase := (sound_performAll ops (WellFormed.empty name) h).1
    exact ⟨hw.includeBase hbase, keeps_includeBase g _, nofun⟩
  | .optimize, g, hw, _ => ⟨hw.optimize, .of_eq rfl rfl, nofun⟩

theorem sound_performAll : ∀ (ops : List Operation) {g : Grammar}, g.WellFormed → fitAll ops g = true →
    (performAll ops g).WellFormed ∧ g.Keeps (performAll ops g)
  | [], g, hw, _ => ⟨hw, .refl g⟩
  | op :: ops, g, hw, h => by
    rw [fitAll, Bool.and_eq_true] at h
    obtain ⟨hop, hops⟩ := h
    have hone := op.sound_perform hw hop
    obtain ⟨hall, hkeeps⟩ := sound_performAll ops hone.wellFormed hops
    exact ⟨hall, hone.keeps.trans hkeeps⟩

end

/-- The invariant of grammars under construction. However a grammar is built by operations that are given ids of it, its
    names are distinct and each is found at its place, parts stand before their nodes, roots and the rules that nodes refer
    to are there, and first sets, if there are any, are those of the grammar as it is. From any point of the construction
    on, nodes and names stay in their places, rules that are defined stay defined, and ids stay good, the one that the next
    operation hands out among them. --/
theorem performAll_built {name : String} {before after : List Operation}
    (h : fitAll (before ++ after) (Grammar.empty name) = true) :
    let e := performAll before (Grammar.empty name)
    let g := performAll (before ++ after) (Grammar.empty name)
    ((∀ (r q : RuleId) (s t : Slot), g.slots[r]? = some s → g.slots[q]? = some t → sameName s.name t.name = true → r = q) ∧
        (∀ r < g.slots.size, g.find? (g.ruleName r) = some r) ∧
        (∀ (i : NodeId) (n : Node), g.nodes[i]? = some n → (∀ c ∈ n.children, c < i) ∧ ∀ r ∈ n.rules, r < g.slots.size) ∧
        (∀ r i, g.root? r = some i → i < g.nodes.size) ∧
        ∀ sets, g.firstSets = some sets → sets = g.computeFirstSets) ∧
      (∀ (i : NodeId) (n : Node), e.nodes[i]? = some n → g.nodes[i]? = some n) ∧
      (∀ (r : RuleId) (s : Slot), e.slots[r]? = some s →
        ∃ t, g.slots[r]? = some t ∧ t.name = s.name ∧ (s.root.isSome → t.root.isSome)) ∧
      (∀ x, e.has x = true → g.has x = true) ∧
      ∀ op ops, after = op :: ops → ∀ x, (op.perform e).1 = some x → g.has x = true := by
  intro e g
  have hg : g = performAll after e := performAll_append before after _
  rw [fitAll_append, Bool.and_eq_true] at h
  obtain ⟨hbefore, hafter⟩ := h
  have he : e.WellFormed := (sound_performAll before (WellFormed.empty name) hbefore).1
  obtain ⟨hw, hkeeps⟩ := sound_performAll after he hafter
  rw [← hg] at hw hkeeps
  refine ⟨⟨hw.distinct, fun r hr => ?_, fun i n hn => ⟨hw.parts i n hn, hw.referred n (Array.mem_of_getElem? hn)⟩,
    hw.roots, hw.sets⟩, hkeeps.grows.nodes, fun r s hs => ?_, fun x => hkeeps.has, ?_⟩
  · have hs := Array.getElem?_eq_getElem hr
    rw [ruleName_eq hs]
    exact hw.distinct.find?_name hs
  · obtain ⟨t, ht, hname⟩ := hkeeps.grows.names r s hs
    refine ⟨t, ht, hname, fun hroot => ?_⟩
    have hdefined := hkeeps.defined r
    rw [root?, root?, hs, ht] at hdefined
    exact hdefined hroot
  · rintro op ops rfl x hx
    rw [fitAll, Bool.and_eq_true] at hafter
    have hone := op.sound_perform he hafter.1
    rw [hg]
    exact (sound_performAll ops hone.wellFormed hafter.2).2.has (hone.handed x hx)

/-- A rule is defined and the grammar optimized. A name that is declared then leaves the first sets as they are. --/
def opening : List Operation := [.addNode (.literal [0x61] true), .define "R" 0, .optimize, .declare "x"]

/-- The name is referred to in other letters, and a grammar is included that defines it and adds an alternative. --/
def sequel : List Operation := [.addRef "X",
  .includeBuilt "base" [.addNode (.literal [0x62] false), .define "x" 0, .extend "X" 0], .optimize]

theorem performAll_built_sequel :
    fitAll (opening ++ []) (Grammar.empty "g") = true ∧ fitAll (opening ++ sequel) (Grammar.empty "g") = true ∧
      (∃ sets, (performAll opening (Grammar.empty "g")).firstSets = some sets ∧
        sets = (performAll opening (Grammar.empty "g")).computeFirstSets) ∧
      (∃ sets, (performAll (opening ++ sequel) (Grammar.empty "g")).firstSets = some sets ∧
        sets = (performAll (opening ++ sequel) (Grammar.empty "g")).computeFirstSets) ∧
      (performAll (opening ++ sequel) (Grammar.empty "g")).nodes[0]? = some (.literal [0x61] true) ∧
      (performAll (opening ++ sequel) (Grammar.empty "g")).has
        (.node ((performAll opening (Grammar.empty "g")).addRef "X").1) = true := by
  have hopening : fitAll (opening ++ []) (Grammar.empty "g") = true := by decide +kernel
  have hsequel : fitAll (opening ++ sequel) (Grammar.empty "g") = true := by decide +kernel
  obtain ⟨⟨-, -, -, -, hsets⟩, -⟩ := performAll_built hopening
  obtain ⟨⟨-, -, -, -, hsets'⟩, hnodes, -, -, hhanded⟩ := performAll_built hsequel
  rw [List.append_nil] at hsets
  have hopt : (performAll opening (Grammar.empty "g")).isOptimized = true := by decide +kernel
  have hopt' : (performAll (opening ++ sequel) (Grammar.empty "g")).isOptimized = true := by decide +kernel
  obtain ⟨sets, h⟩ := Option.isSome_iff_exists.mp hopt
  obtain ⟨sets', h'⟩ := Option.isSome_iff_exists.mp hopt'
  have hnode : (performAll opening (Grammar.empty "g")).nodes[0]? = some (.literal [0x61] true) := by decide +kernel
  exact ⟨hopening, hsequel, ⟨sets, h, hsets sets h⟩, ⟨sets', h', hsets' sets' h'⟩, hnodes 0 _ hnode,
    hhanded (.addRef "X") _ rfl _ rfl⟩

end Abnf.Grammar
