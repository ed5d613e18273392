import Abnf.Grammar.Core
import Abnf.Grammar.Include

/-! Grammars as they are built: the parts of a node come before it and rules that nodes refer to are declared
    (`Linked`), and no name is declared twice (`WellFormed`). Grammars only grow while they are built: nodes stay where
    they are, and so do names (`Grows`). Each operation is shown to keep the one and to be an instance of
    the other. -/

namespace Abnf

theorem sameName_iff {a b : String} : sameName a b = true ↔ foldCase a = foldCase b := beq_iff_eq

theorem sameName_comm (a b : String) : sameName a b = sameName b a := by
  rw [Bool.eq_iff_iff, sameName_iff, sameName_iff, eq_comm]

theorem sameName_refl (a : String) : sameName a a = true := beq_self_eq_true _

/-- The rules that a node refers to. --/
def Node.rules : Node → List RuleId
  | ruleRef r => [r]
  | _ => []

namespace Grammar

/-! ### Looking up -/

section
variable {g g' : Grammar} {name : String} {r q : RuleId} {s t : Slot}

theorem find?_congr (h : g'.slots = g.slots) (name : String) : g'.find? name = g.find? name := by
  rw [find?, find?, h]

theorem find?_sameName {name' : String} (h : sameName name name' = true) : g.find? name = g.find? name' := by
  rw [sameName_iff] at h
  rw [find?, find?]
  simp only [sameName, h]

/-- A name is found at the first slot that has it. --/
theorem find?_eq_some_iff : g.find? name = some r ↔ (∃ s, g.slots[r]? = some s ∧ sameName s.name name = true) ∧
    ∀ q < r, ∀ s, g.slots[q]? = some s → sameName s.name name = false := by
  rw [find?, Array.findIdx?_eq_some_iff_getElem]
  constructor
  · rintro ⟨hlt, hs, hfirst⟩
    refine ⟨⟨g.slots[r], Array.getElem?_eq_getElem hlt, hs⟩, fun q hq s hs => ?_⟩
    obtain ⟨hq', rfl⟩ := Array.getElem?_eq_some_iff.mp hs
    exact Bool.eq_false_iff.mpr (hfirst q hq)
  · rintro ⟨⟨s, hs, hname⟩, hfirst⟩
    obtain ⟨hlt, rfl⟩ := Array.getElem?_eq_some_iff.mp hs
    refine ⟨hlt, hname, fun q hq => ?_⟩
    exact Bool.eq_false_iff.mp (hfirst q hq _ (Array.getElem?_eq_getElem (Nat.lt_trans hq hlt)))

theorem find?_eq_none_iff : g.find? name = none ↔
    ∀ (r : RuleId) (s : Slot), g.slots[r]? = some s → sameName s.name name = false := by
  rw [find?, Array.findIdx?_eq_none_iff]
  constructor
  · exact fun h r s hs => h s (Array.mem_of_getElem? hs)
  · intro h s hs
    obtain ⟨r, hr⟩ := Array.mem_iff_getElem?.mp hs
    exact h r s hr

theorem lt_size_of_find? (h : g.find? name = some r) : r < g.slots.size := by
  obtain ⟨⟨s, hs, -⟩, -⟩ := find?_eq_some_iff.mp h
  exact (Array.getElem?_eq_some_iff.mp hs).1

/-- Each name has one place. --/
def Distinct (g : Grammar) : Prop :=
  ∀ (r q : RuleId) (s t : Slot), g.slots[r]? = some s → g.slots[q]? = some t → sameName s.name t.name = true → r = q

theorem Distinct.find?_name (hd : g.Distinct) (hs : g.slots[r]? = some s) : g.find? s.name = some r := by
  refine find?_eq_some_iff.mpr ⟨⟨s, hs, sameName_refl s.name⟩, fun q hq t ht => ?_⟩
  refine Bool.eq_false_iff.mpr fun hst => ?_
  exact Nat.ne_of_lt hq (hd q r t s ht hs hst)

theorem Distinct.pairwise (hd : g.Distinct) :
    (g.slots.toList.map Slot.name).Pairwise fun a b => sameName a b = false := by
  rw [List.pairwise_map, List.pairwise_iff_getElem]
  intro i j hi hj hij
  refine Bool.eq_false_iff.mpr fun h => Nat.ne_of_lt hij ?_
  refine hd i j _ _ ?_ ?_ h
  · rw [← Array.getElem?_toList, List.getElem?_eq_getElem hi]
  · rw [← Array.getElem?_toList, List.getElem?_eq_getElem hj]

theorem root?_eq_some_iff {i : NodeId} : g.root? r = some i ↔ ∃ s, g.slots[r]? = some s ∧ s.root = some i := by
  rw [root?, Option.bind_eq_some_iff]

theorem root?_eq_none_of_le (h : g.slots.size ≤ r) : g.root? r = none := by
  rw [root?, Array.getElem?_eq_none h]
  rfl

theorem isComplete_iff : g.isComplete = true ↔ ∀ r < g.slots.size, (g.root? r).isSome := by
  rw [isComplete, Array.all_eq_true]
  constructor
  · intro h r hr
    rw [root?, Array.getElem?_eq_getElem hr]
    exact h r hr
  · intro h r hr
    have hroot := h r hr
    rw [root?, Array.getElem?_eq_getElem hr] at hroot
    exact hroot

theorem ruleName_eq (hs : g.slots[r]? = some s) : g.ruleName r = s.name := by
  rw [ruleName, hs]
  rfl

end

/-! ### Growth -/

/-- One grammar goes on where another stopped: what nodes and names there are stay in their places. --/
structure Grows (g g' : Grammar) : Prop where
  nodes : ∀ (i : NodeId) (n : Node), g.nodes[i]? = some n → g'.nodes[i]? = some n
  names : ∀ (r : RuleId) (s : Slot), g.slots[r]? = some s → ∃ t, g'.slots[r]? = some t ∧ t.name = s.name

namespace Grows

variable {g g' g'' : Grammar}

theorem refl (g : Grammar) : g.Grows g := ⟨fun _ _ h => h, fun _ s h => ⟨s, h, rfl⟩⟩

theorem trans (h₁ : g.Grows g') (h₂ : g'.Grows g'') : g.Grows g'' where
  nodes i n h := h₂.nodes i n (h₁.nodes i n h)
  names r s h := by
    obtain ⟨t, ht, hts⟩ := h₁.names r s h
    obtain ⟨u, hu, hut⟩ := h₂.names r t ht
    exact ⟨u, hu, hut.trans hts⟩

/-- Grammars with the same nodes and slots, whatever else they hold. --/
theorem of_eq (hn : g'.nodes = g.nodes) (hs : g'.slots = g.slots) : g.Grows g' where
  nodes _ _ h := hn ▸ h
  names _ s h := ⟨s, hs ▸ h, rfl⟩

theorem size_nodes_le (h : g.Grows g') : g.nodes.size ≤ g'.nodes.size := by
  rcases Nat.eq_zero_or_pos g.nodes.size with h0 | hpos
  · omega
  · have hlast := h.nodes (g.nodes.size - 1) _ (Array.getElem?_eq_getElem (by omega))
    have := (Array.getElem?_eq_some_iff.mp hlast).1
    omega

theorem size_slots_le (h : g.Grows g') : g.slots.size ≤ g'.slots.size := by
  rcases Nat.eq_zero_or_pos g.slots.size with h0 | hpos
  · omega
  · obtain ⟨t, ht, -⟩ := h.names (g.slots.size - 1) _ (Array.getElem?_eq_getElem (by omega))
    have := (Array.getElem?_eq_some_iff.mp ht).1
    omega

/-- A name that has a place keeps it. --/
theorem find? (h : g.Grows g') {name : String} {r : RuleId} (hf : g.find? name = some r) :
    g'.find? name = some r := by
  obtain ⟨⟨s, hs, hname⟩, hfirst⟩ := find?_eq_some_iff.mp hf
  obtain ⟨t, ht, hts⟩ := h.names r s hs
  refine find?_eq_some_iff.mpr ⟨⟨t, ht, hts ▸ hname⟩, fun q hq u hu => ?_⟩
  have hlt : q < g.slots.size := Nat.lt_trans hq (lt_size_of_find? hf)
  obtain ⟨v, hv, hvs⟩ := h.names q _ (Array.getElem?_eq_getElem hlt)
  obtain rfl : v = u := Option.some.inj (hv.symm.trans hu)
  exact hvs ▸ hfirst q hq _ (Array.getElem?_eq_getElem hlt)

/-- A name that is found among the first slots was found there before the others were added. --/
theorem find?_of_lt (hg : g.Grows g') {name : String} {r : RuleId} (hr : g'.find? name = some r) (hlt : r < g.slots.size) :
    g.find? name = some r := by
  cases hf : g.find? name with
  | some q => exact (hg.find? hf).symm.trans hr
  | none =>
    obtain ⟨⟨t, ht, hname⟩, -⟩ := find?_eq_some_iff.mp hr
    obtain ⟨u, hu, hus⟩ := hg.names r _ (Array.getElem?_eq_getElem hlt)
    obtain rfl : u = t := Option.some.inj (hu.symm.trans ht)
    rw [hus, find?_eq_none_iff.mp hf r _ (Array.getElem?_eq_getElem hlt)] at hname
    cases hname

end Grows

/-! ### Operations -/

section
variable (g : Grammar)

theorem getElem?_addNode (n : Node) (i : NodeId) :
    (g.addNode n).2.nodes[i]? = if i = g.nodes.size then some n else g.nodes[i]? := by
  rw [addNode, Array.getElem?_push]

theorem grows_addNode (n : Node) : g.Grows (g.addNode n).2 where
  nodes i m h := by
    have hlt := (Array.getElem?_eq_some_iff.mp h).1
    rw [getElem?_addNode, if_neg (Nat.ne_of_lt hlt), h]
  names _ s h := ⟨s, h, rfl⟩

theorem lt_size_addNode (n : Node) : (g.addNode n).1 < (g.addNode n).2.nodes.size :=
  Nat.lt_of_lt_of_eq (Nat.lt_succ_self _) (Array.size_push _).symm

theorem find?_declare (name : String) : (g.declare name).2.find? name = some (g.declare name).1 := by
  cases h : g.find? name with
  | some r => rw [declare, h]; exact h
  | none =>
    rw [declare, h]
    refine find?_eq_some_iff.mpr ⟨⟨⟨name, none⟩, by simp, sameName_refl name⟩, fun q hq s hs => ?_⟩
    rw [Array.getElem?_push_lt hq] at hs
    exact find?_eq_none_iff.mp h q s ((Array.getElem?_eq_getElem hq).trans hs)

theorem declare_eq_self {name : String} {r : RuleId} (h : g.find? name = some r) : g.declare name = (r, g) := by
  rw [declare, h]

theorem nodes_declare (name : String) : (g.declare name).2.nodes = g.nodes := by
  unfold declare
  split <;> rfl

/-- Where there was a slot there is the same one, and where there was none there is one without a root. --/
theorem getElem?_declare (name : String) (r : RuleId) (s : Slot) :
    (g.declare name).2.slots[r]? = some s ↔
      g.slots[r]? = some s ∨ (g.find? name = none ∧ r = g.slots.size ∧ s = ⟨name, none⟩) := by
  cases h : g.find? name with
  | some q => simp [declare, h]
  | none =>
    rw [declare, h]
    simp only [Array.getElem?_push, true_and]
    by_cases hr : r = g.slots.size
    · subst hr
      simp [eq_comm]
    · simp [hr]

theorem grows_declare (name : String) : g.Grows (g.declare name).2 where
  nodes i n h := by rwa [nodes_declare]
  names r s h := ⟨s, (getElem?_declare g name r s).mpr (Or.inl h), rfl⟩

/-- A name is found as before if another one is declared. --/
theorem find?_declare_of_ne {name other : String} (h : sameName name other = false) :
    (g.declare name).2.find? other = g.find? other := by
  cases hf : g.find? other with
  | some r => exact (grows_declare g name).find? hf
  | none =>
    refine find?_eq_none_iff.mpr fun r s hs => ?_
    rcases (getElem?_declare g name r s).mp hs with hs | ⟨-, -, rfl⟩
    · exact find?_eq_none_iff.mp hf r s hs
    · exact h

theorem isSome_find?_declare (name other : String) :
    ((g.declare name).2.find? other).isSome = ((g.find? other).isSome || sameName name other) := by
  cases h : sameName name other with
  | false => rw [find?_declare_of_ne g h, Bool.or_false]
  | true => rw [← find?_sameName h, find?_declare, Bool.or_true, Option.isSome_some]

theorem root?_declare (name : String) (r : RuleId) : (g.declare name).2.root? r = g.root? r := by
  refine Option.ext fun i => ?_
  simp only [root?_eq_some_iff, getElem?_declare]
  constructor
  · rintro ⟨s, hs | ⟨-, -, rfl⟩, hi⟩
    · exact ⟨s, hs, hi⟩
    · cases hi
  · rintro ⟨s, hs, hi⟩
    exact ⟨s, Or.inl hs, hi⟩

theorem grows_addRef (name : String) : g.Grows (g.addRef name).2 :=
  (grows_declare g name).trans (grows_addNode _ _)

theorem getElem?_setRoot (r : RuleId) (root : NodeId) (q : RuleId) : (g.setRoot r root).slots[q]? =
    g.slots[q]?.map fun s => if r = q then { s with root := some root } else s := by
  rw [setRoot, Array.getElem?_modify]
  split <;> simp

theorem grows_setRoot (r : RuleId) (root : NodeId) : g.Grows (g.setRoot r root) where
  nodes _ _ h := h
  names q s h := by
    refine ⟨_, by rw [getElem?_setRoot, h, Option.map_some], ?_⟩
    split <;> rfl

theorem root?_setRoot (r : RuleId) (root : NodeId) (q : RuleId) :
    (g.setRoot r root).root? q = if r = q ∧ q < g.slots.size then some root else g.root? q := by
  rw [root?, getElem?_setRoot, root?]
  by_cases hq : q < g.slots.size
  · rw [Array.getElem?_eq_getElem hq]
    by_cases hr : r = q <;> simp [hr, hq]
  · rw [Array.getElem?_eq_none (Nat.le_of_not_lt hq)]
    simp [hq]

theorem grows_define (name : String) (root : NodeId) : g.Grows (g.define name root).2 :=
  (grows_declare g name).trans ((grows_setRoot _ _ _).trans (.of_eq rfl rfl))

theorem rules_extended (root alternative : NodeId) : (g.extended root alternative).rules = [] := by
  unfold extended
  split <;> rfl

/-- An extended rule had a root, and its new one is a node behind the others. --/
theorem extend_eq_ok {g : Grammar} {name : String} {alternative : NodeId} {r : RuleId} {g' : Grammar}
    (h : g.extend name alternative = .ok (r, g')) : g.find? name = some r ∧ ∃ root, g.root? r = some root ∧
      g' = (g.addNode (g.extended root alternative)).2.setRoot r g.nodes.size := by
  unfold extend at h
  split at h
  · cases h
  · rename_i q hq
    split at h
    · cases h
    · rename_i root hroot
      cases h
      exact ⟨hq, root, hroot, rfl⟩

theorem grows_extend {name : String} {alternative : NodeId} {r : RuleId} {g' : Grammar}
    (h : g.extend name alternative = .ok (r, g')) : g.Grows g' := by
  obtain ⟨-, root, -, rfl⟩ := extend_eq_ok h
  exact (grows_addNode _ _).trans (grows_setRoot _ _ _)

end

/-! ### Linked grammars -/

/-- Nodes and rules that one can look up. --/
structure Linked (g : Grammar) : Prop where
  /-- The parts of a node are there before it. --/
  parts : ∀ (i : NodeId) (n : Node), g.nodes[i]? = some n → ∀ c ∈ n.children, c < i
  /-- The rules that nodes refer to have a place in the table. --/
  referred : ∀ n ∈ g.nodes, ∀ r ∈ n.rules, r < g.slots.size
  roots : ∀ (r : RuleId) (i : NodeId), g.root? r = some i → i < g.nodes.size

namespace Linked

variable {g : Grammar}

theorem addNode (hg : g.Linked) {n : Node} (hparts : ∀ c ∈ n.children, c < g.nodes.size)
    (hrules : ∀ r ∈ n.rules, r < g.slots.size) : (g.addNode n).2.Linked where
  parts i m h := by
    rw [getElem?_addNode] at h
    split at h
    · cases h
      subst_vars
      exact hparts
    · exact hg.parts i m h
  referred m hm := by
    rcases Array.mem_push.mp hm with hm | rfl
    · exact hg.referred m hm
    · exact hrules
  roots r i h := Nat.lt_of_lt_of_le (hg.roots r i h) (grows_addNode g n).size_nodes_le

theorem declare (hg : g.Linked) (name : String) : (g.declare name).2.Linked where
  parts i n h := hg.parts i n (nodes_declare g name ▸ h)
  referred n hn r hr :=
    Nat.lt_of_lt_of_le (hg.referred n (nodes_declare g name ▸ hn) r hr) (grows_declare g name).size_slots_le
  roots r i h := by
    rw [root?_declare] at h
    rw [nodes_declare]
    exact hg.roots r i h

theorem setRoot (hg : g.Linked) (r : RuleId) {root : NodeId} (hroot : root < g.nodes.size) :
    (g.setRoot r root).Linked where
  parts := hg.parts
  referred n hn q hq := Nat.lt_of_lt_of_le (hg.referred n hn q hq) (grows_setRoot g r root).size_slots_le
  roots q i h := by
    rw [root?_setRoot] at h
    split at h
    · cases h
      exact hroot
    · exact hg.roots q i h

/-- What a rule is extended to is made of nodes that are there. --/
theorem lt_size_of_mem_extended (hg : g.Linked) {root alternative : NodeId} (hroot : root < g.nodes.size)
    (halt : alternative < g.nodes.size) : ∀ c ∈ (g.extended root alternative).children, c < g.nodes.size := by
  intro c hc
  unfold extended at hc
  split at hc
  · rename_i alternatives hn
    rcases List.mem_append.mp hc with hc | hc
    · exact Nat.lt_trans (hg.parts root _ hn c hc) hroot
    · exact List.mem_singleton.mp hc ▸ halt
  · rcases List.mem_cons.mp hc with rfl | hc
    · exact hroot
    · exact List.mem_singleton.mp hc ▸ halt

theorem extend (hg : g.Linked) {name : String} {alternative : NodeId} (halt : alternative < g.nodes.size)
    {r : RuleId} {g' : Grammar} (h : g.extend name alternative = .ok (r, g')) : g'.Linked := by
  obtain ⟨-, root, hroot, rfl⟩ := extend_eq_ok h
  have hparts := hg.lt_size_of_mem_extended (hg.roots r root hroot) halt
  exact (hg.addNode hparts (rules_extended g root alternative ▸ nofun)).setRoot _ (lt_size_addNode g _)

end Linked

/-! ### Well-formed grammars -/

/-- What holds of a grammar however it was built. --/
structure WellFormed (g : Grammar) : Prop where
  distinct : g.Distinct
  /-- The parts of a node are there before it. --/
  parts : ∀ (i : NodeId) (n : Node), g.nodes[i]? = some n → ∀ c ∈ n.children, c < i
  /-- The rules that nodes refer to have a place in the table. --/
  referred : ∀ n ∈ g.nodes, ∀ r ∈ n.rules, r < g.slots.size
  roots : ∀ (r : RuleId) (i : NodeId), g.root? r = some i → i < g.nodes.size
  /-- First sets are those of the grammar, if there are any. --/
  sets : ∀ sets, g.firstSets = some sets → sets = g.computeFirstSets

/-- A test for well-formed grammars without first sets: on the names, on each node, and on the roots. --/
def passes (g : Grammar) : Bool :=
  g.firstSets.isNone &&
  (List.finRange g.slots.size).all (fun r => (List.finRange g.slots.size).all fun q =>
    !sameName g.slots[r].name g.slots[q].name || r == q) &&
  g.nodes.toList.zipIdx.all (fun n => n.1.children.all (· < n.2) && n.1.rules.all (· < g.slots.size)) &&
  g.slots.toList.all fun s => s.root.all (· < g.nodes.size)

/-- Every declared rule has a root, and nodes refer to declared rules only. --/
structure Complete (g : Grammar) : Prop where
  declared : g.isComplete = true
  referred : ∀ n ∈ g.nodes, ∀ r ∈ n.rules, r < g.slots.size

theorem Complete.root?_ne_none {g : Grammar} (hc : g.Complete) {r : RuleId} (hr : r < g.slots.size) :
    g.root? r ≠ none :=
  Option.isSome_iff_ne_none.mp (isComplete_iff.mp hc.declared r hr)

/-- First sets depend on the nodes and the roots only. --/
theorem computeFirstSets_congr {g g' : Grammar} (hn : g'.nodes = g.nodes) (hr : ∀ r, g'.root? r = g.root? r) :
    g'.computeFirstSets = g.computeFirstSets := by
  have hstep : g'.firstSetStep = g.firstSetStep := by
    funext sets n
    rw [firstSetStep, firstSetStep, show g'.root? = g.root? from funext hr]
  have hpass : g'.firstSetPass = g.firstSetPass := by
    funext sets
    rw [firstSetPass, firstSetPass, hstep, hn]
  have hfrom : ∀ fuel sets, g'.firstSetsFrom fuel sets = g.firstSetsFrom fuel sets := by
    intro fuel
    induction fuel with
    | zero => exact fun _ => rfl
    | succ fuel ih => exact fun sets => by rw [firstSetsFrom, firstSetsFrom, hpass, ih]
  rw [computeFirstSets, computeFirstSets, hn, hfrom]

theorem sets_optimize (g : Grammar) (sets : Array FirstSet) (h : g.optimize.firstSets = some sets) :
    sets = g.optimize.computeFirstSets := by
  have hsame : g.optimize.computeFirstSets = g.computeFirstSets := computeFirstSets_congr rfl fun _ => rfl
  rw [hsame]
  exact (Option.some.inj h).symm

namespace WellFormed

variable {g : Grammar}

theorem of_passes (h : g.passes = true) : g.WellFormed := by
  simp only [passes, Bool.and_eq_true, List.all_eq_true, List.mem_finRange, forall_const, Bool.or_eq_true,
    Bool.not_eq_true', beq_iff_eq, decide_eq_true_eq, Option.all_eq_true, Option.isNone_iff_eq_none] at h
  obtain ⟨⟨⟨hnone, hnames⟩, hnodes⟩, hroots⟩ := h
  have hnode : ∀ (i : NodeId) (n : Node), g.nodes[i]? = some n →
      (∀ c ∈ n.children, c < i) ∧ ∀ r ∈ n.rules, r < g.slots.size :=
    fun i n hn => hnodes (n, i) (List.mem_zipIdx_iff_getElem?.mpr (by rwa [Array.getElem?_toList]))
  exact
    { distinct := fun r q s t hs ht hst => by
        obtain ⟨hr, rfl⟩ := Array.getElem?_eq_some_iff.mp hs
        obtain ⟨hq, rfl⟩ := Array.getElem?_eq_some_iff.mp ht
        rcases hnames ⟨r, hr⟩ ⟨q, hq⟩ with hne | heq
        · rw [show sameName g.slots[r].name g.slots[q].name = false from hne] at hst
          cases hst
        · exact congrArg Fin.val heq
      parts := fun i n hn => (hnode i n hn).1
      referred := fun n hn => by
        obtain ⟨i, hi⟩ := Array.mem_iff_getElem?.mp hn
        exact (hnode i n hi).2
      roots := fun r i h => by
        obtain ⟨s, hs, hi⟩ := root?_eq_some_iff.mp h
        exact hroots s (Array.mem_toList_iff.mpr (Array.mem_of_getElem? hs)) i hi
      sets := fun sets h => by
        rw [hnone] at h
        cases h }

theorem complete (hw : g.WellFormed) (hc : g.isComplete = true) : g.Complete := ⟨hc, hw.referred⟩

theorem empty (name : String) : (Grammar.empty name).WellFormed where
  distinct _ _ _ _ h := by simp [Grammar.empty] at h
  parts _ _ h := by simp [Grammar.empty] at h
  referred _ h := by simp [Grammar.empty] at h
  roots _ _ h := by simp [Grammar.empty, root?] at h
  sets _ h := by cases h

theorem linked (hw : g.WellFormed) : g.Linked := ⟨hw.parts, hw.referred, hw.roots⟩

theorem addNode (hw : g.WellFormed) {n : Node} (hparts : ∀ c ∈ n.children, c < g.nodes.size)
    (hrules : ∀ r ∈ n.rules, r < g.slots.size) : (g.addNode n).2.WellFormed :=
  { hw.linked.addNode hparts hrules with
    distinct := hw.distinct
    sets := nofun }

theorem declare (hw : g.WellFormed) (name : String) : (g.declare name).2.WellFormed :=
  { hw.linked.declare name with
    distinct := fun r q s t hs ht hst => by
      rcases (getElem?_declare g name r s).mp hs with hs | ⟨hnone, rfl, rfl⟩ <;>
        rcases (getElem?_declare g name q t).mp ht with ht | ⟨hnone', rfl, rfl⟩
      · exact hw.distinct r q s t hs ht hst
      · rw [find?_eq_none_iff.mp hnone' r s hs] at hst
        cases hst
      · rw [sameName_comm, find?_eq_none_iff.mp hnone q t ht] at hst
        cases hst
      · rfl
    sets := fun sets h => by
      rw [computeFirstSets_congr (nodes_declare g name) (root?_declare g name)]
      refine hw.sets sets ?_
      unfold Grammar.declare at h
      split at h <;> exact h }

theorem addRef (hw : g.WellFormed) (name : String) : (g.addRef name).2.WellFormed := by
  refine (hw.declare name).addNode nofun fun r hr => ?_
  obtain rfl := List.mem_singleton.mp hr
  exact lt_size_of_find? (find?_declare g name)

theorem setRoot (hw : g.WellFormed) (r : RuleId) {root : NodeId} (hroot : root < g.nodes.size)
    (hnone : g.firstSets = none) : (g.setRoot r root).WellFormed :=
  { hw.linked.setRoot r hroot with
    distinct := fun p q s t hs ht hst => by
      have hslot : ∀ (p : RuleId) (s : Slot), (g.setRoot r root).slots[p]? = some s →
          ∃ s', g.slots[p]? = some s' ∧ s'.name = s.name := by
        intro p s hs
        rw [getElem?_setRoot] at hs
        obtain ⟨s', hs', rfl⟩ := Option.map_eq_some_iff.mp hs
        refine ⟨s', hs', ?_⟩
        split <;> rfl
      obtain ⟨s', hs', hsn⟩ := hslot p s hs
      obtain ⟨t', ht', htn⟩ := hslot q t ht
      exact hw.distinct p q s' t' hs' ht' (hsn ▸ htn ▸ hst)
    sets := fun sets h => by
      rw [show (g.setRoot r root).firstSets = g.firstSets from rfl, hnone] at h
      cases h }

/-- A grammar stripped of its first sets. --/
theorem strip (hw : g.WellFormed) : { g with firstSets := none : Grammar }.WellFormed where
  distinct := hw.distinct
  parts := hw.parts
  referred := hw.referred
  roots := hw.roots
  sets _ h := by cases h

theorem define (hw : g.WellFormed) (name : String) {root : NodeId} (hroot : root < g.nodes.size) :
    (g.define name root).2.WellFormed := by
  have hroot' : root < (g.declare name).2.nodes.size := by rwa [nodes_declare]
  exact (hw.declare name).strip.setRoot (g.declare name).1 hroot' rfl

theorem extend (hw : g.WellFormed) {name : String} {alternative : NodeId} (halt : alternative < g.nodes.size)
    {r : RuleId} {g' : Grammar} (h : g.extend name alternative = .ok (r, g')) : g'.WellFormed := by
  obtain ⟨-, root, hroot, rfl⟩ := extend_eq_ok h
  have hparts := hw.linked.lt_size_of_mem_extended (hw.roots r root hroot) halt
  exact (hw.addNode hparts (rules_extended g root alternative ▸ nofun)).setRoot _ (lt_size_addNode g _) rfl

theorem optimize (hw : g.WellFormed) : g.optimize.WellFormed where
  distinct := hw.distinct
  parts := hw.parts
  referred := hw.referred
  roots := hw.roots
  sets := g.sets_optimize

end WellFormed

/-- Two rules that refer to one another: `s = *("a" / t)` and `t = "b" s`. --/
def turns : Grammar :=
  ⟨"turns", #[.literal [0x61] true, .ruleRef 1, .choice [0, 1], .repetition 2 0 none, .literal [0x62] true,
    .ruleRef 0, .sequence [4, 5]], #[⟨"s", some 3⟩, ⟨"t", some 6⟩], none⟩

theorem wellFormed_turns : turns.WellFormed :=
  .of_passes (by decide +kernel)

theorem wellFormed_coreRules : coreRules.WellFormed :=
  WellFormed.optimize (.of_passes (by decide +kernel))

end Grammar
end Abnf
