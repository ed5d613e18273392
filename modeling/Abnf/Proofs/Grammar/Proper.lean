import Abnf.Grammar.Core
import Abnf.Proofs.Grammar.Include
import Abnf.Proofs.Grammar.Render

/-! Grammars that a document can spell: ranges go upwards, alternatives and sequences have two parts at least, bounds
    are in order, and names are names. Every step of building a grammar keeps it so, and then all of its patterns are
    clear that are legible (`clear_of_legible`). -/

namespace Abnf

/-- Whether a document can spell the node. --/
def Node.isProper : Node → Bool
  | charRange lo hi => lo ≤ hi && hi ≤ maxCodePoint
  | sequence ns | choice ns => 2 ≤ ns.length
  | repetition _ min max => max.all (min ≤ ·)
  | literal .. | ruleRef _ | fold _ => true

theorem Node.isProper_map (node : NodeId → NodeId) (rule : RuleId → RuleId) (n : Node) :
    (n.map node rule).isProper = n.isProper := by
  cases n with
  | sequence ns | choice ns => exact congrArg (fun k => decide (2 ≤ k)) (List.length_map node)
  | _ => rfl

namespace Grammar

/-- A grammar of such nodes whose names are names. --/
structure Proper (g : Grammar) : Prop where
  nodes : ∀ n ∈ g.nodes, n.isProper = true
  names : ∀ name ∈ g.slots.map Slot.name, isName name = true

instance (g : Grammar) : Decidable g.Proper :=
  decidable_of_iff ((∀ n ∈ g.nodes, n.isProper = true) ∧ ∀ name ∈ g.slots.map Slot.name, isName name = true)
    ⟨fun h => ⟨h.1, h.2⟩, fun h => ⟨h.nodes, h.names⟩⟩

/-! ### Nodes -/

section
variable {g base : Grammar}

theorem isProper_addNode (h : ∀ n ∈ g.nodes, n.isProper = true) {n : Node} (hn : n.isProper = true) :
    ∀ m ∈ (g.addNode n).2.nodes, m.isProper = true := by
  intro m hm
  rcases Array.mem_push.mp hm with hm | rfl
  · exact h m hm
  · exact hn

/-- A choice that takes another alternative in had two already. --/
theorem isProper_extended (h : ∀ n ∈ g.nodes, n.isProper = true) (root alternative : NodeId) :
    (g.extended root alternative).isProper = true := by
  unfold extended
  split
  · rename_i alternatives halternatives
    have htwo := of_decide_eq_true (h _ (Array.mem_of_getElem? halternatives))
    refine decide_eq_true ?_
    rw [List.length_append]
    exact Nat.le_add_right_of_le htwo
  · rfl

theorem isProper_includeBase (h : ∀ n ∈ g.nodes, n.isProper = true) (hb : ∀ n ∈ base.nodes, n.isProper = true) :
    ∀ n ∈ (g.includeBase base).nodes, n.isProper = true := by
  intro n hn
  rcases Array.mem_append.mp hn with hn | hn
  · exact h n hn
  · obtain ⟨m, hm, rfl⟩ := Array.mem_map.mp hn
    rw [Node.isProper_map]
    exact hb m hm

end

/-! ### Building -/

namespace Proper

variable {g base : Grammar}

theorem empty (name : String) : (Grammar.empty name).Proper := by
  constructor <;> simp [Grammar.empty]

theorem addNode (h : g.Proper) {n : Node} (hn : n.isProper = true) : (g.addNode n).2.Proper where
  nodes := isProper_addNode h.nodes hn
  names := h.names

theorem declare (h : g.Proper) {name : String} (hname : isName name = true) : (g.declare name).2.Proper where
  nodes := by
    rw [nodes_declare]
    exact h.nodes
  names := by
    unfold Grammar.declare
    split
    · exact h.names
    · intro other hother
      rw [Array.map_push] at hother
      rcases Array.mem_push.mp hother with hother | rfl
      · exact h.names other hother
      · exact hname

theorem declareAll : ∀ {names : List String} {g : Grammar}, g.Proper → (∀ name ∈ names, isName name = true) →
    (g.declareAll names).Proper
  | [], _, h, _ => h
  | _ :: _, _, h, hnames => by
    obtain ⟨hname, hnames⟩ := List.forall_mem_cons.mp hnames
    exact (h.declare hname).declareAll hnames

theorem addRef (h : g.Proper) {name : String} (hname : isName name = true) : (g.addRef name).2.Proper :=
  (h.declare hname).addNode rfl

theorem setRoot (h : g.Proper) (r : RuleId) (root : NodeId) : (g.setRoot r root).Proper where
  nodes := h.nodes
  names := by
    rw [names_setRoot]
    exact h.names

theorem optimize (h : g.Proper) : g.optimize.Proper := ⟨h.nodes, h.names⟩

theorem define (h : g.Proper) {name : String} (hname : isName name = true) (root : NodeId) :
    (g.define name root).2.Proper := by
  have hset := (h.declare hname).setRoot (g.declare name).1 root
  exact ⟨hset.nodes, hset.names⟩

theorem extend (h : g.Proper) {name : String} {alternative : NodeId} {r : RuleId} {g' : Grammar}
    (he : g.extend name alternative = .ok (r, g')) : g'.Proper := by
  obtain ⟨-, root, -, rfl⟩ := extend_eq_ok he
  exact (h.addNode (isProper_extended h.nodes root alternative)).setRoot _ _

theorem includeBase (h : g.Proper) (hb : base.Proper) : (g.includeBase base).Proper where
  nodes := isProper_includeBase h.nodes hb.nodes
  names := by
    rw [names_includeBase]
    refine (h.declareAll fun name hname => hb.names name ?_).names
    rw [← Array.mem_toList_iff, Array.toList_map]
    exact hname

end Proper

theorem proper_coreRules : coreRules.Proper :=
  Proper.optimize (by decide +kernel)

/-! ### Clear patterns -/

section
variable {g : Grammar}

theorem Proper.isName_ruleName (h : g.Proper) {r : RuleId} (hr : r < g.slots.size) : isName (g.ruleName r) = true := by
  rw [ruleName_eq (Array.getElem?_eq_getElem hr)]
  exact h.names _ (Array.mem_map_of_mem (Array.getElem_mem hr))

mutual

/-- The legible patterns of nodes are clear. --/
theorem clear_of_legible (hw : g.WellFormed) (hg : g.Proper) : ∀ {p : Pattern RuleId} {i : NodeId}, g.Unfolds Eq p i →
    p.legible = true → p.Clear g.ruleName
  | .literal bs ignoreCase, i, hi, h => by
    rintro rfl
    rw [Pattern.legible, Bool.not_true, Bool.false_or, Bool.or_eq_true] at h
    exact h
  | .charRange lo hi, i, hn, _ => by
    have hproper := hg.nodes _ (Array.mem_of_getElem? hn)
    rw [Node.isProper, Bool.and_eq_true, decide_eq_true_eq, decide_eq_true_eq] at hproper
    exact hproper
  | .sequence ps, i, ⟨ns, hn, hns⟩, h | .choice ps, i, ⟨ns, hn, hns⟩, h => by
    obtain ⟨hlength, hclear⟩ := clearAll_of_legible hw hg hns h
    have htwo := of_decide_eq_true (hg.nodes _ (Array.mem_of_getElem? hn))
    exact ⟨hlength.symm ▸ htwo, hclear⟩
  | .repetition p min max, i, ⟨n, hn, hp⟩, h => by
    obtain ⟨hrank, h⟩ := (Bool.and_eq_true _ _).mp (show (_ && _) = true from h)
    have hbounds := hg.nodes _ (Array.mem_of_getElem? hn)
    rw [Node.isProper, Option.all_eq_true] at hbounds
    refine ⟨fun m hm => of_decide_eq_true (hbounds m hm), fun hone => ?_, clear_of_legible hw hg hp h⟩
    rwa [hone, bne_self_eq_false, Bool.false_or, Bool.and_eq_true, beq_iff_eq, beq_iff_eq] at hrank
  | .ruleRef r, i, hi, _ => hg.isName_ruleName (hw.refers hi)
  | .fold p, i, ⟨n, hn, hp⟩, h => by
    have hp := clear_of_legible hw hg hp h
    exact hp

theorem clearAll_of_legible (hw : g.WellFormed) (hg : g.Proper) : ∀ {ps : List (Pattern RuleId)} {ns : List NodeId},
    g.UnfoldsAll Eq ps ns → Pattern.legibles ps = true → ps.length = ns.length ∧ Pattern.ClearAll g.ruleName ps
  | [], [], _, _ => ⟨rfl, trivial⟩
  | _ :: _, _ :: _, ⟨hp, hps⟩, h => by
    obtain ⟨h, hs⟩ := (Bool.and_eq_true _ _).mp (show (_ && _) = true from h)
    obtain ⟨hlength, hclear⟩ := clearAll_of_legible hw hg hps hs
    exact ⟨congrArg (· + 1) hlength, clear_of_legible hw hg hp h, hclear⟩
  | [], _ :: _, hu, _ | _ :: _, [], hu, _ => hu.elim

end

end

end Grammar
end Abnf
