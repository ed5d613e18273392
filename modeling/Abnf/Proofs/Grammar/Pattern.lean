import Abnf.Binary.Decode
import Abnf.Proofs.Grammar.WellFormed

/-! Patterns of nodes. A node of a well-formed grammar unfolds to its pattern (`unfolds_pattern`), and adding a
    pattern to a grammar makes a node that unfolds to it (`addPattern_spec`). -/

namespace Abnf

namespace Pattern

variable {ρ : Type}

mutual

/-- Whether all rules that a pattern refers to have a property. --/
def Refers (P : ρ → Prop) : Pattern ρ → Prop
  | literal .. | charRange .. => True
  | sequence ps | choice ps => RefersAll P ps
  | repetition p _ _ | fold p => Refers P p
  | ruleRef r => P r

def RefersAll (P : ρ → Prop) : List (Pattern ρ) → Prop
  | [] => True
  | p :: ps => Refers P p ∧ RefersAll P ps

end

mutual

theorem Refers.mono {P Q : ρ → Prop} (h : ∀ r, P r → Q r) : ∀ {p : Pattern ρ}, p.Refers P → p.Refers Q
  | .literal .., _ | .charRange .., _ => trivial
  | .sequence _, hp | .choice _, hp => RefersAll.mono h hp
  | .repetition p _ _, hp | .fold p, hp => Refers.mono h (p := p) hp
  | .ruleRef r, hp => h r hp

theorem RefersAll.mono {P Q : ρ → Prop} (h : ∀ r, P r → Q r) : ∀ {ps : List (Pattern ρ)},
    Pattern.RefersAll P ps → Pattern.RefersAll Q ps
  | [], _ => trivial
  | _ :: _, ⟨hp, hps⟩ => ⟨Refers.mono h hp, RefersAll.mono h hps⟩

end

end Pattern

namespace Grammar

variable {ρ : Type}

mutual

/-- A node of a grammar is made as a pattern says, whose rules `stands` takes to those of the grammar. --/
def Unfolds (g : Grammar) (stands : ρ → RuleId → Prop) : Pattern ρ → NodeId → Prop
  | .literal bs ignoreCase, i => g.nodes[i]? = some (.literal bs ignoreCase)
  | .charRange lo hi, i => g.nodes[i]? = some (.charRange lo hi)
  | .sequence ps, i => ∃ ns, g.nodes[i]? = some (.sequence ns) ∧ UnfoldsAll g stands ps ns
  | .choice ps, i => ∃ ns, g.nodes[i]? = some (.choice ns) ∧ UnfoldsAll g stands ps ns
  | .repetition p min max, i => ∃ n, g.nodes[i]? = some (.repetition n min max) ∧ Unfolds g stands p n
  | .ruleRef x, i => ∃ r, g.nodes[i]? = some (.ruleRef r) ∧ stands x r
  | .fold p, i => ∃ n, g.nodes[i]? = some (.fold n) ∧ Unfolds g stands p n

def UnfoldsAll (g : Grammar) (stands : ρ → RuleId → Prop) : List (Pattern ρ) → List NodeId → Prop
  | [], [] => True
  | p :: ps, n :: ns => Unfolds g stands p n ∧ UnfoldsAll g stands ps ns
  | _, _ => False

end

section
variable {g g' : Grammar} {stands stands' : ρ → RuleId → Prop}

mutual

theorem Unfolds.mono (h : ∀ (i : NodeId) (n : Node), g.nodes[i]? = some n → g'.nodes[i]? = some n)
    (hs : ∀ x r, stands x r → stands' x r) : ∀ {p : Pattern ρ} {i : NodeId}, g.Unfolds stands p i → g'.Unfolds stands' p i
  | .literal .., i, hu | .charRange .., i, hu => h i _ hu
  | .sequence ps, i, hu | .choice ps, i, hu => by
    obtain ⟨ns, hn, hns⟩ := hu
    exact ⟨ns, h i _ hn, UnfoldsAll.mono h hs hns⟩
  | .repetition p _ _, i, hu | .fold p, i, hu => by
    obtain ⟨n, hn, hp⟩ := hu
    exact ⟨n, h i _ hn, Unfolds.mono h hs hp⟩
  | .ruleRef x, i, hu => by
    obtain ⟨r, hn, hr⟩ := hu
    exact ⟨r, h i _ hn, hs x r hr⟩

theorem UnfoldsAll.mono (h : ∀ (i : NodeId) (n : Node), g.nodes[i]? = some n → g'.nodes[i]? = some n)
    (hs : ∀ x r, stands x r → stands' x r) :
    ∀ {ps : List (Pattern ρ)} {ns : List NodeId}, g.UnfoldsAll stands ps ns → g'.UnfoldsAll stands' ps ns
  | [], [], _ => trivial
  | _ :: _, _ :: _, ⟨hp, hps⟩ => ⟨Unfolds.mono h hs hp, UnfoldsAll.mono h hs hps⟩
  | [], _ :: _, hu | _ :: _, [], hu => hu.elim

end

theorem Unfolds.grow (h : ∀ (i : NodeId) (n : Node), g.nodes[i]? = some n → g'.nodes[i]? = some n) {p : Pattern ρ}
    {i : NodeId} (hu : g.Unfolds stands p i) : g'.Unfolds stands p i := hu.mono h fun _ _ hr => hr

theorem UnfoldsAll.grow (h : ∀ (i : NodeId) (n : Node), g.nodes[i]? = some n → g'.nodes[i]? = some n)
    {ps : List (Pattern ρ)} {ns : List NodeId} (hu : g.UnfoldsAll stands ps ns) : g'.UnfoldsAll stands ps ns :=
  hu.mono h fun _ _ hr => hr

/-! ### Unfolding -/

theorem unfoldsAll_mapM {f : NodeId → Option (Pattern ρ)} (h : ∀ i p, f i = some p → g.Unfolds stands p i) :
    ∀ {ns : List NodeId} {ps : List (Pattern ρ)}, ns.mapM f = some ps → g.UnfoldsAll stands ps ns
  | [], ps, hps => by
    cases hps
    trivial
  | n :: ns, ps, hps => by
    rw [List.mapM_cons] at hps
    obtain ⟨p, hp, hps⟩ := Option.bind_eq_some_iff.mp hps
    obtain ⟨qs, hqs, hps⟩ := Option.bind_eq_some_iff.mp hps
    cases hps
    exact ⟨h n p hp, unfoldsAll_mapM h hqs⟩

theorem unfolds_patternWithin : ∀ {depth : Nat} {i : NodeId} {p : Pattern RuleId},
    g.patternWithin depth i = some p → g.Unfolds Eq p i
  | 0, i, p, h => by cases h
  | depth + 1, i, p, h => by
    rw [patternWithin] at h
    obtain ⟨n, hn, h⟩ := Option.bind_eq_some_iff.mp h
    cases n with
    | literal | charRange =>
      cases h
      exact hn
    | sequence ns | choice ns =>
      obtain ⟨ps, hps, h⟩ := Option.bind_eq_some_iff.mp h
      cases h
      exact ⟨ns, hn, unfoldsAll_mapM (fun _ _ => unfolds_patternWithin) hps⟩
    | repetition n min max | fold n =>
      obtain ⟨q, hq, h⟩ := Option.bind_eq_some_iff.mp h
      cases h
      exact ⟨n, hn, unfolds_patternWithin hq⟩
    | ruleRef r =>
      cases h
      exact ⟨r, hn, rfl⟩

theorem exists_mapM {f : NodeId → Option (Pattern ρ)} : ∀ {ns : List NodeId}, (∀ n ∈ ns, ∃ p, f n = some p) →
    ∃ ps, ns.mapM f = some ps
  | [], _ => ⟨[], rfl⟩
  | n :: ns, h => by
    obtain ⟨p, hp⟩ := h n List.mem_cons_self
    obtain ⟨ps, hps⟩ := exists_mapM fun m hm => h m (List.mem_cons_of_mem n hm)
    exact ⟨p :: ps, by rw [List.mapM_cons, hp, hps]; rfl⟩

/-- Each part of a node lies before it, so an unfolding is no deeper than the place of its node. --/
theorem WellFormed.exists_patternWithin (hw : g.WellFormed) : ∀ {depth : Nat} {i : NodeId}, i < depth →
    i < g.nodes.size → ∃ p, g.patternWithin depth i = some p
  | depth + 1, i, hd, hi => by
    have hn : g.nodes[i]? = some g.nodes[i] := Array.getElem?_eq_getElem hi
    have hpart : ∀ c ∈ g.nodes[i].children, ∃ p, g.patternWithin depth c = some p := by
      intro c hc
      have hlt := hw.parts i _ hn c hc
      exact hw.exists_patternWithin (Nat.lt_of_lt_of_le hlt (Nat.le_of_lt_succ hd)) (Nat.lt_trans hlt hi)
    rw [patternWithin, hn]
    generalize g.nodes[i] = n at hpart
    cases n with
    | literal | charRange | ruleRef => exact ⟨_, rfl⟩
    | sequence ns | choice ns =>
      have hparts : ∀ c ∈ ns, ∃ p, g.patternWithin depth c = some p := hpart
      obtain ⟨ps, hps⟩ := exists_mapM hparts
      exact ⟨_, by rw [Option.bind_eq_bind, Option.bind_some]; dsimp only; rw [hps]; rfl⟩
    | repetition n | fold n =>
      obtain ⟨p, hp⟩ := hpart n List.mem_cons_self
      exact ⟨_, by rw [Option.bind_eq_bind, Option.bind_some]; dsimp only; rw [hp]; rfl⟩

/-- A node unfolds to its pattern. --/
theorem WellFormed.unfolds_pattern (hw : g.WellFormed) {i : NodeId} (hi : i < g.nodes.size) :
    g.Unfolds Eq (g.pattern i) i := by
  obtain ⟨p, hp⟩ := hw.exists_patternWithin hi hi
  rw [pattern, pattern?, hp]
  exact unfolds_patternWithin hp

mutual

theorem WellFormed.refers (hw : g.WellFormed) : ∀ {p : Pattern RuleId} {i : NodeId}, g.Unfolds Eq p i →
    p.Refers (· < g.slots.size)
  | .literal .., _, _ | .charRange .., _, _ => trivial
  | .sequence ps, i, hu | .choice ps, i, hu => by
    obtain ⟨ns, -, hns⟩ := hu
    have hall := hw.refersAll hns
    exact hall
  | .repetition p _ _, i, hu | .fold p, i, hu => by
    obtain ⟨n, -, hp⟩ := hu
    have hpart := hw.refers hp
    exact hpart
  | .ruleRef r, i, hu => by
    obtain ⟨q, hn, rfl⟩ := hu
    exact hw.referred _ (Array.mem_of_getElem? hn) r List.mem_cons_self

theorem WellFormed.refersAll (hw : g.WellFormed) : ∀ {ps : List (Pattern RuleId)} {ns : List NodeId},
    g.UnfoldsAll Eq ps ns → Pattern.RefersAll (· < g.slots.size) ps
  | [], [], _ => trivial
  | _ :: _, _ :: _, ⟨hp, hps⟩ => ⟨hw.refers hp, hw.refersAll hps⟩
  | [], _ :: _, hu | _ :: _, [], hu => hu.elim

end

/-! ### Building -/

/-- Adding something to a grammar declares no rules and leaves the nodes where they are. --/
structure Adds (g g' : Grammar) : Prop where
  slots : g'.slots = g.slots
  nodes : ∀ (i : NodeId) (n : Node), g.nodes[i]? = some n → g'.nodes[i]? = some n
  name : g'.name = g.name

theorem Adds.refl (g : Grammar) : g.Adds g := ⟨rfl, fun _ _ h => h, rfl⟩

theorem Adds.trans {g'' : Grammar} (h₁ : g.Adds g') (h₂ : g'.Adds g'') : g.Adds g'' :=
  ⟨h₂.slots.trans h₁.slots, fun i n h => h₂.nodes i n (h₁.nodes i n h), h₂.name.trans h₁.name⟩

theorem adds_addNode (g : Grammar) (n : Node) : g.Adds (g.addNode n).2 := ⟨rfl, (grows_addNode g n).nodes, rfl⟩

theorem getElem?_addNode_self (g : Grammar) (n : Node) : (g.addNode n).2.nodes[(g.addNode n).1]? = some n := by
  rw [getElem?_addNode]
  exact if_pos rfl

/-- The place of a name in a table, as a relation. --/
def Stands (g : Grammar) (name : String) (r : RuleId) : Prop := g.find? name = some r

theorem Adds.stands_eq (h : g.Adds g') : g'.Stands = g.Stands := by
  funext name r
  rw [Stands, Stands, find?_congr h.slots]

mutual

/-- A pattern of declared rules is added as it is. --/
theorem addPattern_spec : ∀ (p : Pattern String) (g : Grammar), p.Refers (fun name => ∃ r, g.Stands name r) →
    g.Adds (g.addPattern p).2 ∧ (g.addPattern p).2.Unfolds g.Stands p (g.addPattern p).1
  | .literal .., g, _ | .charRange .., g, _ => ⟨adds_addNode g _, getElem?_addNode_self g _⟩
  | .sequence ps, g, h | .choice ps, g, h => by
    obtain ⟨hadds, hall⟩ := addPatterns_spec ps g h
    refine ⟨hadds.trans (adds_addNode _ _), _, getElem?_addNode_self _ _, ?_⟩
    exact hall.grow (adds_addNode _ _).nodes
  | .repetition p _ _, g, h | .fold p, g, h => by
    obtain ⟨hadds, hp⟩ := addPattern_spec p g h
    refine ⟨hadds.trans (adds_addNode _ _), _, getElem?_addNode_self _ _, ?_⟩
    exact hp.grow (adds_addNode _ _).nodes
  | .ruleRef name, g, h => by
    obtain ⟨r, hr⟩ := h
    rw [addPattern, addRef, declare_eq_self g hr]
    exact ⟨adds_addNode g _, r, getElem?_addNode_self g _, hr⟩

theorem addPatterns_spec : ∀ (ps : List (Pattern String)) (g : Grammar),
    Pattern.RefersAll (fun name => ∃ r, g.Stands name r) ps →
    g.Adds (g.addPatterns ps).2 ∧ (g.addPatterns ps).2.UnfoldsAll g.Stands ps (g.addPatterns ps).1
  | [], g, _ => ⟨.refl g, trivial⟩
  | p :: ps, g, ⟨h, hs⟩ => by
    obtain ⟨hadds, hp⟩ := addPattern_spec p g h
    rw [← hadds.stands_eq] at hs
    obtain ⟨hadds', hps⟩ := addPatterns_spec ps (g.addPattern p).2 hs
    rw [hadds.stands_eq] at hps
    exact ⟨hadds.trans hadds', hp.grow hadds'.nodes, hps⟩

end

/-- The rules of a grammar get roots: its names and its nodes stay. --/
structure Fills (g g' : Grammar) : Prop where
  names : g'.slots.map Slot.name = g.slots.map Slot.name
  nodes : ∀ (i : NodeId) (n : Node), g.nodes[i]? = some n → g'.nodes[i]? = some n
  name : g'.name = g.name

theorem Fills.refl (g : Grammar) : g.Fills g := ⟨rfl, fun _ _ h => h, rfl⟩

theorem Fills.trans {g'' : Grammar} (h₁ : g.Fills g') (h₂ : g'.Fills g'') : g.Fills g'' :=
  ⟨h₂.names.trans h₁.names, fun i n h => h₂.nodes i n (h₁.nodes i n h), h₂.name.trans h₁.name⟩

theorem Adds.fills (h : g.Adds g') : g.Fills g' := ⟨by rw [h.slots], h.nodes, h.name⟩

theorem stands_congr (h : g'.slots.map Slot.name = g.slots.map Slot.name) : g'.Stands = g.Stands := by
  have hfind : ∀ (g : Grammar) (name : String),
      g.find? name = (g.slots.map Slot.name).findIdx? fun n => sameName n name := by
    intro g name
    rw [Array.findIdx?_map]
    rfl
  funext name r
  rw [Stands, Stands, hfind, hfind, h]

theorem find?_congr_names (h : g'.slots.map Slot.name = g.slots.map Slot.name) (name : String) :
    g'.find? name = g.find? name :=
  Option.ext fun r => iff_of_eq (congrFun (congrFun (stands_congr h) name) r)

theorem Fills.stands_eq (h : g.Fills g') : g'.Stands = g.Stands := stands_congr h.names

theorem names_setRoot (g : Grammar) (r : RuleId) (root : NodeId) :
    (g.setRoot r root).slots.map Slot.name = g.slots.map Slot.name := by
  refine Array.ext_getElem? fun q => ?_
  rw [Array.getElem?_map, Array.getElem?_map, getElem?_setRoot, Option.map_map]
  congr 1
  funext s
  dsimp only [Function.comp_apply]
  split <;> rfl

/-- A declared rule is defined by a pattern of declared rules, and the others are as before. --/
theorem definePattern_spec {name : String} {r : RuleId} {p : Pattern String} (hr : g.Stands name r)
    (hp : p.Refers fun name => ∃ r, g.Stands name r) :
    g.Fills (g.definePattern name p) ∧
      (∃ i, (g.definePattern name p).root? r = some i ∧ (g.definePattern name p).Unfolds g.Stands p i) ∧
      ∀ q, q ≠ r → (g.definePattern name p).root? q = g.root? q := by
  obtain ⟨hadds, hunf⟩ := addPattern_spec p g hp
  have hr' : (g.addPattern p).2.find? name = some r := by
    have := hadds.stands_eq ▸ hr
    exact this
  have hdef : g.definePattern name p =
      { (g.addPattern p).2.setRoot r (g.addPattern p).1 with firstSets := none } := by
    rw [definePattern]
    dsimp only
    rw [define, declare_eq_self _ hr']
  have hroot : ∀ q, (g.definePattern name p).root? q =
      if r = q ∧ q < (g.addPattern p).2.slots.size then some (g.addPattern p).1 else (g.addPattern p).2.root? q := by
    intro q
    rw [hdef, ← root?_setRoot]
    rfl
  refine ⟨⟨?_, ?_, ?_⟩, ⟨(g.addPattern p).1, ?_, ?_⟩, fun q hq => ?_⟩
  · rw [hdef]
    exact (names_setRoot _ r _).trans hadds.fills.names
  · rw [hdef]
    exact hadds.nodes
  · rw [hdef]
    exact hadds.name
  · rw [hroot, if_pos ⟨rfl, lt_size_of_find? hr'⟩]
  · rw [hdef]
    refine hunf.grow ?_
    exact fun _ _ h => h
  · rw [hroot, if_neg fun h => hq h.1.symm, root?, hadds.slots, root?]

/-- Two names of one place are the same name. --/
theorem Stands.sameName {name name' : String} {r : RuleId} (h : g.Stands name r) (h' : g.Stands name' r) :
    sameName name name' = true := by
  obtain ⟨⟨s, hs, hname⟩, -⟩ := find?_eq_some_iff.mp h
  obtain ⟨⟨t, ht, hname'⟩, -⟩ := find?_eq_some_iff.mp h'
  obtain rfl : s = t := Option.some.inj (hs.symm.trans ht)
  rw [sameName_iff] at hname hname' ⊢
  exact hname.symm.trans hname'

/-- Declared rules of different names are all defined by their patterns. --/
theorem definePatterns_spec : ∀ (rules : List (String × Pattern String)) (g : Grammar),
    (∀ x ∈ rules, (∃ r, g.Stands x.1 r) ∧ x.2.Refers fun name => ∃ r, g.Stands name r) →
    (rules.map Prod.fst).Pairwise (fun a b => sameName a b = false) →
    g.Fills (rules.foldl (fun g x => g.definePattern x.1 x.2) g) ∧
      (∀ x ∈ rules, ∃ r i, g.Stands x.1 r ∧ (rules.foldl (fun g x => g.definePattern x.1 x.2) g).root? r = some i ∧
        (rules.foldl (fun g x => g.definePattern x.1 x.2) g).Unfolds g.Stands x.2 i) ∧
      ∀ q, (∀ x ∈ rules, ¬g.Stands x.1 q) →
        (rules.foldl (fun g x => g.definePattern x.1 x.2) g).root? q = g.root? q
  | [], g, _, _ => ⟨.refl g, nofun, fun _ _ => rfl⟩
  | (name, p) :: rules, g, h, hdis => by
    obtain ⟨⟨r, hr⟩, hp⟩ := h (name, p) List.mem_cons_self
    obtain ⟨hne, hdis⟩ := List.pairwise_cons.mp hdis
    obtain ⟨hfill, ⟨i, hroot, hunf⟩, hother⟩ := definePattern_spec hr hp
    have hrest : ∀ x ∈ rules, (∃ r, (g.definePattern name p).Stands x.1 r) ∧
        x.2.Refers fun other => ∃ r, (g.definePattern name p).Stands other r := by
      intro x hx
      rw [hfill.stands_eq]
      exact h x (List.mem_cons_of_mem _ hx)
    obtain ⟨hfill', hrules, hother'⟩ := definePatterns_spec rules (g.definePattern name p) hrest hdis
    rw [hfill.stands_eq] at hrules hother'
    rw [List.foldl_cons]
    refine ⟨hfill.trans hfill', fun x hx => ?_, fun q hq => ?_⟩
    · rcases List.mem_cons.mp hx with rfl | hx
      · -- The rules behind have other names, so they leave this one as it is.
        refine ⟨r, i, hr, ?_, hunf.grow hfill'.nodes⟩
        rw [hother' r fun x hx hxr => ?_, hroot]
        have := hne x.1 (List.mem_map_of_mem hx)
        rw [Stands.sameName hr hxr] at this
        cases this
      · exact hrules x hx
    · rw [hother' q fun x hx => hq x (List.mem_cons_of_mem _ hx)]
      refine hother q fun hqr => ?_
      exact hq _ List.mem_cons_self (hqr ▸ hr)

end

end Grammar
end Abnf
