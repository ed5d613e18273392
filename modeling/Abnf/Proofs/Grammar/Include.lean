import Abnf.Proofs.Grammar.Meaning

/-! Including a grammar in another. What the other gives its names stays (`Gives.includeBase`), and a name that it
    leaves without a root is given what the included grammar makes of it (`gives_includeBase`): the copies
    of the nodes mean what the nodes meant, with references by name. -/

namespace Abnf

namespace Pattern

variable {ρ α : Type}

mutual

/-- The pattern with other marks for its rules. --/
def rename (mark : ρ → α) : Pattern ρ → Pattern α
  | literal bs ignoreCase => literal bs ignoreCase
  | charRange lo hi => charRange lo hi
  | sequence ps => sequence (renames mark ps)
  | choice ps => choice (renames mark ps)
  | repetition p min max => repetition (rename mark p) min max
  | ruleRef r => ruleRef (mark r)
  | fold p => fold (rename mark p)

def renames (mark : ρ → α) : List (Pattern ρ) → List (Pattern α)
  | [] => []
  | p :: ps => rename mark p :: renames mark ps

end

mutual

theorem reader_rename (mark : ρ → α) (input : ByteArray) (rules : α → Reader) : ∀ p : Pattern ρ,
    (p.rename mark).reader input rules = p.reader input fun r => rules (mark r)
  | literal .. | charRange .. | ruleRef _ => rfl
  | sequence ps => congrArg Reader.inOrder (readers_renames mark input rules ps)
  | choice ps => congrArg Reader.firstOf (readers_renames mark input rules ps)
  | repetition p min max =>
    congrArg (Reader.times input.size min.toNat (max.map UInt32.toNat)) (reader_rename mark input rules p)
  | fold p => by
    rw [rename, reader, reader]
    exact reader_rename mark input rules p

theorem readers_renames (mark : ρ → α) (input : ByteArray) (rules : α → Reader) : ∀ ps : List (Pattern ρ),
    readers input rules (renames mark ps) = readers input (fun r => rules (mark r)) ps
  | [] => rfl
  | p :: ps => by rw [renames, readers, readers, reader_rename mark input rules p, readers_renames mark input rules ps]

end

end Pattern

namespace Grammar

/-! ### Names -/

section
variable (g : Grammar)

theorem grows_declareAll : ∀ (names : List String) (g : Grammar), g.Grows (g.declareAll names)
  | [], g => .refl g
  | name :: names, g => (grows_declare g name).trans (grows_declareAll names (g.declare name).2)

theorem root?_declareAll (r : RuleId) : ∀ (names : List String) (g : Grammar), (g.declareAll names).root? r = g.root? r
  | [], _ => rfl
  | name :: names, g => (root?_declareAll r names (g.declare name).2).trans (root?_declare g name r)

theorem nodes_declareAll : ∀ (names : List String) (g : Grammar), (g.declareAll names).nodes = g.nodes
  | [], _ => rfl
  | name :: names, g => (nodes_declareAll names (g.declare name).2).trans (nodes_declare g name)

theorem WellFormed.declareAll : ∀ (names : List String) {g : Grammar}, g.WellFormed → (g.declareAll names).WellFormed
  | [], _, hw => hw
  | name :: names, _, hw => WellFormed.declareAll names (hw.declare name)

theorem declareAll_append (names others : List String) (g : Grammar) :
    g.declareAll (names ++ others) = (g.declareAll names).declareAll others := List.foldl_append

/-- Which names have a place where depends on nothing but the names. --/
theorem names_declareAll_congr : ∀ (names : List String) {g g' : Grammar},
    g'.slots.map Slot.name = g.slots.map Slot.name →
    (g'.declareAll names).slots.map Slot.name = (g.declareAll names).slots.map Slot.name
  | [], _, _, h => h
  | name :: names, g, g', h => by
    have hdeclare : (g'.declare name).2.slots.map Slot.name = (g.declare name).2.slots.map Slot.name := by
      rw [declare, declare, find?_congr_names h]
      cases g.find? name with
      | some r => exact h
      | none =>
        dsimp only
        rw [Array.map_push, Array.map_push, h]
    exact names_declareAll_congr names hdeclare

/-- Declared names have a place. --/
theorem exists_find?_declareAll {name : String} : ∀ {names : List String} (g : Grammar), name ∈ names →
    ∃ r, (g.declareAll names).find? name = some r
  | other :: names, g, h => by
    rcases List.mem_cons.mp h with rfl | h
    · exact ⟨_, (grows_declareAll names (g.declare name).2).find? (find?_declare g name)⟩
    · exact exists_find?_declareAll (g.declare other).2 h

end

/-! ### Copies -/

section
variable {g base : Grammar}

/-- The grammar with a place for each name of an included one. --/
def withNames (g base : Grammar) : Grammar := g.declareAll (base.slots.toList.map Slot.name)

theorem names_includeBase (g base : Grammar) :
    (g.includeBase base).slots.map Slot.name = (g.withNames base).slots.map Slot.name := by
  rw [includeBase, Array.map_map]
  refine congrArg (fun name => Array.map name _) (funext fun s => ?_)
  dsimp only [Function.comp_apply, fillSlot]
  split <;> rfl

theorem stands_includeBase (g base : Grammar) : (g.includeBase base).Stands = (g.withNames base).Stands :=
  stands_congr (names_includeBase g base)

theorem getElem?_includeBase_left {i : NodeId} {n : Node} (h : g.nodes[i]? = some n) :
    (g.includeBase base).nodes[i]? = some n := by
  have hlt := (Array.getElem?_eq_some_iff.mp h).1
  rw [includeBase, Array.getElem?_append_left hlt, h]

theorem getElem?_includeBase_right (g base : Grammar) (i : NodeId) :
    (g.includeBase base).nodes[i + g.nodes.size]? = base.nodes[i]?.map fun n =>
      n.map (· + g.nodes.size) fun r => ((g.withNames base).placesOf base).getD r 0 := by
  rw [includeBase, Array.getElem?_append_right (Nat.le_add_left _ _), Nat.add_sub_cancel, Array.getElem?_map]
  rfl

theorem grows_includeBase (g base : Grammar) : g.Grows (g.includeBase base) where
  nodes _ _ h := getElem?_includeBase_left h
  names r s h := by
    obtain ⟨t, ht, hts⟩ := (grows_declareAll (base.slots.toList.map Slot.name) g).names r s h
    refine ⟨base.fillSlot g.nodes.size t, ?_, ?_⟩
    · rw [includeBase, Array.getElem?_map, ht]
      rfl
    · unfold fillSlot
      split <;> exact hts

/-- A rule of the included grammar has a place by its name. --/
theorem stands_places {r : RuleId} (hr : r < base.slots.size) :
    (g.includeBase base).Stands (base.ruleName r) (((g.withNames base).placesOf base).getD r 0) := by
  have hmem : base.slots[r].name ∈ base.slots.toList.map Slot.name :=
    List.mem_map_of_mem (Array.mem_toList_iff.mpr (Array.getElem_mem hr))
  obtain ⟨q, hq⟩ := exists_find?_declareAll g hmem
  have hplace : ((g.withNames base).placesOf base).getD r 0 = q := by
    rw [Array.getD_eq_getD_getElem?, placesOf, Array.getElem?_map, Array.getElem?_eq_getElem hr, Option.map_some,
      withNames, hq]
    rfl
  rw [stands_includeBase, hplace, ruleName_eq (Array.getElem?_eq_getElem hr)]
  exact hq

mutual

/-- The copy of a node unfolds to the pattern of the node, with rules by name. --/
theorem unfolds_copy (hw : base.WellFormed) : ∀ {p : Pattern RuleId} {i : NodeId}, base.Unfolds Eq p i →
    (g.includeBase base).Unfolds (g.includeBase base).Stands (p.rename base.ruleName) (i + g.nodes.size)
  | .literal .., i, hu | .charRange .., i, hu => by
    refine (getElem?_includeBase_right g base i).trans ?_
    rw [show base.nodes[i]? = _ from hu]
    rfl
  | .sequence ps, i, hu | .choice ps, i, hu => by
    obtain ⟨ns, hn, hns⟩ := hu
    refine ⟨ns.map (· + g.nodes.size), (getElem?_includeBase_right g base i).trans ?_, unfolds_copies hw hns⟩
    rw [hn]
    rfl
  | .repetition p _ _, i, hu | .fold p, i, hu => by
    obtain ⟨n, hn, hp⟩ := hu
    refine ⟨n + g.nodes.size, (getElem?_includeBase_right g base i).trans ?_, unfolds_copy hw hp⟩
    rw [hn]
    rfl
  | .ruleRef r, i, hu => by
    obtain ⟨q, hn, rfl⟩ := hu
    refine ⟨_, (getElem?_includeBase_right g base i).trans ?_, stands_places ?_⟩
    · rw [hn]
      rfl
    · exact hw.referred _ (Array.mem_of_getElem? hn) r List.mem_cons_self

theorem unfolds_copies (hw : base.WellFormed) : ∀ {ps : List (Pattern RuleId)} {ns : List NodeId},
    base.UnfoldsAll Eq ps ns → (g.includeBase base).UnfoldsAll (g.includeBase base).Stands
      (Pattern.renames base.ruleName ps) (ns.map (· + g.nodes.size))
  | [], [], _ => trivial
  | _ :: _, _ :: _, ⟨hp, hps⟩ => ⟨unfolds_copy hw hp, unfolds_copies hw hps⟩
  | [], _ :: _, hu | _ :: _, [], hu => hu.elim

end

/-! ### Roots -/

theorem root?_includeBase {r : RuleId} {s : Slot} (hs : (g.withNames base).slots[r]? = some s) :
    (g.includeBase base).root? r =
      s.root.or (((base.find? s.name).bind base.root?).map (· + g.nodes.size)) := by
  rw [includeBase, root?, Array.getElem?_map, show (g.declareAll _).slots[r]? = some s from hs, Option.map_some,
    Option.bind_some, fillSlot]
  cases hroot : s.root with
  | some i => exact hroot
  | none => rfl

/-- A rule has the root that it had, else the one that the included grammar gives its name. --/
theorem root?_includeBase_or (g base : Grammar) (r : RuleId) : (g.includeBase base).root? r = (g.root? r).or
    ((((g.withNames base).slots.map Slot.name)[r]?.bind fun name => (base.find? name).bind base.root?).map
      (· + g.nodes.size)) := by
  have hroot : (g.withNames base).root? r = g.root? r := root?_declareAll r _ g
  rw [← hroot, Array.getElem?_map]
  cases hs : (g.withNames base).slots[r]? with
  | some s =>
    rw [root?_includeBase hs, root?, hs]
    rfl
  | none =>
    have hnone : (g.includeBase base).slots[r]? = none := by
      rw [includeBase, Array.getElem?_map, show (g.declareAll _).slots[r]? = none from hs, Option.map_none]
    rw [root?, hnone, root?, hs]
    rfl

/-- The names of a grammar that is included do not change what the other gives. --/
theorem Gives.withNames {input : ByteArray} {name : String} {m : Option Meaning} (hm : g.Gives input name m) :
    (g.withNames base).Gives input name m :=
  hm.grow (grows_declareAll _ g) fun r => root?_declareAll r _ g

theorem Gives.includeBase {input : ByteArray} {name : String} {f : Meaning} (hm : g.Gives input name (some f)) :
    (g.includeBase base).Gives input name (some f) := by
  obtain ⟨r, i, hr, hi, hf⟩ := hm
  obtain ⟨s, hs, hroot⟩ := root?_eq_some_iff.mp ((root?_declareAll r (base.slots.toList.map Slot.name) g).trans hi)
  refine ⟨r, i, (grows_includeBase g base).find? hr, ?_, hf.grow (grows_includeBase g base)⟩
  rw [root?_includeBase hs, hroot]
  rfl

/-- A name without a root means what it means in the included grammar. --/
theorem gives_includeBase (hw : base.WellFormed) {input : ByteArray} {name : String}
    (hm : g.Gives input name none) : (g.includeBase base).Gives input name (base.meaning? input name) := by
  have hroot : ∀ r, (g.withNames base).find? name = some r →
      (g.includeBase base).root? r = ((base.find? name).bind base.root?).map (· + g.nodes.size) := by
    intro r hr
    obtain ⟨⟨s, hs, hname⟩, -⟩ := find?_eq_some_iff.mp hr
    have hnone : s.root = none := by
      have := hm.withNames r hr
      rwa [root?, hs, Option.bind_some] at this
    rw [root?_includeBase hs, hnone, find?_sameName hname]
    rfl
  have hfind : ∀ r, (g.includeBase base).find? name = some r ↔ (g.withNames base).find? name = some r := fun r =>
    iff_of_eq (congrFun (congrFun (stands_includeBase g base) name) r)
  -- The slot of the name has no root, so it takes that of the base, moved behind the nodes that were there.
  unfold meaning?
  cases hbase : (base.find? name).bind base.root? with
  | none =>
    intro r hr
    rw [hroot r ((hfind r).mp hr), hbase]
    rfl
  | some i =>
    obtain ⟨q, hq, hqi⟩ := Option.bind_eq_some_iff.mp hbase
    obtain ⟨⟨t, ht, hname⟩, -⟩ := find?_eq_some_iff.mp hq
    have hplace : (g.includeBase base).Stands (base.ruleName q) (((g.withNames base).placesOf base).getD q 0) :=
      stands_places (lt_size_of_find? hq)
    rw [ruleName_eq ht] at hplace
    have hplace : (g.includeBase base).find? name = _ := (find?_sameName hname).symm.trans hplace
    refine ⟨_, i + g.nodes.size, hplace, ?_, ?_⟩
    · rw [hroot _ ((hfind _).mp hplace), hbase]
      rfl
    · refine ⟨_, unfolds_copy hw (hw.unfolds_pattern (hw.roots q i hqi)), fun rules => ?_⟩
      exact Pattern.reader_rename base.ruleName input rules _

/-! ### Well-formedness -/

theorem mem_children_map {n : Node} {node : NodeId → NodeId} {rule : RuleId → RuleId} {c : NodeId}
    (h : c ∈ (n.map node rule).children) : ∃ d ∈ n.children, c = node d := by
  cases n with
  | literal | charRange | ruleRef => cases h
  | sequence ns | choice ns =>
    obtain ⟨d, hd, rfl⟩ := List.mem_map.mp h
    exact ⟨d, hd, rfl⟩
  | repetition d | fold d => exact ⟨d, List.mem_cons_self, List.mem_singleton.mp h⟩

theorem mem_rules_map {n : Node} {node : NodeId → NodeId} {rule : RuleId → RuleId} {r : RuleId}
    (h : r ∈ (n.map node rule).rules) : ∃ q ∈ n.rules, r = rule q := by
  cases n with
  | ruleRef q => exact ⟨q, List.mem_cons_self, List.mem_singleton.mp h⟩
  | _ => cases h

theorem size_includeBase (g base : Grammar) : (g.includeBase base).nodes.size = g.nodes.size + base.nodes.size := by
  rw [includeBase, Array.size_append, Array.size_map]

/-- What is put together of two linked grammars is linked, whether their names agree or not. --/
theorem Linked.includeBase (hg : g.Linked) (hb : base.Linked) : (g.includeBase base).Linked where
  parts i n h c hc := by
    rcases Nat.lt_or_ge i g.nodes.size with hlt | hge
    · refine hg.parts i n ?_ c hc
      rwa [Grammar.includeBase, Array.getElem?_append_left hlt] at h
    · obtain ⟨k, rfl⟩ := Nat.exists_eq_add_of_le' hge
      rw [getElem?_includeBase_right] at h
      obtain ⟨m, hm, rfl⟩ := Option.map_eq_some_iff.mp h
      obtain ⟨d, hd, rfl⟩ := mem_children_map hc
      exact Nat.add_lt_add_right (hb.parts k m hm d hd) _
  referred n hn r hr := by
    rcases Array.mem_append.mp hn with hn | hn
    · exact Nat.lt_of_lt_of_le (hg.referred n hn r hr) (grows_includeBase g base).size_slots_le
    · obtain ⟨m, hm, rfl⟩ := Array.mem_map.mp hn
      obtain ⟨q, hq, rfl⟩ := mem_rules_map hr
      exact lt_size_of_find? (stands_places (hb.referred m hm q hq))
  roots r i h := by
    rw [size_includeBase]
    rw [root?_includeBase_or, Option.or_eq_some_iff] at h
    rcases h with h | ⟨-, h⟩
    · exact Nat.lt_of_lt_of_le (hg.roots r i h) (Nat.le_add_right _ _)
    · obtain ⟨k, hk, rfl⟩ := Option.map_eq_some_iff.mp h
      obtain ⟨name, -, hk⟩ := Option.bind_eq_some_iff.mp hk
      obtain ⟨q, -, hq⟩ := Option.bind_eq_some_iff.mp hk
      rw [Nat.add_comm g.nodes.size]
      exact Nat.add_lt_add_right (hb.roots q k hq) _

theorem WellFormed.includeBase (hg : g.WellFormed) (hb : base.WellFormed) : (g.includeBase base).WellFormed :=
  { hg.linked.includeBase hb.linked with
    distinct := fun r q s t hs ht hst => by
      have hslot : ∀ (p : RuleId) (u : Slot), (g.includeBase base).slots[p]? = some u →
          ∃ v, (g.withNames base).slots[p]? = some v ∧ v.name = u.name := by
        intro p u hu
        have hname : ((g.includeBase base).slots.map Slot.name)[p]? = some u.name := by
          rw [Array.getElem?_map, hu]
          rfl
        rw [names_includeBase, Array.getElem?_map] at hname
        exact Option.map_eq_some_iff.mp hname
      obtain ⟨s', hs', hsn⟩ := hslot r s hs
      obtain ⟨t', ht', htn⟩ := hslot q t ht
      exact (WellFormed.declareAll _ hg).distinct r q s' t' hs' ht' (hsn ▸ htn ▸ hst)
    sets := nofun }

end
end Grammar
end Abnf
