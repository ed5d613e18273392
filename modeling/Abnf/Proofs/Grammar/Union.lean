import Abnf.Proofs.Grammar.Include

/-! Inclusion is a union of rule tables. A table lists names, each with the tree that defines it if there is one, and the
    union of two prefers what the first says (`RuleTable.union`). It is associative, and a table adds nothing to itself.
    The table of a grammar in which another is included is the union of their tables (`Grammar.table_includeBase`):
    the two lay out their nodes and places differently, and what they have in common are the trees with references by
    name. -/

namespace Abnf

/-- Names in the spelling of their first mention, each with what defines it. --/
abbrev RuleTable (τ : Type) := List (String × Option τ)

namespace RuleTable

variable {τ : Type}

/-- Whether a name has an entry. --/
def has (t : RuleTable τ) (name : String) : Bool := t.any fun e => sameName e.1 name

/-- What defines a name. --/
def lookup (t : RuleTable τ) (name : String) : Option τ := (t.find? fun e => sameName e.1 name).bind Prod.snd

/-- Each name has one entry. --/
def Distinct (t : RuleTable τ) : Prop := t.Pairwise fun e f => sameName e.1 f.1 = false

/-- The first table with the definitions that it lacks taken from the second, and behind it the entries of the second
    for other names. --/
def union (t u : RuleTable τ) : RuleTable τ :=
  t.map (fun e => (e.1, e.2.or (u.lookup e.1))) ++ u.filter fun e => !t.has e.1

section
variable {t u v : RuleTable τ} {name name' : String}

theorem has_iff : t.has name = true ↔ ∃ e ∈ t, sameName e.1 name = true := List.any_eq_true

theorem has_sameName (t : RuleTable τ) (h : sameName name name' = true) : t.has name = t.has name' := by
  rw [sameName_iff] at h
  simp only [has, sameName, h]

theorem lookup_sameName (t : RuleTable τ) (h : sameName name name' = true) : t.lookup name = t.lookup name' := by
  rw [sameName_iff] at h
  simp only [lookup, sameName, h]

theorem has_union (t u : RuleTable τ) (name : String) : (t.union u).has name = (t.has name || u.has name) := by
  rw [Bool.eq_iff_iff, Bool.or_eq_true, has_iff, has_iff, has_iff]
  simp only [union, List.mem_append, List.mem_map, List.mem_filter]
  constructor
  · rintro ⟨e, ⟨f, hf, rfl⟩ | ⟨he, -⟩, hname⟩
    · exact Or.inl ⟨f, hf, hname⟩
    · exact Or.inr ⟨e, he, hname⟩
  · rintro (⟨e, he, hname⟩ | ⟨e, he, hname⟩)
    · exact ⟨_, Or.inl ⟨e, he, rfl⟩, hname⟩
    · cases h : t.has e.1 with
      | false => exact ⟨e, Or.inr ⟨he, by rw [h]; rfl⟩, hname⟩
      | true =>
        obtain ⟨f, hf, hfe⟩ := has_iff.mp h
        rw [sameName_iff] at hfe hname
        exact ⟨_, Or.inl ⟨f, hf, rfl⟩, sameName_iff.mpr (hfe.trans hname)⟩

theorem lookup_union (t u : RuleTable τ) (name : String) :
    (t.union u).lookup name = (t.lookup name).or (u.lookup name) := by
  rw [lookup, union, List.find?_append, List.find?_map, Function.comp_def, lookup]
  cases ht : t.find? fun e => sameName e.1 name with
  | some e =>
    have he := List.find?_some ht
    rw [Option.map_some, Option.some_or, Option.bind_some, Option.bind_some, lookup_sameName u he]
  | none =>
    -- Entries of the second table for the name are kept, since the first has none.
    have hnone : t.has name = false := by
      rw [has, List.any_eq_false]
      exact fun e he => List.find?_eq_none.mp ht e he
    rw [Option.map_none, Option.none_or, Option.bind_none, Option.none_or, List.find?_filter, lookup]
    congr 2
    funext e
    cases h : sameName e.1 name with
    | false => simp
    | true => simp [has_sameName t h, hnone]

theorem union_assoc (t u v : RuleTable τ) : (t.union u).union v = t.union (u.union v) := by
  have hfill : ∀ e : String × Option τ, (e.2.or (u.lookup e.1)).or (v.lookup e.1) = e.2.or ((u.union v).lookup e.1) := by
    intro e
    rw [lookup_union, Option.or_assoc]
  have hrest : (v.filter fun e => !(t.union u).has e.1) = (v.filter fun e => !u.has e.1).filter fun e => !t.has e.1 := by
    rw [List.filter_filter]
    refine List.filter_congr fun e _ => ?_
    rw [has_union, Bool.not_or]
  rw [union, hrest, union, List.map_append, List.map_map, List.append_assoc]
  refine congrArg₂ (· ++ ·) (List.map_congr_left fun e _ => Prod.ext rfl (hfill e)) ?_
  rw [union, List.filter_append, List.filter_map]
  rfl

theorem Distinct.lookup_eq {e : String × Option τ} : ∀ {t : RuleTable τ}, t.Distinct → e ∈ t → t.lookup e.1 = e.2
  | f :: t, h, he => by
    obtain ⟨hf, ht⟩ := List.pairwise_cons.mp h
    rw [lookup, List.find?_cons]
    rcases List.mem_cons.mp he with rfl | he
    · rw [sameName_refl]
      rfl
    · rw [hf e he]
      exact Distinct.lookup_eq ht he

theorem Distinct.union_self (h : t.Distinct) : t.union t = t := by
  have hmap : t.map (fun e => (e.1, e.2.or (t.lookup e.1))) = t := by
    rw [List.map_congr_left (g := id), List.map_id]
    intro e he
    rw [h.lookup_eq he, Option.or_self, id]
  have hfilter : (t.filter fun e => !t.has e.1) = [] := by
    refine List.filter_eq_nil_iff.mpr fun e he => ?_
    rw [has_iff.mpr ⟨e, he, sameName_refl e.1⟩]
    exact Bool.false_ne_true
  rw [union, hmap, hfilter, List.append_nil]

end

end RuleTable

namespace Grammar

/-! ### Trees -/

section
variable {ρ ρ' α : Type} {g : Grammar} {stands : ρ → RuleId → Prop} {stands' : ρ' → RuleId → Prop}

/-- The node says what a pattern looks like that it unfolds to. --/
theorem Unfolds.at_node {p : Pattern ρ} {i : NodeId} {n : Node} (hu : g.Unfolds stands p i)
    (hn : g.nodes[i]? = some n) :
    match n with
    | .literal bs ignoreCase => p = .literal bs ignoreCase
    | .charRange lo hi => p = .charRange lo hi
    | .sequence ns => ∃ ps, p = .sequence ps ∧ g.UnfoldsAll stands ps ns
    | .choice ns => ∃ ps, p = .choice ps ∧ g.UnfoldsAll stands ps ns
    | .repetition c min max => ∃ q, p = .repetition q min max ∧ g.Unfolds stands q c
    | .ruleRef r => ∃ x, p = .ruleRef x ∧ stands x r
    | .fold c => ∃ q, p = .fold q ∧ g.Unfolds stands q c := by
  cases p with
  | literal | charRange =>
    cases hn.symm.trans hu
    rfl
  | sequence | choice | repetition | ruleRef | fold =>
    obtain ⟨_, hm, hparts⟩ := hu
    cases hn.symm.trans hm
    exact ⟨_, rfl, hparts⟩

mutual

theorem Unfolds.rename_eq {f : ρ → α} {f' : ρ' → α} (h : ∀ x y r, stands x r → stands' y r → f x = f' y) :
    ∀ {p : Pattern ρ} {q : Pattern ρ'} {i : NodeId}, g.Unfolds stands p i → g.Unfolds stands' q i →
      p.rename f = q.rename f'
  | .literal .., q, i, hp, hq | .charRange .., q, i, hp, hq => by
    obtain rfl := hq.at_node hp
    rfl
  | .sequence ps, q, i, hp, hq => by
    obtain ⟨ns, hn, hps⟩ := hp
    obtain ⟨qs, rfl, hqs⟩ := hq.at_node hn
    exact congrArg Pattern.sequence (UnfoldsAll.renames_eq h hps hqs)
  | .choice ps, q, i, hp, hq => by
    obtain ⟨ns, hn, hps⟩ := hp
    obtain ⟨qs, rfl, hqs⟩ := hq.at_node hn
    exact congrArg Pattern.choice (UnfoldsAll.renames_eq h hps hqs)
  | .repetition p min max, q, i, hp, hq => by
    obtain ⟨c, hn, hp⟩ := hp
    obtain ⟨q, rfl, hq'⟩ := hq.at_node hn
    exact congrArg (Pattern.repetition · min max) (Unfolds.rename_eq h hp hq')
  | .ruleRef x, q, i, hp, hq => by
    obtain ⟨r, hn, hx⟩ := hp
    obtain ⟨y, rfl, hy⟩ := hq.at_node hn
    exact congrArg Pattern.ruleRef (h x y r hx hy)
  | .fold p, q, i, hp, hq => by
    obtain ⟨c, hn, hp⟩ := hp
    obtain ⟨q, rfl, hq'⟩ := hq.at_node hn
    exact congrArg Pattern.fold (Unfolds.rename_eq h hp hq')

theorem UnfoldsAll.renames_eq {f : ρ → α} {f' : ρ' → α} (h : ∀ x y r, stands x r → stands' y r → f x = f' y) :
    ∀ {ps : List (Pattern ρ)} {qs : List (Pattern ρ')} {ns : List NodeId}, g.UnfoldsAll stands ps ns →
      g.UnfoldsAll stands' qs ns → Pattern.renames f ps = Pattern.renames f' qs
  | [], [], [], _, _ => rfl
  | p :: ps, q :: qs, n :: ns, ⟨hp, hps⟩, ⟨hq, hqs⟩ => by
    rw [Pattern.renames, Pattern.renames, Unfolds.rename_eq h hp hq, UnfoldsAll.renames_eq h hps hqs]
  | [], _ :: _, [], _, hqs => hqs.elim
  | _ :: _, [], _ :: _, _, hqs => hqs.elim
  | [], _, _ :: _, hps, _ | _ :: _, _, [], hps, _ => hps.elim

end

mutual

theorem Unfolds.named (hw : g.WellFormed) : ∀ {p : Pattern RuleId} {i : NodeId}, g.Unfolds Eq p i →
    g.Unfolds g.Stands (p.rename g.ruleName) i
  | .literal .., _, hu | .charRange .., _, hu => hu
  | .sequence ps, i, hu | .choice ps, i, hu => by
    obtain ⟨ns, hn, hns⟩ := hu
    exact ⟨ns, hn, UnfoldsAll.named hw hns⟩
  | .repetition p _ _, i, hu | .fold p, i, hu => by
    obtain ⟨c, hn, hp⟩ := hu
    exact ⟨c, hn, Unfolds.named hw hp⟩
  | .ruleRef r, i, hu => by
    obtain ⟨q, hn, rfl⟩ := hu
    have hr : r < g.slots.size := hw.referred _ (Array.mem_of_getElem? hn) r List.mem_cons_self
    have hs := Array.getElem?_eq_getElem hr
    refine ⟨r, hn, ?_⟩
    rw [ruleName_eq hs]
    exact hw.distinct.find?_name hs

theorem UnfoldsAll.named (hw : g.WellFormed) : ∀ {ps : List (Pattern RuleId)} {ns : List NodeId},
    g.UnfoldsAll Eq ps ns → g.UnfoldsAll g.Stands (Pattern.renames g.ruleName ps) ns
  | [], [], _ => trivial
  | _ :: _, _ :: _, ⟨hp, hps⟩ => ⟨Unfolds.named hw hp, UnfoldsAll.named hw hps⟩
  | [], _ :: _, hu | _ :: _, [], hu => hu.elim

end

end

/-- The tree of a node: its pattern, with references as lower-cased names. --/
def treeAt (g : Grammar) (i : NodeId) : Pattern String := ((g.pattern i).rename g.ruleName).rename foldCase

/-- The tree that defines a name. --/
def tree? (g : Grammar) (name : String) : Option (Pattern String) := ((g.find? name).bind g.root?).map g.treeAt

/-- What a slot says in a grammar: a name, and the tree that defines it. --/
def entry (g : Grammar) (s : Slot) : String × Option (Pattern String) := (s.name, s.root.map g.treeAt)

/-- The names of a grammar, in their places, with the trees that define them. --/
def table (g : Grammar) : RuleTable (Pattern String) := g.slots.toList.map g.entry

section
variable {g base : Grammar} {i : NodeId}

/-- Whatever pattern a node unfolds to by name, its tree is that pattern. --/
theorem treeAt_eq (hw : g.WellFormed) {p : Pattern String} (hu : g.Unfolds g.Stands p i) :
    g.treeAt i = p.rename foldCase := by
  -- The node unfolds to its own pattern by name too, and two names that stand for one place are the same name.
  have hnamed := (hw.unfolds_pattern hu.lt_size).named hw
  refine Unfolds.rename_eq (fun x y r hx hy => ?_) hnamed hu
  exact sameName_iff.mp (Stands.sameName hx hy)

theorem treeAt_includeBase_left (hg : g.WellFormed) (hb : base.WellFormed) (hi : i < g.nodes.size) :
    (g.includeBase base).treeAt i = g.treeAt i :=
  have hgrow := grows_includeBase g base
  treeAt_eq (hg.includeBase hb) (((hg.unfolds_pattern hi).named hg).mono hgrow.nodes hgrow.stands)

theorem treeAt_includeBase_right (hg : g.WellFormed) (hb : base.WellFormed) (hi : i < base.nodes.size) :
    (g.includeBase base).treeAt (i + g.nodes.size) = base.treeAt i :=
  treeAt_eq (hg.includeBase hb) (unfolds_copy hb (hb.unfolds_pattern hi))

/-! ### Tables -/

theorem Distinct.distinct_table (hd : g.Distinct) : g.table.Distinct := by
  rw [table, RuleTable.Distinct, List.pairwise_map]
  exact List.pairwise_map.mp hd.pairwise

theorem has_table (g : Grammar) (name : String) : g.table.has name = (g.find? name).isSome := by
  rw [RuleTable.has, table, List.any_map, find?, Array.findIdx?_isSome, ← Array.any_toList]
  rfl

theorem lookup_table (g : Grammar) (name : String) : g.table.lookup name = g.tree? name := by
  have hslot : g.slots.toList.find? (fun s => sameName s.name name) = (g.find? name).bind (g.slots[·]?) := by
    rw [Array.find?_toList, Array.find?_eq_bind_findIdx?_getElem?, find?]
  rw [RuleTable.lookup, table, List.find?_map]
  change ((List.find? (fun s => sameName s.name name) _).map g.entry).bind Prod.snd = _
  rw [hslot, tree?]
  cases g.find? name with
  | none => rfl
  | some r => cases h : g.slots[r]? <;> simp [root?, entry, h]

theorem slots_declareAll : ∀ {names : List String} (g : Grammar), (names.Pairwise fun a b => sameName a b = false) →
    (g.declareAll names).slots.toList =
      g.slots.toList ++ (names.filter fun name => (g.find? name).isNone).map fun name => ⟨name, none⟩
  | [], g, _ => by simp [declareAll]
  | name :: names, g, hdis => by
    obtain ⟨hne, hdis⟩ := List.pairwise_cons.mp hdis
    have ih := slots_declareAll (g.declare name).2 hdis
    have hrest : (names.filter fun other => ((g.declare name).2.find? other).isNone) =
        names.filter fun other => (g.find? other).isNone :=
      List.filter_congr fun other hother => by rw [find?_declare_of_ne g (hne other hother)]
    rw [declareAll, List.foldl_cons]
    refine ih.trans ?_
    rw [hrest]
    cases h : g.find? name with
    | some r => rw [declare_eq_self g h, List.filter_cons_of_neg (by simp [h])]
    | none =>
      rw [List.filter_cons_of_pos (by simp [h]), declare, h]
      simp

/-- A slot is filled with the tree that it has, or else with that of the base. --/
theorem entry_fillSlot (hg : g.WellFormed) (hb : base.WellFormed) {s : Slot}
    (hs : ∀ i, s.root = some i → i < g.nodes.size) :
    (g.includeBase base).entry (base.fillSlot g.nodes.size s) =
      (s.name, (s.root.map g.treeAt).or (base.table.lookup s.name)) := by
  rw [lookup_table, entry, fillSlot]
  cases hroot : s.root with
  | some i => simp [hroot, treeAt_includeBase_left hg hb (hs i hroot)]
  | none =>
    dsimp only
    rw [tree?, Option.map_map, Option.map_none, Option.none_or]
    cases hbase : (base.find? s.name).bind base.root? with
    | none => rfl
    | some i =>
      obtain ⟨r, -, hr⟩ := Option.bind_eq_some_iff.mp hbase
      simp [treeAt_includeBase_right hg hb (hb.roots r i hr)]

theorem table_includeBase (hg : g.WellFormed) (hb : base.WellFormed) :
    (g.includeBase base).table = g.table.union base.table := by
  -- The slots that were there, each with what fills it.
  have hold : g.slots.toList.map (fun s => (g.includeBase base).entry (base.fillSlot g.nodes.size s)) =
      g.table.map fun e => (e.1, e.2.or (base.table.lookup e.1)) := by
    rw [show g.table = g.slots.toList.map g.entry from rfl, List.map_map]
    refine List.map_congr_left fun s hs => ?_
    obtain ⟨r, hr⟩ := Array.mem_iff_getElem?.mp (Array.mem_toList_iff.mp hs)
    exact entry_fillSlot hg hb fun i hi => hg.roots r i (root?_eq_some_iff.mpr ⟨s, hr, hi⟩)
  -- The slots of names that are new.
  have hnew : (base.slots.toList.filter fun s => (g.find? s.name).isNone).map
      (fun s => (g.includeBase base).entry (base.fillSlot g.nodes.size ⟨s.name, none⟩)) =
      base.table.filter fun e => !g.table.has e.1 := by
    have hnames : (fun s : Slot => (g.find? s.name).isNone) = (fun e => !g.table.has e.1) ∘ base.entry := by
      funext s
      rw [Function.comp_apply, has_table, Option.not_isSome]
      rfl
    rw [show base.table = base.slots.toList.map base.entry from rfl, List.filter_map, hnames]
    refine List.map_congr_left fun s hs => ?_
    have hmem : base.entry s ∈ base.table := List.mem_map_of_mem (List.mem_of_mem_filter hs)
    have hnone : ∀ i, (⟨s.name, none⟩ : Slot).root = some i → i < g.nodes.size := nofun
    rw [entry_fillSlot hg hb hnone]
    exact Prod.ext rfl (hb.distinct.distinct_table.lookup_eq hmem)
  have hslots := slots_declareAll g hb.distinct.pairwise
  rw [List.filter_map, List.map_map] at hslots
  rw [table, RuleTable.union, ← hold, ← hnew, includeBase, Array.toList_map, hslots, List.map_map, List.map_append,
    List.map_map]
  rfl

theorem tree?_includeBase (hg : g.WellFormed) (hb : base.WellFormed) (name : String) :
    (g.includeBase base).tree? name = (g.tree? name).or (base.tree? name) := by
  rw [← lookup_table, table_includeBase hg hb, RuleTable.lookup_union, lookup_table, lookup_table]

/-- The copy of a reference refers to the place of the name that the reference goes by. --/
theorem find?_of_copied_ref (hb : base.WellFormed) {q : RuleId} (hi : base.nodes[i]? = some (.ruleRef q)) :
    ∃ p, (g.includeBase base).nodes[i + g.nodes.size]? = some (.ruleRef p) ∧
      (g.includeBase base).find? (base.ruleName q) = some p := by
  have hu : base.Unfolds Eq (.ruleRef q) i := ⟨q, hi, rfl⟩
  exact unfolds_copy hb hu

end

/-- Inclusion is a left-biased union of rule tables. The names are those of the including grammar, then the new ones of
    the base in its order, each in the spelling that came first. A name is defined by the tree of the including grammar
    if that has one, else by that of the base, and so is what a copied reference arrives at. Inclusion is associative on
    tables, and including a grammar again changes nothing. --/
theorem includeBase_union {a b c : Grammar} (ha : a.WellFormed) (hb : b.WellFormed) (hc : c.WellFormed) :
    (a.includeBase b).slots.toList.map Slot.name =
        a.slots.toList.map Slot.name ++ (b.slots.toList.map Slot.name).filter (fun name => (a.find? name).isNone) ∧
      (∀ name, (a.includeBase b).tree? name = (a.tree? name).or (b.tree? name)) ∧
      (∀ i q, b.nodes[i]? = some (.ruleRef q) → ∃ p,
        (a.includeBase b).nodes[i + a.nodes.size]? = some (.ruleRef p) ∧
        sameName ((a.includeBase b).ruleName p) (b.ruleName q) = true ∧
        ((a.includeBase b).root? p).map (a.includeBase b).treeAt =
          (a.tree? (b.ruleName q)).or (b.tree? (b.ruleName q))) ∧
      ((a.includeBase b).includeBase c).table = (a.includeBase (b.includeBase c)).table ∧
      ((a.includeBase b).includeBase b).table = (a.includeBase b).table := by
  refine ⟨?_, tree?_includeBase ha hb, fun i q hi => ?_, ?_, ?_⟩
  · rw [← Array.toList_map, names_includeBase, Array.toList_map, withNames, slots_declareAll a hb.distinct.pairwise,
      List.map_append, List.map_map]
    exact congrArg (_ ++ ·) (List.map_id _)
  · obtain ⟨p, hp, hfind⟩ := find?_of_copied_ref hb hi
    obtain ⟨⟨s, hs, hname⟩, -⟩ := find?_eq_some_iff.mp hfind
    refine ⟨p, hp, ?_, ?_⟩
    · rwa [ruleName_eq hs]
    · rw [← tree?_includeBase ha hb, tree?, hfind, Option.bind_some]
  · rw [table_includeBase (ha.includeBase hb) hc, table_includeBase ha hb, table_includeBase ha (hb.includeBase hc),
      table_includeBase hb hc, RuleTable.union_assoc]
  · rw [table_includeBase (ha.includeBase hb) hb, table_includeBase ha hb, RuleTable.union_assoc,
      hb.distinct.distinct_table.union_self]

/-- Two rules of the base are copied, one of them into the slot of a name that was referred to only, and the third is
    not, since the name is defined. --/
theorem includeBase_union_shadowed :
    let a : Grammar := ⟨"a", #[.literal [0x61] false, .ruleRef 1, .sequence [0, 1]], #[⟨"x", some 2⟩, ⟨"y", none⟩], none⟩
    let b : Grammar := ⟨"b", #[.literal [0x62] false, .ruleRef 1, .sequence [0, 1], .literal [0x63] false, .ruleRef 0],
      #[⟨"y", some 2⟩, ⟨"x", some 3⟩, ⟨"z", some 4⟩], none⟩
    let c : Grammar := ⟨"c", #[.ruleRef 1], #[⟨"w", some 0⟩, ⟨"z", none⟩], none⟩
    a.WellFormed ∧ b.WellFormed ∧ c.WellFormed ∧
      (a.includeBase b).slots.toList.map Slot.name = ["x", "y", "z"] ∧
      (a.includeBase b).tree? "x" = some (a.treeAt 2) ∧ (a.includeBase b).tree? "y" = some (b.treeAt 2) ∧
      ((a.includeBase b).includeBase c).table = (a.includeBase (b.includeBase c)).table ∧
      ((a.includeBase b).includeBase b).table = (a.includeBase b).table := by
  intro a b c
  have ha : a.WellFormed := .of_passes (by decide +kernel)
  have hb : b.WellFormed := .of_passes (by decide +kernel)
  have hc : c.WellFormed := .of_passes (by decide +kernel)
  obtain ⟨hnames, htree, -, hassoc, hself⟩ := includeBase_union ha hb hc
  have hx : (a.find? "x").bind a.root? = some 2 := by decide +kernel
  have hy : (a.find? "y").bind a.root? = none ∧ (b.find? "y").bind b.root? = some 2 := by decide +kernel
  refine ⟨ha, hb, hc, hnames.trans ?_, (htree "x").trans ?_, (htree "y").trans ?_, hassoc, hself⟩
  · decide +kernel
  · rw [tree?, hx, Option.map_some, Option.some_or]
  · rw [tree?, tree?, hy.1, hy.2, Option.map_none, Option.map_some, Option.none_or]

end Grammar
end Abnf
