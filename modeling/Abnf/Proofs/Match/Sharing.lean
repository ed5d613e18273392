import Abnf.Proofs.Grammar.Include
import Abnf.Proofs.Match.Regrouping

/-! Grammars that share their patterns: they have the same names in the same places, and roots that unfold to one pattern
    with references by name, wherever the nodes lie. They resemble each other (`Shares.resembles`), and go on to share
    patterns when the same base is included in both (`Shares.includeBase`). -/

namespace Abnf

namespace Grammar

/-- A node of the one grammar and a node of the other unfold to one pattern. --/
def Alike (g g' : Grammar) (i j : NodeId) : Prop :=
  ∃ p : Pattern String, g.Unfolds g.Stands p i ∧ g'.Unfolds g'.Stands p j

/-- The same names, and roots with the same patterns. --/
structure Shares (g g' : Grammar) : Prop where
  names : g'.slots.map Slot.name = g.slots.map Slot.name
  roots : ∀ r, (g.root? r = none ∧ g'.root? r = none) ∨
    ∃ i j, g.root? r = some i ∧ g'.root? r = some j ∧ g.Alike g' i j

section
variable {g g' base : Grammar}

theorem Alike.grow {h h' : Grammar} {i j : NodeId} (ha : g.Alike g' i j) (hg : g.Grows h) (hg' : g'.Grows h') :
    h.Alike h' i j := by
  obtain ⟨p, hi, hj⟩ := ha
  exact ⟨p, hi.mono hg.nodes hg.stands, hj.mono hg'.nodes hg'.stands⟩

theorem alike_all : ∀ {ps : List (Pattern String)} {ns ns' : List NodeId}, g.UnfoldsAll g.Stands ps ns →
    g'.UnfoldsAll g'.Stands ps ns' → List.Forall₂ (g.Alike g') ns ns'
  | [], [], [], _, _ => .nil
  | p :: _, _ :: _, _ :: _, ⟨h, hs⟩, ⟨h', hs'⟩ => .cons ⟨p, h, h'⟩ (alike_all hs hs')
  | [], [], _ :: _, _, h' => h'.elim
  | [], _ :: _, _, h, _ => h.elim
  | _ :: _, [], _, h, _ => h.elim
  | _ :: _, _ :: _, [], _, h' => h'.elim

theorem Shares.resembles (h : g.Shares g') (room : Nat) : g.Resembles room (g.Alike g') g' where
  nodes i j hij := by
    obtain ⟨p, hi, hj⟩ := hij
    cases p with
    | literal bs ignoreCase => exact .similar hi hj (.leaf (Node.sameLeaf_literal bs ignoreCase))
    | charRange lo hi' => exact .similar hi hj (.leaf (Node.sameLeaf_charRange lo hi'))
    | sequence ps =>
      obtain ⟨ns, hn, hns⟩ := hi
      obtain ⟨ns', hn', hns'⟩ := hj
      exact .similar hn hn' (.sequence (alike_all hns hns'))
    | choice ps =>
      obtain ⟨ns, hn, hns⟩ := hi
      obtain ⟨ns', hn', hns'⟩ := hj
      exact .similar hn hn' (.choice (alike_all hns hns'))
    | repetition p min max =>
      obtain ⟨n, hn, hp⟩ := hi
      obtain ⟨n', hn', hp'⟩ := hj
      exact .similar hn hn' (.repetition ⟨p, hp, hp'⟩ min fun _ _ => rfl)
    | ruleRef name =>
      obtain ⟨q, hn, hq⟩ := hi
      obtain ⟨q', hn', hq'⟩ := hj
      rw [stands_congr h.names] at hq'
      obtain rfl : q = q' := Option.some.inj (hq.symm.trans hq')
      exact .similar hn hn' (.ruleRef q)
    | fold p =>
      obtain ⟨n, hn, hp⟩ := hi
      obtain ⟨n', hn', hp'⟩ := hj
      exact .similar hn hn' (.fold ⟨p, hp, hp'⟩)
  roots := h.roots

/-- What the base adds has the same patterns in both. --/
theorem Shares.includeBase (h : g.Shares g') (hb : base.WellFormed) :
    (g.includeBase base).Shares (g'.includeBase base) where
  names := by
    rw [names_includeBase, names_includeBase]
    exact names_declareAll_congr _ h.names
  roots r := by
    have hnames : (g'.withNames base).slots.map Slot.name = (g.withNames base).slots.map Slot.name :=
      names_declareAll_congr _ h.names
    rw [root?_includeBase_or, root?_includeBase_or, hnames]
    rcases h.roots r with ⟨hnone, hnone'⟩ | ⟨i, j, hi, hj, hij⟩
    · rw [hnone, hnone', Option.none_or, Option.none_or]
      cases hk : ((g.withNames base).slots.map Slot.name)[r]?.bind fun name => (base.find? name).bind base.root? with
      | none => exact .inl ⟨rfl, rfl⟩
      | some k =>
        obtain ⟨name, -, hk⟩ := Option.bind_eq_some_iff.mp hk
        obtain ⟨q, -, hq⟩ := Option.bind_eq_some_iff.mp hk
        have hunfolds := hb.unfolds_pattern (hb.roots q k hq)
        exact .inr ⟨_, _, rfl, rfl, _, unfolds_copy hb hunfolds, unfolds_copy hb hunfolds⟩
    · rw [hi, hj, Option.some_or, Option.some_or]
      exact .inr ⟨i, j, rfl, rfl, hij.grow (grows_includeBase g base) (grows_includeBase g' base)⟩

/-- Choices that stand open differently do so when the same base is included in both. --/
theorem Regroups.includeBase (h : g.Regroups g') : (g.includeBase base).Regroups (g'.includeBase base) where
  names := by
    rw [names_includeBase, names_includeBase]
    exact names_declareAll_congr _ h.names
  roots r := by
    have hwith : (g'.withNames base).slots.map Slot.name = (g.withNames base).slots.map Slot.name :=
      names_declareAll_congr _ h.names
    rw [root?_includeBase_or, root?_includeBase_or, hwith, h.roots, h.size_eq]
  nodes i := by
    rcases Nat.lt_or_ge i g.nodes.size with hlt | hge
    · have hn := Array.getElem?_eq_getElem hlt
      have hn' := Array.getElem?_eq_getElem (h.size_eq ▸ hlt)
      have hgrow := grows_includeBase g base
      have hgrow' := grows_includeBase g' base
      rcases h.nodes i with heq | ⟨ks, ns, ms, hns, hms, ⟨hks, hks'⟩, hks'', hks'''⟩
      · rw [hgrow.nodes i _ hn, hgrow'.nodes i _ hn', ← hn, ← hn']
        exact .inl heq
      · exact .inr ⟨ks, ns, ms, hgrow.nodes i _ hns, hgrow'.nodes i _ hms, ⟨hks.grow hgrow.nodes, hks'.grow hgrow.nodes⟩,
          hks''.grow hgrow'.nodes, hks'''.grow hgrow'.nodes⟩
    · obtain ⟨k, rfl⟩ := Nat.exists_eq_add_of_le' hge
      have hplaces : (g'.withNames base).placesOf base = (g.withNames base).placesOf base := by
        refine congrArg (Array.map · base.slots) (funext fun s => congrArg (Option.getD · 0) ?_)
        exact find?_congr_names (names_declareAll_congr _ h.names) s.name
      have hright := getElem?_includeBase_right g' base k
      rw [h.size_eq, hplaces] at hright
      exact .inl (hright.trans (getElem?_includeBase_right g base k).symm)

end
end Grammar

namespace Match

theorem yields_shares {g g' : Grammar} (h : g.Shares g') {input : ByteArray} {observed : RuleId → Bool} {r : RuleId}
    {wanted : Bool} {pos : Nat} {a : Answer} : Yields ⟨g.optimize, input, observed⟩ (.rule r wanted) pos a ↔
      Yields ⟨g'.optimize, input, observed⟩ (.rule r wanted) pos a :=
  ⟨Yields.resemble_optimize (h.resembles input.size) (Nat.le_refl _),
    Yields.resemble_optimize (h.resembles input.size).symm (Nat.le_refl _)⟩

/-! ### Agreement -/

/-- Two grammars have the same rules in the same places, and whatever rule is matched against whatever input, from wherever
    on and with whatever rules observed, the same is found. --/
structure Agree (g g' : Grammar) : Prop where
  rules : ∀ name, g'.rule name = g.rule name
  found : ∀ (input : ByteArray) (observed : RuleId → Bool) (r : RuleId) (start : Nat),
    (run ⟨g, input, observed⟩ r start).map Run.found = (run ⟨g', input, observed⟩ r start).map Run.found

theorem agree_of_yields {g g' : Grammar} (hname : g'.name = g.name)
    (hnames : g'.slots.map Slot.name = g.slots.map Slot.name) (hroots : ∀ r, (g'.root? r).isSome = (g.root? r).isSome)
    (h : ∀ input observed r start a, Yields ⟨g, input, observed⟩ (.rule r true) start a ↔
      Yields ⟨g', input, observed⟩ (.rule r true) start a) : Agree g g' where
  rules name := by
    rw [Grammar.rule, Grammar.rule, Grammar.find?_congr_names hnames]
    simp only [hroots]
  found input observed r start := by
    refine run_congr (h input observed r start) fun a => ?_
    have hrule : ∀ q, g'.ruleName q = g.ruleName q := fun q => by
      rw [Grammar.ruleName, Grammar.ruleName, ← Array.getElem?_map, ← Array.getElem?_map, hnames]
    cases a with
    | matched | noMatch => rfl
    | undefined q =>
      dsimp only [Answer.found]
      rw [hname, hrule]

end Match
end Abnf
