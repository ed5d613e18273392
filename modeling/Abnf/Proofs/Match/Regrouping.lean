import Abnf.Proofs.Match.Alternatives

/-! Grammars that differ only in which of the choices among alternatives stand open. They have the same first sets
    (`Regroups.computeFirstSets_eq`) and match alike, with first sets or without (`Yields.regroup`,
    `yields_regroup_optimize`). -/

namespace Abnf

namespace Grammar

/-- The nodes of the one grammar are those of the other, but for choices that come from the same alternatives. --/
structure Regroups (g g' : Grammar) : Prop where
  names : g'.slots.map Slot.name = g.slots.map Slot.name
  roots : ∀ r, g'.root? r = g.root? r
  nodes : ∀ i : NodeId, g'.nodes[i]? = g.nodes[i]? ∨ ∃ ks ns ms, g.nodes[i]? = some (.choice ns) ∧
    g'.nodes[i]? = some (.choice ms) ∧ (g.Opens ks ns ∧ g.Opens ks ms) ∧ g'.Opens ks ns ∧ g'.Opens ks ms

section
variable {g g' : Grammar}

theorem Regroups.symm (h : g.Regroups g') : g'.Regroups g where
  names := h.names.symm
  roots r := (h.roots r).symm
  nodes i := by
    rcases h.nodes i with heq | ⟨ks, ns, ms, hn, hm, ⟨hns, hms⟩, hns', hms'⟩
    · exact .inl heq.symm
    · exact .inr ⟨ks, ms, ns, hm, hn, ⟨hms', hns'⟩, hms, hns⟩

theorem Regroups.getElem?_eq (h : g.Regroups g') {i : NodeId} {n : Node} (hn : g.nodes[i]? = some n)
    (hne : ∀ ns, n ≠ .choice ns) : g'.nodes[i]? = some n := by
  rcases h.nodes i with heq | ⟨_, ns, _, hn', -⟩
  · exact heq.trans hn
  · exact absurd (Option.some.inj (hn.symm.trans hn')) (hne ns)

theorem Regroups.getElem?_eq_none (h : g.Regroups g') {i : NodeId} (hn : g.nodes[i]? = none) : g'.nodes[i]? = none := by
  rcases h.nodes i with heq | ⟨_, _, _, hn', -⟩
  · exact heq.trans hn
  · cases hn.symm.trans hn'

theorem Regroups.size_eq (h : g.Regroups g') : g'.nodes.size = g.nodes.size := by
  have hle : ∀ {g g' : Grammar}, g.Regroups g' → g'.nodes.size ≤ g.nodes.size := fun h =>
    Array.getElem?_eq_none_iff.mp (h.getElem?_eq_none (Array.getElem?_eq_none (Nat.le_refl _)))
  exact Nat.le_antisymm (hle h) (hle h.symm)

theorem Regroups.optimize (h : g.Regroups g') : g.optimize.Regroups g'.optimize where
  names := h.names
  roots := h.roots
  nodes i := by
    have hopt : ∀ {g : Grammar} {ns ms : List NodeId}, g.Opens ns ms → g.optimize.Opens ns ms := fun {g} _ _ h => by
      have hnodes : ∀ (i : NodeId) (n : Node), g.nodes[i]? = some n → g.optimize.nodes[i]? = some n := fun _ _ hn => hn
      exact h.grow hnodes
    refine (h.nodes i).imp id ?_
    rintro ⟨ks, ns, ms, hn, hm, ⟨hns, hms⟩, hns', hms'⟩
    exact ⟨ks, ns, ms, hn, hm, ⟨hopt hns, hopt hms⟩, hopt hns', hopt hms'⟩

/-- Whichever alternatives stand open in what is added, the grammars differ in no more than that. --/
theorem regroups_setRoot {ks ns ms : List NodeId} (hns : g.Opens ks ns) (hms : g.Opens ks ms) (r : RuleId) :
    ((g.addNode (.choice ns)).2.setRoot r g.nodes.size).Regroups ((g.addNode (.choice ms)).2.setRoot r g.nodes.size) where
  names := rfl
  roots q := by
    rw [root?_setRoot, root?_setRoot]
    rfl
  nodes i := by
    have hnodes : ∀ n : Node, ((g.addNode n).2.setRoot r g.nodes.size).nodes[i]? =
        if i = g.nodes.size then some n else g.nodes[i]? := fun n =>
      getElem?_addNode g n i
    have hgrow : ∀ n (i : NodeId) (m : Node), g.nodes[i]? = some m →
        ((g.addNode n).2.setRoot r g.nodes.size).nodes[i]? = some m := fun n => (grows_addNode g n).nodes
    rw [hnodes, hnodes]
    split
    · exact .inr ⟨ks, ns, ms, rfl, rfl, ⟨hns.grow (hgrow _), hms.grow (hgrow _)⟩, hns.grow (hgrow _), hms.grow (hgrow _)⟩
    · exact .inl rfl

/-! ### First sets -/

/-- What alternatives begin with, they begin with when they stand open. --/
theorem Opens.foldr_union_eq {ns ms : List NodeId} (h : g.Opens ns ms) :
    ns.foldr (fun n s => (setOf g.computeFirstSets n).union s) FirstSet.none =
      ms.foldr (fun n s => (setOf g.computeFirstSets n).union s) FirstSet.none := by
  induction h with
  | nil => rfl
  | keep n _ ih => rw [List.foldr_cons, List.foldr_cons, ih]
  | choice hk _ ih =>
    rw [List.foldr_cons, FirstSet.foldr_union_append, ih, setOf_computeFirstSets hk]
    rfl

theorem Regroups.setOf_le (h : g.Regroups g') (i : NodeId) :
    setOf g.computeFirstSets i ≤ setOf g'.computeFirstSets i := by
  refine computeFirstSets_le (fun i n hn => ?_) i
  have hrules : g.ruleSet (setOf g'.computeFirstSets) = g'.ruleSet (setOf g'.computeFirstSets) :=
    funext fun r => by rw [ruleSet, ruleSet, h.roots r]
  rw [hrules]
  rcases h.nodes i with heq | ⟨ks, ns, ms, hn', hm, -, hns, hms⟩
  · exact closed_computeFirstSets g' i n (heq.trans hn)
  · obtain rfl := Option.some.inj (hn.symm.trans hn')
    have hsame := hns.foldr_union_eq.symm.trans hms.foldr_union_eq
    exact hsame.le.trans (closed_computeFirstSets g' i _ hm)

theorem Regroups.computeFirstSets_eq (h : g.Regroups g') : g'.computeFirstSets = g.computeFirstSets := by
  have hsize : g'.computeFirstSets.size = g.computeFirstSets.size := by
    rw [size_computeFirstSets, size_computeFirstSets, h.size_eq]
  exact ext_setOf hsize fun i _ => le_antisymm (h.symm.setOf_le i) (h.setOf_le i)

end
end Grammar

namespace Match

/-! ### Matches -/

section
variable {σ : Setting} {g' : Grammar} (hg : σ.grammar.Regroups g') (hσ : Letting { σ with grammar := g' })
  (hadmits : ∀ pos n, admits { σ with grammar := g' } pos n = admits σ pos n)
include hg hσ hadmits

/-- Grammars match alike whichever of their choices stand open. --/
theorem Yields.regroup {task : Task} {pos : Nat} {a : Answer} (h : Yields σ task pos a) :
    Yields { σ with grammar := g' } task pos a := by
  induction h with
  | missing h => exact .missing (hg.getElem?_eq_none h)
  | literal h => exact .literal (hg.getElem?_eq h nofun)
  | charRange h => exact .charRange (hg.getElem?_eq h nofun)
  | sequence h _ ih => exact .sequence (hg.getElem?_eq h nofun) ih
  | @choice i _ _ _ h _ ih =>
    rcases hg.nodes i with heq | ⟨ks, ns, ms, hn, hm, -, hns, hms⟩
    · exact .choice (heq.trans h) ih
    · cases h.symm.trans hn
      exact .choice hm ((yields_opens hσ hms _ _).mp ((yields_opens hσ hns _ _).mpr ih))
  | repetition h _ ih => exact .repetition (hg.getElem?_eq h nofun) ih
  | ruleRef h _ ih => exact .ruleRef (hg.getElem?_eq h nofun) ih
  | fold h _ ih => exact .fold (hg.getElem?_eq h nofun) ih
  | undefined h => exact .undefined ((hg.roots _).trans h)
  | rule h _ ih => exact .rule ((hg.roots _).trans h) ih
  | sequenceNil => exact .sequenceNil
  | sequenceCons _ _ ih₁ ih₂ => exact .sequenceCons ih₁ ih₂
  | sequenceStop _ ha ih => exact .sequenceStop ih ha
  | choiceNil => exact .choiceNil
  | choiceSkip hn _ ih => exact .choiceSkip ((hadmits _ _).trans hn) ih
  | choiceTake hn _ hlt ih => exact .choiceTake ((hadmits _ _).trans hn) ih hlt
  | choiceEmpty hn _ hlt _ ih₁ ih₂ => exact .choiceEmpty ((hadmits _ _).trans hn) ih₁ hlt ih₂
  | choiceFail hn _ _ ih₁ ih₂ => exact .choiceFail ((hadmits _ _).trans hn) ih₁ ih₂
  | choiceStop hn _ ih => exact .choiceStop ((hadmits _ _).trans hn) ih
  | roundsFull hc => exact .roundsFull hc
  | roundsEmpty hc _ ih => exact .roundsEmpty hc ih
  | roundsNext hc _ hne _ ih₁ ih₂ => exact .roundsNext hc ih₁ hne ih₂
  | roundsFail hc _ ih => exact .roundsFail hc ih
  | roundsStop hc _ ih => exact .roundsStop hc ih

end

section
variable {g g' : Grammar} {input : ByteArray} {observed : RuleId → Bool}

/-- First sets let a choice through with each of its alternatives. --/
theorem letting_optimize (hw : g.WellFormed) : Letting ⟨g.optimize, input, observed⟩ := by
  intro pos k cs hk c hc h
  have hk : g.nodes[k]? = some (.choice cs) := hk
  have hsize := Grammar.lt_size_of_getElem? hk
  have hlt := hw.parts k _ hk c hc
  rw [admits, Grammar.optimize] at h ⊢
  dsimp only at h ⊢
  rw [Grammar.getD_computeFirstSets (Nat.lt_trans hlt hsize), FirstSet.accepts_iff] at h
  rw [Grammar.getD_computeFirstSets hsize, FirstSet.accepts_iff]
  have hle : Grammar.setOf g.computeFirstSets c ≤ Grammar.setOf g.computeFirstSets k :=
    le_trans (FirstSet.le_foldr_union hc) (Grammar.closed_computeFirstSets g k _ hk)
  exact h.imp (hle _) (hle _)

theorem yields_regroup_optimize (hw : g.WellFormed) (hw' : g'.WellFormed) (h : g.Regroups g') {task : Task} {pos : Nat}
    {a : Answer} : Yields ⟨g.optimize, input, observed⟩ task pos a ↔ Yields ⟨g'.optimize, input, observed⟩ task pos a := by
  have hside : ∀ {g g' : Grammar}, g'.WellFormed → g.Regroups g' → Yields ⟨g.optimize, input, observed⟩ task pos a →
      Yields ⟨g'.optimize, input, observed⟩ task pos a := by
    intro g g' hw' h ha
    refine ha.regroup h.optimize (letting_optimize hw') fun pos n => ?_
    rw [admits, admits, Grammar.optimize, Grammar.optimize, h.computeFirstSets_eq]
  exact ⟨hside hw' h, hside hw h.symm⟩

end

/-! ### Runs -/

/-- Runs of a rule that comes to the same answers find the same. --/
theorem run_congr {σ σ' : Setting} {r : RuleId} {start : Nat}
    (h : ∀ a, Yields σ (.rule r true) start a ↔ Yields σ' (.rule r true) start a)
    (hfound : ∀ a : Answer, a.found σ.grammar = a.found σ'.grammar) :
    (run σ r start).map Run.found = (run σ' r start).map Run.found := by
  by_cases hterm : ∃ a, Yields σ (.rule r true) start a
  · obtain ⟨a, ha⟩ := hterm
    rw [run_of_yields ha, run_of_yields ((h a).mp ha), hfound]
  · have hterm' : ¬∃ a, Yields σ' (.rule r true) start a := fun ⟨a, ha⟩ => hterm ⟨a, (h a).mpr ha⟩
    rw [run_endless_iff.mpr (mt terminates_iff.mp hterm), run_endless_iff.mpr (mt terminates_iff.mp hterm')]

end Match
end Abnf
