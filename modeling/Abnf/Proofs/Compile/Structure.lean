import Abnf.Proofs.Compile.Proper

/-! The graph of a compiled grammar is one that can be walked: whatever the source and the options, nodes are made of
    earlier nodes, references and roots are in range, and each node has the parts and the bounds that its kind asks
    for (`Coherent`). Rendering, saving, first sets and matching rely on it. All that is asked of a base is the same
    (`coherent_compile`); its names may stand twice in its table, or may be no names that a document can spell. -/

namespace Abnf

namespace Grammar

/-- One node is made of another one. --/
def PartOf (g : Grammar) (c i : NodeId) : Prop := ∃ n, g.nodes[i]? = some n ∧ c ∈ n.children

/-- A linked grammar with the parts and bounds that its nodes ask for. --/
structure Coherent (g : Grammar) : Prop extends Linked g where
  proper : ∀ n ∈ g.nodes, n.isProper = true

variable {g base : Grammar}

/-- Going from node to part comes to an end; only references to rules lead back. --/
theorem Linked.wellFounded_partOf (hg : g.Linked) : WellFounded g.PartOf := by
  refine Subrelation.wf (r := (· < ·)) (fun {c i} h => ?_) Nat.lt_wfRel.wf
  obtain ⟨n, hn, hc⟩ := h
  exact hg.parts i n hn c hc

namespace Coherent

theorem of_wellFormed (hw : g.WellFormed) (hp : g.Proper) : g.Coherent := ⟨hw.linked, hp.nodes⟩

theorem includeBase (hg : g.Coherent) (hb : base.Coherent) : (g.includeBase base).Coherent :=
  ⟨hg.toLinked.includeBase hb.toLinked, isProper_includeBase hg.proper hb.proper⟩

theorem extend (hg : g.Coherent) {name : String} {alternative : NodeId} (halt : alternative < g.nodes.size)
    {r : RuleId} {g' : Grammar} (h : g.extend name alternative = .ok (r, g')) : g'.Coherent := by
  refine ⟨hg.toLinked.extend halt h, ?_⟩
  obtain ⟨-, root, -, rfl⟩ := extend_eq_ok h
  exact isProper_addNode hg.proper (isProper_extended hg.proper root alternative)

theorem optimize (hg : g.Coherent) : g.optimize.Coherent := ⟨⟨hg.parts, hg.referred, hg.roots⟩, hg.proper⟩

end Coherent

theorem coherent_coreRules : coreRules.Coherent := .of_wellFormed wellFormed_coreRules proper_coreRules

end Grammar

namespace Assembly

variable {o : CompileOptions} {ds : List Definition}

theorem coherent_drawn (o : CompileOptions) (hds : ∀ d ∈ ds, d.Shaped) : (drawn o ds).grammar.Coherent :=
  .of_wellFormed (drawn_spec .empty o ds).sound.wellFormed (proper_drawn o hds)

theorem coherent_extended (hb : ∀ base, o.base = some base → base.Coherent) (hds : ∀ d ∈ ds, d.Shaped)
    (hc : (extended o ds).Clean) : (extended o ds).grammar.Coherent := by
  refine extended_keeps (fun hg hlt he => hg.extend hlt he) hc ?_
  have hdrawn := coherent_drawn o hds
  unfold withBase
  split
  · exact hdrawn.includeBase (hb _ ‹_›)
  · exact hdrawn

end Assembly

/-- The graph of what is compiled is coherent, whatever the source and the options, if that of the base is; so is that
    of the core rules. No node is a part of itself, however far down. --/
theorem coherent_compile : coreRules.Coherent ∧ ∀ (source : String) (o : CompileOptions) (c : Compilation),
    (∀ base, o.base = some base → base.Coherent) → compile source o = .ok c →
      c.grammar.Coherent ∧ WellFounded c.grammar.PartOf := by
  refine ⟨Grammar.coherent_coreRules, fun source o c hb hc => ?_⟩
  obtain ⟨hgrammar, hclean⟩ := compile_eq_ok hc
  obtain ⟨heq, hextended⟩ := Assembly.document_eq o (Document.ofSource source o).definitions
  have hshaped := shaped_definitions (read_of_compile hc)
  have hcoherent : c.grammar.Coherent := by
    rw [hgrammar, heq]
    exact (Assembly.coherent_extended hb hshaped (hextended hclean)).optimize
  exact ⟨hcoherent, hcoherent.toLinked.wellFounded_partOf⟩

/-- A list and an option, and an alternative for a rule of the base. --/
theorem coherent_compile_listing :
    let o : CompileOptions := { base := some Grammar.turns }
    (∀ base, o.base = some base → base.Coherent) ∧ ∃ c, compile listing o = .ok c ∧ c.grammar.Coherent ∧
      WellFounded c.grammar.PartOf := by
  intro o
  have hb : ∀ base, o.base = some base → base.Coherent := by
    rintro base ⟨⟩
    exact ⟨Grammar.wellFormed_turns.linked, by decide⟩
  have hok : (compile listing o).toOption.isSome := by decide +kernel
  refine ⟨hb, ?_⟩
  cases hc : compile listing o with
  | error ds =>
    rw [hc] at hok
    cases hok
  | ok c => exact ⟨c, rfl, coherent_compile.2 listing o c hb hc⟩

end Abnf
