import Abnf.Proofs.Document.Meaning
import Abnf.Proofs.Grammar.Pattern

/-! What nodes and names of a grammar mean. A node means what the pattern that it unfolds to reads
    (`Grammar.Means`), and a name is given the meaning of its root (`Grammar.Gives`). Each operation that builds
    a grammar is shown to give names the meanings that are asked for, and to leave the others as they are. -/

namespace Abnf
namespace Grammar

/-- A node is made of nodes that read what a meaning says, whatever the rules read. --/
def Means (g : Grammar) (input : ByteArray) (i : NodeId) (f : Meaning) : Prop :=
  ∃ p : Pattern String, g.Unfolds g.Stands p i ∧ ∀ rules, p.reader input rules = f rules

section
variable {g g' : Grammar} {input : ByteArray} {i j : NodeId} {f h : Meaning}

theorem Grows.stands (hg : g.Grows g') (name : String) (r : RuleId) (hr : g.Stands name r) : g'.Stands name r :=
  hg.find? hr

theorem Means.grow (hm : g.Means input i f) (hg : g.Grows g') : g'.Means input i f := by
  obtain ⟨p, hu, hp⟩ := hm
  exact ⟨p, hu.mono hg.nodes hg.stands, hp⟩

theorem Unfolds.lt_size {ρ : Type} {stands : ρ → RuleId → Prop} {p : Pattern ρ} (hu : g.Unfolds stands p i) :
    i < g.nodes.size := by
  have hnode : ∃ n, g.nodes[i]? = some n := by
    cases p with
    | literal | charRange => exact ⟨_, hu⟩
    | _ =>
      obtain ⟨_, hn, -⟩ := hu
      exact ⟨_, hn⟩
  obtain ⟨n, hn⟩ := hnode
  exact (Array.getElem?_eq_some_iff.mp hn).1

theorem Means.lt_size (hm : g.Means input i f) : i < g.nodes.size := by
  obtain ⟨p, hu, -⟩ := hm
  exact hu.lt_size

/-! ### Nodes -/

theorem means_literal {bs : List UInt8} {ignoreCase : Bool} (hi : g.nodes[i]? = some (.literal bs ignoreCase)) :
    g.Means input i fun _ => Reader.bytes input (if ignoreCase then Byte.small else id) bs :=
  ⟨.literal bs ignoreCase, hi, fun _ => rfl⟩

theorem means_charRange {lo hi : UInt32} (hn : g.nodes[i]? = some (.charRange lo hi)) :
    g.Means input i fun _ => Reader.value input lo.toNat hi.toNat :=
  ⟨.charRange lo hi, hn, fun _ => rfl⟩

theorem means_ruleRef {name : String} {r : RuleId} (hi : g.nodes[i]? = some (.ruleRef r))
    (hr : g.find? name = some r) : g.Means input i fun rules => rules name :=
  ⟨.ruleRef name, ⟨r, hi, hr⟩, fun _ => rfl⟩

theorem means_fold (hi : g.nodes[i]? = some (.fold j)) (hm : g.Means input j f) : g.Means input i f := by
  obtain ⟨p, hu, hp⟩ := hm
  exact ⟨.fold p, ⟨j, hi, hu⟩, hp⟩

theorem means_repetition {min : UInt32} {max : Option UInt32} (hi : g.nodes[i]? = some (.repetition j min max))
    (hm : g.Means input j f) :
    g.Means input i fun rules => Reader.times input.size min.toNat (max.map UInt32.toNat) (f rules) := by
  obtain ⟨p, hu, hp⟩ := hm
  refine ⟨.repetition p min max, ⟨j, hi, hu⟩, fun rules => ?_⟩
  rw [Pattern.reader, hp]

/-- Nodes that each have a meaning unfold to patterns that read so. --/
theorem exists_patterns {ns : List NodeId} {fs : List Meaning} (hm : List.Forall₂ (g.Means input) ns fs) :
    ∃ ps, g.UnfoldsAll g.Stands ps ns ∧ ∀ rules, Pattern.readers input rules ps = fs.map (· rules) := by
  induction hm with
  | nil => exact ⟨[], trivial, fun _ => rfl⟩
  | cons hf _ ih =>
    obtain ⟨p, hu, hp⟩ := hf
    obtain ⟨ps, hus, hps⟩ := ih
    exact ⟨p :: ps, ⟨hu, hus⟩, fun rules => by rw [Pattern.readers, hp, hps, List.map_cons]⟩

theorem exists_means_of_mem {ns : List NodeId} {fs : List Meaning} (hm : List.Forall₂ (g.Means input) ns fs)
    (hi : i ∈ ns) : ∃ f, g.Means input i f := by
  induction hm with
  | nil => cases hi
  | cons hf _ ih =>
    rcases List.mem_cons.mp hi with rfl | hi
    · exact ⟨_, hf⟩
    · exact ih hi

theorem means_sequence {ns : List NodeId} {fs : List Meaning} (hi : g.nodes[i]? = some (.sequence ns))
    (hm : List.Forall₂ (g.Means input) ns fs) :
    g.Means input i fun rules => Reader.inOrder (fs.map (· rules)) := by
  obtain ⟨ps, hu, hps⟩ := exists_patterns hm
  refine ⟨.sequence ps, ⟨ns, hi, hu⟩, fun rules => ?_⟩
  rw [Pattern.reader, hps]

theorem means_choice {ns : List NodeId} {fs : List Meaning} (hi : g.nodes[i]? = some (.choice ns))
    (hm : List.Forall₂ (g.Means input) ns fs) :
    g.Means input i fun rules => Reader.firstOf (fs.map (· rules)) := by
  obtain ⟨ps, hu, hps⟩ := exists_patterns hm
  refine ⟨.choice ps, ⟨ns, hi, hu⟩, fun rules => ?_⟩
  rw [Pattern.reader, hps]

theorem UnfoldsAll.append {ρ : Type} {stands : ρ → RuleId → Prop} {p : Pattern ρ} (hj : g.Unfolds stands p j) :
    ∀ {ps : List (Pattern ρ)} {ns : List NodeId}, g.UnfoldsAll stands ps ns →
      g.UnfoldsAll stands (ps ++ [p]) (ns ++ [j])
  | [], [], _ => ⟨hj, trivial⟩
  | _ :: _, _ :: _, ⟨hp, hps⟩ => ⟨hp, UnfoldsAll.append hj hps⟩
  | [], _ :: _, hu | _ :: _, [], hu => hu.elim

/-- A choice takes a new alternative in; anything else is put into a choice with it. Both read the same. --/
theorem means_extended {root alternative : NodeId} (hg : g.Grows g')
    (hi : g'.nodes[i]? = some (g.extended root alternative)) (hroot : g.Means input root f)
    (halt : g.Means input alternative h) :
    g'.Means input i (f.orElse [h]) := by
  by_cases hc : ∃ ns, g.nodes[root]? = some (.choice ns)
  · obtain ⟨ns, hn⟩ := hc
    rw [extended, hn] at hi
    obtain ⟨p, hu, hp⟩ := hroot
    obtain ⟨q, huq, hq⟩ := halt
    cases p with
    | choice ps =>
      obtain ⟨ms, hms, hus⟩ := hu
      obtain rfl : ns = ms := by
        rw [hn] at hms
        cases hms
        rfl
      refine ⟨.choice (ps ++ [q]), ⟨_, hi, (hus.append huq).mono hg.nodes hg.stands⟩, fun rules => ?_⟩
      change _ = Reader.firstOf [f rules, h rules]
      rw [Pattern.reader, Pattern.readers_append, ← hp, ← hq]
      exact Reader.firstOf_append _ _
    | literal | charRange =>
      rw [Unfolds, hn] at hu
      cases hu
    | _ =>
      obtain ⟨_, hm, -⟩ := hu
      rw [hn] at hm
      cases hm
  · have hnode : g.extended root alternative = .choice [root, alternative] := by
      unfold extended
      split
      · exact absurd ⟨_, ‹_›⟩ hc
      · rfl
    exact means_choice (hnode ▸ hi) (.cons (hroot.grow hg) (.cons (halt.grow hg) .nil))

/-! ### Names -/

/-- A name has a root of some meaning, or none. --/
def Gives (g : Grammar) (input : ByteArray) (name : String) : Option Meaning → Prop
  | some f => ∃ r i, g.find? name = some r ∧ g.root? r = some i ∧ g.Means input i f
  | none => ∀ r, g.find? name = some r → g.root? r = none

variable {name name' : String} {m : Option Meaning}

theorem Gives.sameName (hm : g.Gives input name m) (h : sameName name name' = true) : g.Gives input name' m := by
  cases m with
  | none => exact fun r hr => hm r (find?_sameName h ▸ hr)
  | some f =>
    obtain ⟨r, i, hr, hi⟩ := hm
    exact ⟨r, i, find?_sameName h ▸ hr, hi⟩

/-- A grammar that grows without new roots gives what it gave. --/
theorem Gives.grow (hm : g.Gives input name m) (hg : g.Grows g') (hroot : ∀ r, g'.root? r = g.root? r) :
    g'.Gives input name m := by
  cases m with
  | some f =>
    obtain ⟨r, i, hr, hi, hf⟩ := hm
    exact ⟨r, i, hg.find? hr, (hroot r).trans hi, hf.grow hg⟩
  | none =>
    intro r hr
    rw [hroot]
    rcases Nat.lt_or_ge r g.slots.size with hlt | hge
    · exact hm r (hg.find?_of_lt hr hlt)
    · exact root?_eq_none_of_le hge

theorem find?_setRoot (g : Grammar) (r : RuleId) (root : NodeId) (name : String) :
    (g.setRoot r root).find? name = g.find? name := find?_congr_names (names_setRoot g r root) name

/-- A name whose place gets a root has its meaning. --/
theorem gives_setRoot {r : RuleId} {root : NodeId} (hr : g.find? name = some r) (hm : g.Means input root f) :
    (g.setRoot r root).Gives input name (some f) := by
  refine ⟨r, root, ?_, ?_, hm.grow (grows_setRoot g r root)⟩
  · rw [find?_setRoot, hr]
  · rw [root?_setRoot, if_pos ⟨rfl, lt_size_of_find? hr⟩]

/-- Other names keep their meanings. --/
theorem Gives.setRoot (hm : g.Gives input name m) {r : RuleId} {root : NodeId} (hr : g.find? name' = some r)
    (hne : Abnf.sameName name name' = false) : (g.setRoot r root).Gives input name m := by
  have hother : ∀ q, g.find? name = some q → (g.setRoot r root).root? q = g.root? q := by
    intro q hq
    refine (root?_setRoot g r root q).trans (if_neg ?_)
    rintro ⟨rfl, -⟩
    rw [Stands.sameName hq hr] at hne
    cases hne
  cases m with
  | some f =>
    obtain ⟨q, i, hq, hi, hf⟩ := hm
    refine ⟨q, i, ?_, (hother q hq).trans hi, hf.grow (grows_setRoot g r root)⟩
    rw [find?_setRoot, hq]
  | none =>
    intro q hq
    rw [find?_setRoot] at hq
    exact (hother q hq).trans (hm q hq)

theorem Gives.congr (hm : g.Gives input name m) (hn : g'.nodes = g.nodes) (hs : g'.slots = g.slots) :
    g'.Gives input name m :=
  hm.grow (.of_eq hn hs) fun r => by rw [root?, root?, hs]

theorem gives_define {root : NodeId} (hm : g.Means input root f) :
    (g.define name root).2.Gives input name (some f) := by
  refine Gives.congr (gives_setRoot (find?_declare g name) (hm.grow (grows_declare g name))) ?_ ?_
  · rfl
  · rfl

theorem Gives.define (hm : g.Gives input name m) {root : NodeId} (hne : Abnf.sameName name name' = false) :
    (g.define name' root).2.Gives input name m := by
  have hdecl := hm.grow (grows_declare g name') (root?_declare g name')
  have hset : ((g.declare name').2.setRoot (g.declare name').1 root).Gives input name m :=
    hdecl.setRoot (find?_declare g name') hne
  exact hset.congr rfl rfl

/-- An alternative that is added to a rule is tried after what the rule meant. --/
theorem gives_extend {alternative : NodeId} {r : RuleId} (he : g.extend name alternative = .ok (r, g'))
    (hm : g.Gives input name (some f)) (halt : g.Means input alternative h) :
    g'.Gives input name (some (f.orElse [h])) := by
  obtain ⟨q, root, hq, hroot, hf⟩ := hm
  rw [extend, hq] at he
  dsimp only at he
  rw [hroot] at he
  cases he
  have hgrow := grows_addNode g (g.extended root alternative)
  refine gives_setRoot (hgrow.find? hq) ?_
  exact means_extended hgrow (getElem?_addNode_self g _) hf halt

theorem Gives.extend (hm : g.Gives input name m) {alternative : NodeId} {r : RuleId}
    (he : g.extend name' alternative = .ok (r, g')) (hne : Abnf.sameName name name' = false) :
    g'.Gives input name m := by
  obtain ⟨hfind, root, -, rfl⟩ := extend_eq_ok he
  have hgrow := grows_addNode g (g.extended root alternative)
  exact (hm.grow hgrow fun _ => rfl).setRoot (hgrow.find? hfind) hne

/-! ### Defined names -/

theorem defines_iff : g.defines name = true ↔ ∃ r i, g.find? name = some r ∧ g.root? r = some i := by
  rw [defines]
  cases g.find? name with
  | none => simp
  | some r => simp [Option.isSome_iff_exists]

/-- A name is defined if it is given a meaning. --/
theorem Gives.defines_eq (hm : g.Gives input name m) : g.defines name = m.isSome := by
  cases m with
  | some f =>
    obtain ⟨r, i, hr, hi, -⟩ := hm
    exact defines_iff.mpr ⟨r, i, hr, hi⟩
  | none =>
    rw [Option.isSome_none, ← Bool.not_eq_true, defines_iff]
    rintro ⟨r, i, hr, hi⟩
    cases (hm r hr).symm.trans hi

theorem defines_sameName (h : Abnf.sameName name name' = true) : g.defines name = g.defines name' := by
  rw [defines, defines, find?_sameName h]

theorem exists_extend (h : g.defines name = true) (alternative : NodeId) :
    ∃ r g', g.extend name alternative = .ok (r, g') := by
  obtain ⟨r, i, hr, hi⟩ := defines_iff.mp h
  rw [Grammar.extend, hr]
  dsimp only
  rw [hi]
  exact ⟨_, _, rfl⟩

/-- Names stay defined when a rule is extended. --/
theorem defines_extend {alternative : NodeId} {r : RuleId} (he : g.extend name' alternative = .ok (r, g'))
    (h : g.defines name = true) : g'.defines name = true := by
  obtain ⟨q, i, hq, hi⟩ := defines_iff.mp h
  have hgrow := grows_extend g he
  obtain ⟨-, root, -, rfl⟩ := extend_eq_ok he
  refine defines_iff.mpr ?_
  by_cases hr : r = q
  · exact ⟨q, _, hgrow.find? hq, (root?_setRoot _ r _ q).trans (if_pos ⟨hr, lt_size_of_find? hq⟩)⟩
  · exact ⟨q, i, hgrow.find? hq, (root?_setRoot _ r _ q).trans ((if_neg fun h => hr h.1).trans hi)⟩

/-- The names that have no definition. --/
theorem mem_undefinedNames_iff : name ∈ g.undefinedNames ↔
    ∃ (r : RuleId) (s : Slot), g.slots[r]? = some s ∧ s.name = name ∧ s.root = none := by
  simp only [undefinedNames, List.mem_map, List.mem_filter, Option.isNone_iff_eq_none, Array.mem_toList_iff,
    Array.mem_iff_getElem?]
  constructor
  · rintro ⟨s, ⟨⟨r, hr⟩, hroot⟩, hname⟩
    exact ⟨r, s, hr, hname, hroot⟩
  · rintro ⟨r, s, hr, hname, hroot⟩
    exact ⟨s, ⟨⟨r, hr⟩, hroot⟩, hname⟩

end
end Grammar
end Abnf
