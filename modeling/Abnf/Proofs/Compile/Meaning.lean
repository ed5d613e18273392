import Abnf.Compile
import Abnf.Proofs.Compile.Definitions
import Abnf.Proofs.Compile.Strings
import Abnf.Proofs.Match.Pruning
import Abnf.Proofs.Match.Reading

/-! Compiling keeps the meaning of a document. Matching a rule of a compiled grammar ends where reading the rule
    off the document does (`run_compile`): where reading comes to an end, so does the match, and with the
    same result; without first sets the match comes to no other ends. What is compiled is well-formed
    (`wellFormed_compile`), so it can serve as a base, and be saved and loaded. -/

namespace Abnf
namespace Match

/-! ### Rules -/

section
variable {σ : Setting} {d : Document} {strings : String → Reader} (hnone : σ.grammar.firstSets = none)
  (hg : ∀ name, σ.grammar.Gives σ.input name (d.meaning? σ.input strings name))
include hnone hg

/-- Matching comes to all ends that reading comes to. --/
theorem ruleReader_le : ∀ (depth : Nat) (name : String) (r : RuleId), σ.grammar.Stands name r →
    (d.ruleReader σ.input strings depth name).Le ((finalAnswer σ).ruleReader σ.grammar r)
  | 0, _, _, _ => Reader.never_le _
  | depth + 1, name, r, hr => by
    have hname := hg name
    rw [Document.ruleReader]
    cases hm : d.meaning? σ.input strings name with
    | none => exact Reader.never_le _
    | some f =>
      rw [hm] at hname
      obtain ⟨q, i, hq, hi, p, hu, hp⟩ := hname
      obtain rfl : r = q := Option.some.inj (Eq.trans (Eq.symm hr) hq)
      rw [Answerer.ruleReader, hi]
      dsimp only
      rw [← hp]
      exact pattern_le hnone (ruleReader_le depth) hu

/-- Matching comes to no other ends; rules are no deeper inside one another than nodes. --/
theorem le_ruleReader : ∀ (fuel : Nat) (name : String) (r : RuleId), σ.grammar.Stands name r →
    ((answer σ fuel).ruleReader σ.grammar r).Le (d.ruleReader σ.input strings (fuel + 1) name) := by
  intro fuel
  induction fuel with
  | zero =>
    intro name r _
    unfold Answerer.ruleReader
    split <;> exact Reader.never_le _
  | succ fuel ih =>
    intro name r hr
    have hname := hg name
    rw [Document.ruleReader]
    cases hm : d.meaning? σ.input strings name with
    | none =>
      rw [hm] at hname
      rw [Answerer.ruleReader, hname r hr]
      exact Reader.never_le _
    | some f =>
      rw [hm] at hname
      obtain ⟨q, i, hq, hi, p, hu, hp⟩ := hname
      obtain rfl : r = q := Option.some.inj (Eq.trans (Eq.symm hr) hq)
      rw [Answerer.ruleReader, hi]
      dsimp only
      rw [← hp]
      refine le_pattern hnone (fun k hk x r hx => ?_) hu (fuel + 1) (Nat.le_refl _)
      exact (ruleReader_mono (Nat.le_of_lt_succ hk) r).trans (ih x r hx)

/-- Matching ends where reading does. --/
theorem run_stop_iff_reads {name : String} {r : RuleId} (hr : σ.grammar.Stands name r) {start : Nat} {stop : Option Nat} :
    (run σ r start).map Run.stop = .ok stop ↔ ∃ depth, d.ruleReader σ.input strings depth name start = some stop := by
  rw [run_stop_iff]
  constructor
  · rintro ⟨fuel, h⟩
    exact ⟨fuel + 1, le_ruleReader hnone hg fuel name r hr start stop h⟩
  · rintro ⟨depth, h⟩
    exact ⟨_, ruleReader_le hnone hg depth name r hr start stop h⟩

end

/-- A match that comes to a result without first sets ends in the same place with them. --/
theorem run_stop_optimize {g : Grammar} {input : ByteArray} {observed : RuleId → Bool} {r : RuleId} {start : Nat}
    {stop : Option Nat} (h : (run ⟨{ g with firstSets := none }, input, observed⟩ r start).map Run.stop = .ok stop) :
    (run ⟨g.optimize, input, observed⟩ r start).map Run.stop = .ok stop := by
  obtain ⟨a, ha, hstop⟩ := run_stop_iff_yields.mp h
  have hdef : a.Defined := by
    rintro q rfl
    cases hstop
  refine run_stop_iff_yields.mpr ⟨a, ?_, hstop⟩
  exact ha.prune (Grammar.closed_computeFirstSets g) rfl hdef

end Match

/-! ### Compiled documents -/

theorem compile_eq_ok {source : String} {o : CompileOptions} {c : Compilation} (h : compile source o = .ok c) :
    c.grammar = (Assembly.document o (Document.ofSource source o).definitions).1.optimize ∧
      Diagnostic.hasErrors (Assembly.document o (Document.ofSource source o).definitions).2 = false := by
  unfold compile at h
  dsimp only at h
  split at h
  · cases h
  · split at h
    · cases h
    · rename_i hclean
      cases h
      exact ⟨rfl, Bool.eq_false_iff.mpr hclean⟩

/-- What is compiled has been read without an error. --/
theorem read_of_compile {source : String} {o : CompileOptions} {c : Compilation} (h : compile source o = .ok c) :
    Diagnostic.hasErrors (parse source o.nestingLimit).diagnostics = false := by
  unfold compile at h
  dsimp only at h
  split at h
  · cases h
  · exact Bool.eq_false_iff.mpr ‹_›

/-- What is compiled is well-formed. --/
theorem wellFormed_compile {source : String} {o : CompileOptions} {c : Compilation} (hc : compile source o = .ok c)
    (hb : ∀ base, o.base = some base → base.WellFormed) : c.grammar.WellFormed := by
  obtain ⟨hgrammar, hclean⟩ := compile_eq_ok hc
  rw [hgrammar]
  exact (Assembly.wellFormed_document hb hclean).optimize

/-- What is compiled reads, for every name, what the source says of it, its strings as they are written. --/
theorem Assembly.gives_ofSource {source : String} {o : CompileOptions} (input : ByteArray)
    (hb : ∀ base, o.base = some base → base.WellFormed)
    (hclean : Diagnostic.hasErrors (document o (Document.ofSource source o).definitions).2 = false) (name : String) :
    (document o (Document.ofSource source o).definitions).1.Gives input name
      ((Document.ofSource source o).meaning? input (Notation.stringReader input) name) := by
  rw [← Document.meaning?_congr (fun w hw => Document.stringReader_ofSource hw input) name]
  exact gives_document input hb hclean name

/-- A name whose place has a root is that of a defined rule. --/
theorem Grammar.rule_eq_ok {g : Grammar} {name : String} {r : RuleId} :
    g.rule name = .ok r ↔ g.find? name = some r ∧ ∃ i, g.root? r = some i := by
  unfold Grammar.rule
  cases hf : g.find? name with
  | none => simp
  | some q =>
    cases hroot : g.root? q with
    | none =>
      simp only [hroot, Option.isSome_none, Bool.false_eq_true, ↓reduceIte, reduceCtorEq, Option.some.injEq, false_iff]
      rintro ⟨rfl, i, hi⟩
      rw [hroot] at hi
      cases hi
    | some i =>
      simp only [hroot, Option.isSome_some, ↓reduceIte, Except.ok.injEq, Option.some.injEq]
      constructor
      · rintro rfl
        exact ⟨rfl, i, hroot⟩
      · exact And.left

/-- The rules of a compiled grammar are those that the document or its base defines. --/
theorem exists_rule_compile_iff {source : String} {o : CompileOptions} {c : Compilation} (hc : compile source o = .ok c)
    (hb : ∀ base, o.base = some base → base.WellFormed) (input : ByteArray) (name : String) :
    (∃ r, c.grammar.rule name = .ok r) ↔
      ((Document.ofSource source o).meaning? input (Notation.stringReader input) name).isSome := by
  obtain ⟨hgrammar, hclean⟩ := compile_eq_ok hc
  have hgives := Assembly.gives_ofSource input hb hclean name
  have hrule : ∀ r, c.grammar.rule name = .ok r ↔ (Assembly.document o (Document.ofSource source o).definitions).1.rule
      name = .ok r := fun r => by rw [hgrammar, Grammar.rule_eq_ok, Grammar.rule_eq_ok]; rfl
  simp only [hrule, Grammar.rule_eq_ok]
  cases hm : (Document.ofSource source o).meaning? input (Notation.stringReader input) name with
  | none =>
    rw [hm] at hgives
    refine iff_of_false ?_ Bool.false_ne_true
    rintro ⟨r, hr, i, hi⟩
    rw [hgives r hr] at hi
    cases hi
  | some f =>
    rw [hm] at hgives
    obtain ⟨r, i, hr, hi, -⟩ := hgives
    exact iff_of_true ⟨r, hr, i, hi⟩ rfl

/-- A compiled grammar matches as its document reads: a match of a rule ends, with first sets, where reading the
    rule off the document does, and without first sets it ends nowhere else. --/
theorem run_compile {source : String} {o : CompileOptions} {c : Compilation} (hc : compile source o = .ok c)
    (hb : ∀ base, o.base = some base → base.WellFormed) {name : String} {r : RuleId} (hr : c.grammar.rule name = .ok r)
    (input : ByteArray) (observed : RuleId → Bool) (start : Nat) (stop : Option Nat) :
    ((Document.ofSource source o).Reads input name start stop →
      (Match.run ⟨c.grammar, input, observed⟩ r start).map Run.stop = .ok stop) ∧
      ((Document.ofSource source o).Reads input name start stop ↔
        (Match.run ⟨{ c.grammar with firstSets := none }, input, observed⟩ r start).map Run.stop = .ok stop) := by
  obtain ⟨hgrammar, hclean⟩ := compile_eq_ok hc
  have hgives := Assembly.gives_ofSource input hb hclean
  have hfind := (Grammar.rule_eq_ok.mp hr).1
  generalize (Assembly.document o (Document.ofSource source o).definitions).1 = g at hgrammar hgives
  obtain ⟨grammar, warnings⟩ := c
  cases hgrammar
  have hiff : (Match.run ⟨{ g with firstSets := none }, input, observed⟩ r start).map Run.stop = .ok stop ↔
      (Document.ofSource source o).Reads input name start stop :=
    Match.run_stop_iff_reads (σ := ⟨{ g with firstSets := none }, input, observed⟩) rfl
      (fun other => (hgives other).congr rfl rfl) hfind
  exact ⟨fun h => Match.run_stop_optimize (hiff.mpr h), hiff.symm⟩

/-- A list and an option over a rule `s` of the base, with one string that is read in any case and one that is not, and a
    letter by its number as an alternative for another rule. --/
def listing : String := "u = 1#2s [\"So\" %s\"Q\"]\nt =/ %d99\n"

/-- Two elements with a comma between, the second read by the base's rule and the new alternative; the first string stands
    in letters of the other case. --/
theorem run_compile_listing :
    let o : CompileOptions := { base := some Grammar.turns }
    let input : ByteArray := "a,AcsOQ".toUTF8
    ∃ c r, compile listing o = .ok c ∧ (∀ base, o.base = some base → base.WellFormed) ∧ c.grammar.rule "u" = .ok r ∧
      (Document.ofSource listing o).Reads input "u" 0 (some 7) ∧
      (Match.run ⟨c.grammar, input, fun _ => true⟩ r 0).map Run.stop = .ok (some 7) := by
  intro o input
  have hb : ∀ base, o.base = some base → base.WellFormed := by
    rintro base ⟨⟩
    exact Grammar.wellFormed_turns
  have hreads : (Document.ofSource listing o).Reads input "u" 0 (some 7) := ⟨3, by decide +kernel⟩
  have hdefined : ((Document.ofSource listing o).meaning? input (Notation.stringReader input) "u").isSome := by
    decide +kernel
  have hok : (compile listing o).toOption.isSome := by decide +kernel
  cases hc : compile listing o with
  | error ds =>
    rw [hc] at hok
    cases hok
  | ok c =>
    obtain ⟨r, hr⟩ := (exists_rule_compile_iff hc hb input "u").mpr hdefined
    exact ⟨c, r, rfl, hb, hr, hreads, (run_compile hc hb hr input (fun _ => true) 0 (some 7)).1 hreads⟩

end Abnf
