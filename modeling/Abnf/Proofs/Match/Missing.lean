import Abnf.Proofs.Grammar.Meaning
import Abnf.Proofs.Match.Observation
import Abnf.Proofs.Match.Pruning

/-! Rules that are missing. A grammar lacks a name that has a place in its table and no definition (`Grammar.Lacks`). A
    match that fails for want of a rule has arrived at such a name (`Match.lacks_of_run`), so in a grammar that lacks
    nothing no match does (`Match.run_ne_missing`). -/

namespace Abnf

namespace Grammar

variable {g : Grammar}

/-- A name that is declared and not defined. --/
def Lacks (g : Grammar) (name : String) : Prop := ∃ r, g.find? name = some r ∧ g.root? r = none

theorem lacks_iff {name : String} : g.Lacks name ↔ (g.find? name).isSome ∧ g.defines name = false := by
  rw [Lacks, defines]
  cases g.find? name <;> simp

theorem Distinct.lacks_ruleName (hd : g.Distinct) {r : RuleId} (hr : r < g.slots.size) (hroot : g.root? r = none) :
    g.Lacks (g.ruleName r) := by
  have hs := Array.getElem?_eq_getElem hr
  rw [ruleName_eq hs]
  exact ⟨r, hd.find?_name hs, hroot⟩

theorem Distinct.isComplete_iff (hd : g.Distinct) : g.isComplete = true ↔ ∀ name, ¬g.Lacks name := by
  rw [Grammar.isComplete_iff]
  constructor
  · rintro h name ⟨r, hr, hroot⟩
    have := h r (lt_size_of_find? hr)
    rw [hroot] at this
    cases this
  · intro h r hr
    refine Option.isSome_iff_ne_none.mpr fun hroot => ?_
    exact h _ (hd.lacks_ruleName hr hroot)

end Grammar

namespace Match

variable {σ : Setting} {r : RuleId} {start : Nat}

/-- A match of a rule in the table that fails for want of a rule has come to one that the grammar lacks. --/
theorem lacks_of_run (hw : σ.grammar.WellFormed) (hr : r < σ.grammar.slots.size) {m : MissingRule}
    (h : run σ r start = .error (.missing m)) :
    ∃ name, m = .undefined σ.grammar.name name ∧ σ.grammar.Lacks name := by
  have hfound := run_found r start σ
  rw [h] at hfound
  cases hp : perform σ (fuelFor σ.grammar σ.input start) (.rule r true) start with
  | none =>
    rw [hp] at hfound
    cases hfound
  | some a =>
    rw [hp] at hfound
    cases a with
    | matched | noMatch => cases hfound
    | undefined q =>
      cases hfound
      -- A match starts at a place in the table, and from there comes only to what nodes refer to.
      obtain ⟨hq, hroot⟩ := (yields_of_perform hp).arrives hw.referred (fun _ _ ht => by cases ht; exact hr) q rfl
      exact ⟨_, rfl, hw.distinct.lacks_ruleName hq hroot⟩

theorem run_ne_missing (hw : σ.grammar.WellFormed) (hc : σ.grammar.isComplete = true) (hr : r < σ.grammar.slots.size)
    (m : MissingRule) : run σ r start ≠ .error (.missing m) := by
  intro h
  obtain ⟨name, -, hlacks⟩ := lacks_of_run hw hr h
  exact hw.distinct.isComplete_iff.mp hc name hlacks

end Match
end Abnf
