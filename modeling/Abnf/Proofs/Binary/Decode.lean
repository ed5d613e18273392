import Abnf.Binary.Decode
import Abnf.Proofs.Except
import Abnf.Proofs.Grammar.WellFormed

/-! Whatever bytes a grammar is read from, it is well-formed, complete, and ready for matching. -/

namespace Abnf

/-! ### Patterns -/

namespace Grammar

mutual

/-- The nodes of a pattern are added behind those that are there, each behind its parts. --/
theorem WellFormed.addPattern : ∀ (p : Pattern String) {g : Grammar}, g.WellFormed →
    (g.addPattern p).2.WellFormed ∧ g.Grows (g.addPattern p).2 ∧ (g.addPattern p).1 < (g.addPattern p).2.nodes.size
  | .literal .., g, hw | .charRange .., g, hw => by
    refine ⟨hw.addNode (fun c hc => ?_) (fun r hr => ?_), grows_addNode g _, lt_size_addNode g _⟩
    · cases hc
    · cases hr
  | .sequence ps, g, hw | .choice ps, g, hw => by
    obtain ⟨hw', hgrow, hlt⟩ := WellFormed.addPatterns ps hw
    refine ⟨hw'.addNode hlt (fun r hr => ?_), hgrow.trans (grows_addNode _ _), lt_size_addNode _ _⟩
    cases hr
  | .repetition p _ _, g, hw | .fold p, g, hw => by
    obtain ⟨hw', hgrow, hlt⟩ := WellFormed.addPattern p hw
    refine ⟨hw'.addNode (fun c hc => ?_) (fun r hr => ?_), hgrow.trans (grows_addNode _ _), lt_size_addNode _ _⟩
    · exact List.mem_singleton.mp hc ▸ hlt
    · cases hr
  | .ruleRef name, g, hw => ⟨hw.addRef name, grows_addRef g name, lt_size_addNode _ _⟩

theorem WellFormed.addPatterns : ∀ (ps : List (Pattern String)) {g : Grammar}, g.WellFormed →
    (g.addPatterns ps).2.WellFormed ∧ g.Grows (g.addPatterns ps).2 ∧
      ∀ i ∈ (g.addPatterns ps).1, i < (g.addPatterns ps).2.nodes.size
  | [], g, hw => ⟨hw, .refl g, nofun⟩
  | p :: ps, g, hw => by
    obtain ⟨hw₁, hgrow₁, hlt₁⟩ := WellFormed.addPattern p hw
    obtain ⟨hw₂, hgrow₂, hlt₂⟩ := WellFormed.addPatterns ps hw₁
    refine ⟨hw₂, hgrow₁.trans hgrow₂, fun i hi => ?_⟩
    rcases List.mem_cons.mp hi with rfl | hi
    · exact Nat.lt_of_lt_of_le hlt₁ hgrow₂.size_nodes_le
    · exact hlt₂ i hi

end

theorem WellFormed.definePattern {g : Grammar} (hw : g.WellFormed) (name : String) (p : Pattern String) :
    (g.definePattern name p).WellFormed := by
  obtain ⟨hw', -, hlt⟩ := WellFormed.addPattern p hw
  exact hw'.define name hlt

theorem WellFormed.definePatterns (rules : List (String × Pattern String)) {g : Grammar} (hw : g.WellFormed) :
    (rules.foldl (fun g x => g.definePattern x.1 x.2) g).WellFormed := by
  induction rules generalizing g with
  | nil => exact hw
  | cons x rules ih => exact ih (hw.definePattern x.1 x.2)

end Grammar

namespace Binary

/-! ### Grammars -/

theorem wellFormed_declareDistinct : ∀ {names : List String} {g g' : Grammar}, g.WellFormed →
    declareDistinct g names = .ok g' → g'.WellFormed
  | [], _, _, hw, h => by
    cases h
    exact hw
  | name :: names, g, g', hw, h => by
    rw [declareDistinct] at h
    split at h
    · cases h
    · exact wellFormed_declareDistinct (hw.declare name) h

theorem wellFormed_read {m : Image} {g : Grammar} (h : m.read = .ok g) : g.WellFormed ∧ g.isComplete = true := by
  unfold Image.read at h
  obtain ⟨name, -, h⟩ := bind_eq_ok.mp h
  obtain ⟨names, -, h⟩ := bind_eq_ok.mp h
  obtain ⟨named, hnamed, h⟩ := bind_eq_ok.mp h
  obtain ⟨⟨rules, c⟩, -, h⟩ := bind_eq_ok.mp h
  dsimp only at h
  split at h
  · cases h
  · split at h
    · cases h
    · split at h
      · rename_i hcomplete
        cases h
        exact ⟨(wellFormed_declareDistinct (.empty name) hnamed).definePatterns rules, hcomplete⟩
      · cases h

/-- What is read is as a grammar that was built, and every rule of it has a root. --/
theorem wellFormed_decode {bytes : List UInt8} {g : Grammar} (h : decode bytes = .ok g) :
    g.WellFormed ∧ g.isComplete = true := by
  obtain ⟨m, -, h⟩ := bind_eq_ok.mp h
  unfold Image.decode at h
  split at h
  · rename_i g' hread
    cases h
    obtain ⟨hw, hc⟩ := wellFormed_read hread
    exact ⟨hw.optimize, hc⟩
  · cases h

end Binary
end Abnf
