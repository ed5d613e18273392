import Abnf.Proofs.Binary.Pattern
import Abnf.Proofs.Grammar.WellFormed

/-! The records of rules as they are written and read. The index names a string for each rule, and the records are
    read back with it as long as no pattern nests too deep (`readRecords_encodeRules`). -/

namespace Abnf.Binary

/-- A rule as it is read from a record. --/
def spellRule (g : Grammar) (rule : RuleId × String × NodeId) : String × Pattern String :=
  (rule.2.1, (g.pattern rule.2.2).spell g.ruleName)

/-- The deepest nesting of the patterns of rules. --/
def rulesHeight (g : Grammar) : List (RuleId × String × NodeId) → Nat
  | [] => 0
  | (_, _, root) :: rules => max (g.pattern root).height (rulesHeight g rules)

theorem rulesHeight_le_iff {g : Grammar} {levels : Nat} : ∀ {rules : List (RuleId × String × NodeId)},
    rulesHeight g rules ≤ levels ↔ ∀ x ∈ rules, (g.pattern x.2.2).height ≤ levels
  | [] => by simp [rulesHeight]
  | (_, _, _) :: rules => by
    rw [rulesHeight, Nat.max_le, rulesHeight_le_iff, List.forall_mem_cons]

section
variable (g : Grammar)

theorem within_encodeRules : ∀ (rules : List (RuleId × String × NodeId)) (t : StringTable),
    t.Within (encodeRules g rules t).2
  | [], t => .refl t
  | (_, name, _) :: rules, t =>
    ((StringTable.within_intern (Utf8.bytes name) t).trans (within_encodePattern g.ruleName _ _)).trans
      (within_encodeRules rules _)

theorem nodeCount_encodeRules : ∀ (rules : List (RuleId × String × NodeId)) (t : StringTable),
    (encodeRules g rules t).1.nodeCount = Pattern.sizes ((rules.map (spellRule g)).map Prod.snd)
  | [], _ => rfl
  | (_, _, _) :: rules, t => by
    rw [encodeRules, List.map_cons, List.map_cons, Pattern.sizes, ← nodeCount_encodeRules rules, spellRule,
      Pattern.size_spell]

theorem nodeCount_le_encodeRules : ∀ (rules : List (RuleId × String × NodeId)) (t : StringTable),
    (encodeRules g rules t).1.nodeCount ≤ (encodeRules g rules t).1.bytes.length
  | [], _ => Nat.le_refl 0
  | (_, name, root) :: rules, t => by
    have h₁ := size_le_encodePattern g.ruleName (g.pattern root) (t.intern (Utf8.bytes name)).2
    have h₂ := nodeCount_le_encodeRules rules (encodePattern g.ruleName (g.pattern root) (t.intern (Utf8.bytes name)).2).2
    simp only [encodeRules, List.length_append, Word.length_bytes]
    omega

end

section
variable {g : Grammar} {u : StringTable}

/-- The string of a name that was added to a table which the final table goes on from. --/
theorem getText_intern (hu : u.Fits) {s : String} {t : StringTable} (hw : (t.intern (Utf8.bytes s)).2.Within u) :
    u.view.getText (t.intern (Utf8.bytes s)).1 = .ok s :=
  StringTable.getText_view ((StringTable.holds_intern (Utf8.bytes s) t
    (Nat.le_trans hw.size_le (Nat.le_of_lt hu.size))).within hw) hu.size hu.blob

theorem mapM_getText_index (hu : u.Fits) : ∀ (rules : List (RuleId × String × NodeId)) (t : StringTable),
    (encodeRules g rules t).2.Within u →
    (encodeRules g rules t).1.index.mapM u.view.getText = .ok (rules.map fun x => x.2.1)
  | [], _, _ => rfl
  | (_, name, root) :: rules, t, hw => by
    have hname : (t.intern (Utf8.bytes name)).2.Within u :=
      ((within_encodePattern g.ruleName (g.pattern root) _).trans (within_encodeRules g rules _)).trans hw
    have ih := mapM_getText_index hu rules
      (encodePattern g.ruleName (g.pattern root) (t.intern (Utf8.bytes name)).2).2 hw
    simp only [encodeRules, List.mapM_cons, getText_intern hu hname, ok_bind, ih, List.map_cons]
    rfl

/-- A record is read if its pattern does not nest too deep. --/
theorem readRecord_append (hu : u.Fits) {name : String} {id : UInt32} (hid : u.view.getText id = .ok name)
    (p : Pattern RuleId) (t : StringTable) (offset : Nat) (rest : List UInt8)
    (hw : (encodePattern g.ruleName p t).2.Within u) (hlen : (encodePattern g.ruleName p t).1.length < 2 ^ 32) :
    readRecord u.view name ⟨offset, Word.bytes id ++ ((encodePattern g.ruleName p t).1 ++ rest)⟩ =
      within p.height (maxDepth + 1)
        ((name, p.spell g.ruleName), ⟨offset + 4 + (encodePattern g.ruleName p t).1.length, rest⟩) := by
  rw [readRecord, word_append, ok_bind]
  dsimp only
  rw [hid, ok_bind, if_pos (sameName_refl name),
    readPattern_encodePattern g.ruleName hu p t (maxDepth + 1) (offset + 4) rest hw hlen, within_bind]
  rfl

theorem readRecords_encodeRules (hu : u.Fits) : ∀ (rules : List (RuleId × String × NodeId)) (t : StringTable)
    (offset : Nat) (rest : List UInt8), (encodeRules g rules t).2.Within u →
    (encodeRules g rules t).1.bytes.length < 2 ^ 32 →
    readRecords u.view (rules.map fun x => x.2.1) ⟨offset, (encodeRules g rules t).1.bytes ++ rest⟩ =
      within (rulesHeight g rules) (maxDepth + 1)
        (rules.map (spellRule g), ⟨offset + (encodeRules g rules t).1.bytes.length, rest⟩)
  | [], _, _, _, _, _ => rfl
  | (r, name, root) :: rules, t, offset, rest, hw, hlen => by
    have hrest : (encodePattern g.ruleName (g.pattern root) (t.intern (Utf8.bytes name)).2).2.Within u :=
      (within_encodeRules g rules _).trans hw
    have hid := getText_intern hu ((within_encodePattern g.ruleName (g.pattern root) _).trans hrest)
    simp only [encodeRules, List.length_append, Word.length_bytes] at hlen hw ⊢
    have hp := readRecord_append (g := g) hu hid (g.pattern root) (t.intern (Utf8.bytes name)).2 offset
    generalize encodePattern g.ruleName (g.pattern root) (t.intern (Utf8.bytes name)).2 = body at hw hlen hrest hp ⊢
    have ih := readRecords_encodeRules hu rules body.2 (offset + 4 + body.1.length) rest hw (by omega)
    rw [List.map_cons, List.append_assoc, List.append_assoc, readRecords, hp _ hrest (by omega), within_bind]
    dsimp only
    rw [ih, within_bind, rulesHeight]
    by_cases h₁ : (g.pattern root).height ≤ maxDepth + 1
    · rw [if_pos h₁]
      by_cases h₂ : rulesHeight g rules ≤ maxDepth + 1
      · rw [if_pos h₂, within, if_pos (Nat.max_le.mpr ⟨h₁, h₂⟩), show offset + 4 + body.1.length +
          (encodeRules g rules body.2).1.bytes.length =
          offset + (4 + body.1.length + (encodeRules g rules body.2).1.bytes.length) by omega]
        rfl
      · rw [if_neg h₂, within, if_neg fun h => h₂ (Nat.max_le.mp h).2]
    · rw [if_neg h₁, within, if_neg fun h => h₁ (Nat.max_le.mp h).1]

end

end Abnf.Binary
