import Abnf.Proofs.Grammar.Include

/-! The name of a grammar plays no part in how it is built: each operation does the same to a grammar by another name, and
    hands out the same ids. Only the messages about rules that are missing tell the name. -/

namespace Abnf.Grammar

section
variable (name : String)

theorem declare_setName (other : String) (g : Grammar) :
    (g.setName name).declare other = ((g.declare other).1, (g.declare other).2.setName name) := by
  have hfind : (g.setName name).find? other = g.find? other := rfl
  rw [declare, declare, hfind]
  split <;> rfl

theorem declareAll_setName : ∀ (others : List String) (g : Grammar),
    (g.setName name).declareAll others = (g.declareAll others).setName name
  | [], _ => rfl
  | other :: others, g => by
    rw [declareAll, List.foldl_cons, declare_setName]
    exact declareAll_setName others (g.declare other).2

theorem addRef_setName (other : String) (g : Grammar) :
    (g.setName name).addRef other = ((g.addRef other).1, (g.addRef other).2.setName name) := by
  rw [addRef, declare_setName]
  rfl

theorem define_setName (other : String) (root : NodeId) (g : Grammar) :
    (g.setName name).define other root = ((g.define other root).1, (g.define other root).2.setName name) := by
  rw [define, declare_setName]
  rfl

theorem extend_setName (other : String) (alternative : NodeId) (g : Grammar) :
    (g.setName name).extend other alternative =
      (g.extend other alternative).map fun result => (result.1, result.2.setName name) := by
  have hfind : (g.setName name).find? other = g.find? other := rfl
  have hroot : ∀ r, (g.setName name).root? r = g.root? r := fun _ => rfl
  rw [extend, extend, hfind]
  cases g.find? other with
  | none => rfl
  | some r =>
    dsimp only
    rw [hroot]
    cases g.root? r <;> rfl

theorem includeBase_setName (base g : Grammar) : (g.setName name).includeBase base = (g.includeBase base).setName name := by
  rw [includeBase, declareAll_setName]
  rfl

theorem computeFirstSets_setName (g : Grammar) : (g.setName name).computeFirstSets = g.computeFirstSets :=
  computeFirstSets_congr rfl fun _ => rfl

theorem optimize_setName (g : Grammar) : (g.setName name).optimize = g.optimize.setName name := by
  rw [optimize, computeFirstSets_setName]
  rfl

end

theorem WellFormed.setName {g : Grammar} (hw : g.WellFormed) (name : String) : (g.setName name).WellFormed where
  distinct := hw.distinct
  parts := hw.parts
  referred := hw.referred
  roots := hw.roots
  sets sets h := (hw.sets sets h).trans (computeFirstSets_setName name g).symm

end Abnf.Grammar
