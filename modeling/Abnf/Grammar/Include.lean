import Abnf.Grammar.Basic

/-! Including a grammar in another: all its rules that the other does not define are copied. References in
    the copies go by name, so a definition of the including grammar is what they arrive at. -/

namespace Abnf.Grammar

/-- The grammar with a place for each name. --/
def declareAll (g : Grammar) (names : List String) : Grammar :=
  names.foldl (fun g name => (g.declare name).2) g

/-- For each rule of `base`, the place of its name in `g`. --/
def placesOf (g base : Grammar) : Array RuleId := base.slots.map fun s => (g.find? s.name).getD 0

/-- A slot with the root that `base` gives its name, moved by `offset`, unless it has one. --/
def fillSlot (base : Grammar) (offset : Nat) (s : Slot) : Slot :=
  match s.root with
  | some _ => s
  | none => { s with root := ((base.find? s.name).bind base.root?).map (· + offset) }

/-- The grammar with the rules of `base` that it does not define itself. --/
def includeBase (g base : Grammar) : Grammar :=
  let declared := g.declareAll (base.slots.toList.map Slot.name)
  let places := declared.placesOf base
  let offset := g.nodes.size
  { declared with
    nodes := g.nodes ++ base.nodes.map (·.map (· + offset) fun r => places.getD r 0)
    slots := declared.slots.map (base.fillSlot offset)
    firstSets := none }

end Abnf.Grammar
