import Abnf.Grammar.FirstSet
import Abnf.Text.Case

/-! Grammars: nodes, and a table of named rules that point at them. A rule has a place in the table as
    soon as its name is declared or referred to; it is defined once it has a root. Names are looked up
    without regard to letter case, and keep the spelling of their first mention. -/

namespace Abnf

/-- A place in the rule table. --/
structure Slot where
  name : String
  root : Option NodeId
  deriving DecidableEq, Repr, Inhabited

/-- What goes wrong when a name or a rule is looked up. --/
inductive RuleError where
  | unknown (name : String)
  deriving DecidableEq, Repr

namespace RuleError

def message : RuleError → String
  | unknown name => s!"unknown rule `{name}`"

end RuleError

structure Grammar where
  name : String
  nodes : Array Node
  slots : Array Slot
  /-- The first set of each node, as long as they have been computed and nothing has changed since. --/
  firstSets : Option (Array FirstSet)
  deriving DecidableEq, Repr, Inhabited

namespace Grammar

/-- The grammar with no rules. --/
def empty (name : String) : Grammar := ⟨name, #[], #[], none⟩

def setName (g : Grammar) (name : String) : Grammar := { g with name }

/-! ### Looking up -/

/-- The place of a name in the table, whether the rule is defined or not. --/
def find? (g : Grammar) (name : String) : Option RuleId := g.slots.findIdx? fun s => sameName s.name name

/-- The root of a rule, if it is defined. --/
def root? (g : Grammar) (r : RuleId) : Option NodeId := g.slots[r]?.bind Slot.root

/-- The place of a defined rule. --/
def rule (g : Grammar) (name : String) : Except RuleError RuleId :=
  match g.find? name with
  | some r => if (g.root? r).isSome then .ok r else .error (.unknown name)
  | none => .error (.unknown name)

/-- Whether a name is that of a defined rule. --/
def defines (g : Grammar) (name : String) : Bool := (g.find? name).any fun r => (g.root? r).isSome

/-- The spelling of a rule's name. --/
def ruleName (g : Grammar) (r : RuleId) : String := (g.slots[r]?.map Slot.name).getD ""

/-- The defined rules in the order of the table. --/
def rules (g : Grammar) : List (RuleId × String × NodeId) :=
  g.slots.toList.zipIdx.filterMap fun (s, r) => s.root.map fun n => (r, s.name, n)

/-- The names that have no definition, in the order of the table. --/
def undefinedNames (g : Grammar) : List String :=
  (g.slots.toList.filter fun s => s.root.isNone).map Slot.name

/-- Whether every name is defined. --/
def isComplete (g : Grammar) : Bool := g.slots.all fun s => s.root.isSome

def isOptimized (g : Grammar) : Bool := g.firstSets.isSome

/-! ### Building -/

/-- Add a node behind the others. --/
def addNode (n : Node) (g : Grammar) : NodeId × Grammar :=
  (g.nodes.size, { g with nodes := g.nodes.push n, firstSets := none })

/-- The place of a name, made for it if it has none yet. --/
def declare (name : String) (g : Grammar) : RuleId × Grammar :=
  match g.find? name with
  | some r => (r, g)
  | none => (g.slots.size, { g with slots := g.slots.push ⟨name, none⟩ })

/-- Add a node that refers to a rule by name. --/
def addRef (name : String) (g : Grammar) : NodeId × Grammar :=
  let (r, g) := g.declare name
  g.addNode (.ruleRef r)

/-- Give a rule a root. --/
def setRoot (r : RuleId) (root : NodeId) (g : Grammar) : Grammar :=
  { g with slots := g.slots.modify r fun s => { s with root := some root } }

/-- Define a rule, in place of any definition it had. --/
def define (name : String) (root : NodeId) (g : Grammar) : RuleId × Grammar :=
  let (r, g) := g.declare name
  (r, { g.setRoot r root with firstSets := none })

/-- The node that tries `alternative` after all that `root` tries. --/
def extended (g : Grammar) (root alternative : NodeId) : Node :=
  match g.nodes[root]? with
  | some (.choice alternatives) => .choice (alternatives ++ [alternative])
  | _ => .choice [root, alternative]

/-- Add an alternative to a defined rule. --/
def extend (name : String) (alternative : NodeId) (g : Grammar) : Except RuleError (RuleId × Grammar) :=
  match g.find? name with
  | none => .error (.unknown name)
  | some r =>
    match g.root? r with
    | none => .error (.unknown name)
    | some root =>
      let (node, g) := g.addNode (g.extended root alternative)
      .ok (r, g.setRoot r node)

end Grammar

/-! ### Demands

A rule that a caller demands, or that a match arrives at, has to be there. -/

/-- A grammar that lacks a rule it is asked for. --/
inductive MissingRule where
  /-- No defined rule has the name. --/
  | unknown (grammar name : String)
  /-- A match arrived at a rule that is referred to and has no definition. --/
  | undefined (grammar name : String)
  deriving DecidableEq, Repr

namespace MissingRule

def message : MissingRule → String
  | unknown grammar name => s!"grammar `{grammar}`: {(RuleError.unknown name).message}"
  | undefined grammar name => s!"grammar `{grammar}`: rule `{name}` is referenced but never defined"

end MissingRule

namespace Grammar

/-- The place of a rule that has to be defined. --/
def demandRule (g : Grammar) (name : String) : Except MissingRule RuleId :=
  match g.rule name with
  | .ok r => .ok r
  | .error _ => .error (.unknown g.name name)

/-- The root of a rule that has to be defined. --/
def demandRoot (g : Grammar) (r : RuleId) : Except MissingRule NodeId :=
  match g.root? r with
  | some n => .ok n
  | none => .error (.undefined g.name (g.ruleName r))

end Grammar
end Abnf
