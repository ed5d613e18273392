import Abnf.Grammar.Basic

/-! The first sets of a whole grammar, as the least solution of the equations of its nodes. They start from
    nothing and grow, node by node in the order of the grammar, until a pass changes nothing. A rule
    without a definition may begin with anything. -/

namespace Abnf.Grammar

/-- The first set that the sets so far give to a node. --/
def firstSetStep (g : Grammar) (sets : Array FirstSet) (n : Node) : FirstSet :=
  let node := fun i => sets.getD i FirstSet.none
  FirstSet.ofNode node (fun r => ((g.root? r).map node).getD FirstSet.all) n

/-- One pass over the nodes; each sees what the pass has found before it. --/
def firstSetPass (g : Grammar) (sets : Array FirstSet) : Array FirstSet :=
  g.nodes.toList.zipIdx.foldl (fun sets (n, i) => sets.setIfInBounds i (g.firstSetStep sets n)) sets

/-- Passes until nothing changes, at most `fuel` of them. --/
def firstSetsFrom (g : Grammar) : (fuel : Nat) → Array FirstSet → Array FirstSet
  | 0, sets => sets
  | fuel + 1, sets =>
    let next := g.firstSetPass sets
    if next = sets then sets else firstSetsFrom g fuel next

/-- The first sets of all nodes. Each pass but the last adds a byte or the empty match to some set, of
    which there are 257 for every node. --/
def computeFirstSets (g : Grammar) : Array FirstSet :=
  g.firstSetsFrom (257 * g.nodes.size + 1) (Array.replicate g.nodes.size FirstSet.none)

/-- The grammar with its first sets. --/
def optimize (g : Grammar) : Grammar := { g with firstSets := some g.computeFirstSets }

end Abnf.Grammar
