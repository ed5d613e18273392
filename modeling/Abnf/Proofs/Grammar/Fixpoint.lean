import Abnf.Proofs.Grammar.CheckedSets

/-! Where the computation of first sets ends, and that it does. A set that is brought up to date loses nothing, and gains
    nothing that a solution of the equations lacks. So updates one after the other, at whatever nodes, change only so
    much, and when none would change anything more the sets are the least solution (`Updated.eq_of_closed`). The loop
    is one such order of updates; storing the nodes in another order makes another one (`setOf_moved`). -/

namespace Abnf

theorem FirstSet.ofNode_map (node : NodeId → FirstSet) (rule : RuleId → FirstSet) (f : NodeId → NodeId)
    (f' : RuleId → RuleId) (n : Node) : ofNode node rule (n.map f f') = ofNode (node ∘ f) (rule ∘ f') n := by
  cases n with
  | literal | charRange | repetition | ruleRef | fold => rfl
  | sequence ns | choice ns => exact List.foldr_map

namespace Grammar

/-- First sets that are just what the equations of the nodes ask for. --/
def Solves (g : Grammar) (node : NodeId → FirstSet) : Prop :=
  ∀ i n, g.nodes[i]? = some n → node i = FirstSet.ofNode node (g.ruleSet node) n

theorem Solves.closed {g : Grammar} {node : NodeId → FirstSet} (h : g.Solves node) : g.Closed node :=
  fun i n hn => (h i n hn).ge

theorem solves_computeFirstSets (g : Grammar) : g.Solves (setOf g.computeFirstSets) :=
  fun _ _ hn => setOf_computeFirstSets hn

/-! ### Updates in any order -/

/-- The sets after so many updates, from empty ones on. Each changed a set, and any node may have been next. --/
inductive Updated (g : Grammar) : Nat → Array FirstSet → Prop where
  | start : Updated g 0 (Array.replicate g.nodes.size FirstSet.none)
  | next {k : Nat} {sets : Array FirstSet} {i : NodeId} {n : Node} (h : Updated g k sets) (hn : g.nodes[i]? = some n)
      (hne : g.firstSetStep sets n ≠ setOf sets i) : Updated g (k + 1) (sets.setIfInBounds i (g.firstSetStep sets n))

namespace Updated

variable {g : Grammar} {k : Nat} {sets : Array FirstSet}

theorem rising (h : g.Updated k sets) : g.Rising sets := by
  induction h with
  | start => exact g.rising_replicate
  | next _ hn _ ih => exact ih.update hn

theorem le_of_closed (h : g.Updated k sets) {node : NodeId → FirstSet} (hc : g.Closed node) (i : NodeId) :
    setOf sets i ≤ node i := by
  induction h generalizing i with
  | start => exact replicate_le _ i _
  | next _ hn _ ih => exact hc.update_le ih hn i

/-- Each update adds an element to some set. --/
theorem le_card_held (h : g.Updated k sets) : k ≤ (g.held sets).card := by
  induction h with
  | start => exact Nat.zero_le _
  | @next k sets i n h hn hne ih =>
    have hr := h.rising
    have hchange : sets.setIfInBounds i (g.firstSetStep sets n) ≠ sets := by
      intro heq
      have hset := hr.setOf_update hn
      rw [heq] at hset
      exact hne hset.symm
    have := card_held_lt hr.size (hr.update hn).size (hr.le_update hn) hchange
    omega

theorem le (h : g.Updated k sets) : k ≤ 257 * g.nodes.size := Nat.le_trans h.le_card_held (g.card_held_le sets)

/-- Once all sets hold what their equations ask for, they are the first sets, whatever the order of the updates was. --/
theorem eq_of_closed (h : g.Updated k sets) (hc : g.Closed (setOf sets)) : sets = g.computeFirstSets :=
  ext_setOf (h.rising.size.trans (size_computeFirstSets g).symm) fun i _ =>
    le_antisymm (h.le_of_closed (closed_computeFirstSets g) i) (computeFirstSets_le hc i)

end Updated

/-! ### The loop -/

variable {g : Grammar}

/-- What passes over the nodes come to is made of updates. --/
theorem exists_updated_firstSetsFrom (g : Grammar) (fuel : Nat) :
    ∃ k, g.Updated k (g.firstSetsFrom fuel (Array.replicate g.nodes.size FirstSet.none)) := by
  refine firstSetsFrom_induction (P := fun sets => ∃ k, g.Updated k sets) ?_ ⟨0, .start⟩
  rintro sets i n hn ⟨k, h⟩
  by_cases heq : g.firstSetStep sets n = setOf sets i
  · rw [heq, Checked.setIfInBounds_setOf (by rw [h.rising.size]; exact lt_size_of_getElem? hn)]
    exact ⟨k, h⟩
  · exact ⟨k + 1, h.next hn heq⟩

/-- The loop finds the first sets and ends, as soon as it is allowed a pass for each element of each set, and one. --/
theorem settle_replicate {ε : Type} (hg : g.InRange) {rounds : Nat} (h : 257 * g.nodes.size < rounds) :
    (Checked.settle g rounds (Array.replicate g.nodes.size .none) : Checked ε _) = .ok g.computeFirstSets := by
  obtain ⟨k, hk⟩ := exists_updated_firstSetsFrom g rounds
  have hclosed := closed_firstSetsFrom g.rising_replicate (Nat.lt_of_lt_of_le h (Nat.le_add_right _ _))
  rw [Checked.settle_eq hg g.rising_replicate (Nat.lt_of_lt_of_le h (Nat.le_add_right _ _)), hk.eq_of_closed hclosed]

/-! ### Nodes in another order -/

/-- A grammar that has the nodes of another one at other places, and rules that point at them. --/
structure Moved (f : NodeId → NodeId) (g g' : Grammar) : Prop where
  nodes : ∀ i n, g.nodes[i]? = some n → g'.nodes[f i]? = some (n.map f id)
  roots : ∀ r, g'.root? r = (g.root? r).map f

namespace Moved

variable {f : NodeId → NodeId} {g' : Grammar}

theorem ruleSet_eq (h : g.Moved f g') (node : NodeId → FirstSet) : g'.ruleSet node = g.ruleSet (node ∘ f) := by
  funext r
  rw [ruleSet, ruleSet, h.roots, Option.map_map]

theorem ofNode_eq (h : g.Moved f g') (node : NodeId → FirstSet) (n : Node) :
    FirstSet.ofNode node (g'.ruleSet node) (n.map f id) = FirstSet.ofNode (node ∘ f) (g.ruleSet (node ∘ f)) n := by
  rw [FirstSet.ofNode_map, h.ruleSet_eq]
  rfl

/-- Sets of the moved nodes that lie below those of the nodes do so after an update. --/
theorem update_le (h : g.Moved f g') (hg : g.InRange) {sets : Array FirstSet}
    (hle : ∀ i < g.nodes.size, setOf sets (f i) ≤ setOf g.computeFirstSets i) {j : NodeId} {n' : Node}
    (hn' : g'.nodes[j]? = some n') {i : NodeId} (hi : i < g.nodes.size) :
    setOf (sets.setIfInBounds j (g'.firstSetStep sets n')) (f i) ≤ setOf g.computeFirstSets i := by
  rw [setOf_setIfInBounds]
  split
  · rename_i hj
    have hn := Array.getElem?_eq_getElem hi
    obtain rfl : g.nodes[i].map f id = n' := Option.some.inj ((h.nodes i _ hn).symm.trans (hj.1 ▸ hn'))
    rw [setOf_computeFirstSets hn]
    refine (h.ofNode_eq (setOf sets) g.nodes[i]).le.trans ?_
    refine FirstSet.ofNode_alike (R := fun c c' => c = c' ∧ c < g.nodes.size) ?_ (fun r => ?_)
      (.of_children fun c hc => ⟨rfl, hg.child_lt hn hc⟩)
    · rintro c _ ⟨rfl, hc⟩
      exact hle c hc
    · cases hr : g.root? r with
      | none => simp [ruleSet, hr]
      | some root => simpa [ruleSet, hr] using hle root (hg.root_lt hr)
  · exact hle i hi

/-- A node has the first set that it had at its old place. --/
theorem setOf_eq (h : g.Moved f g') (hg : g.InRange) {i : NodeId} (hi : i < g.nodes.size) :
    setOf g'.computeFirstSets (f i) = setOf g.computeFirstSets i := by
  -- The other grammar may have further nodes, so its sets are bounded along its own updates and not as a least solution.
  have hsolved : g.Closed (setOf g'.computeFirstSets ∘ f) := by
    intro i n hn
    exact (h.ofNode_eq _ n).ge.trans (closed_computeFirstSets g' _ _ (h.nodes i n hn))
  have hbelow : ∀ i < g.nodes.size, setOf g'.computeFirstSets (f i) ≤ setOf g.computeFirstSets i :=
    computeFirstSets_induction (P := fun sets => ∀ i < g.nodes.size, setOf sets (f i) ≤ setOf g.computeFirstSets i)
      (fun i _ => replicate_le _ (f i) _) fun _ _ _ hn' hle _ hi => h.update_le hg hle hn' hi
  exact le_antisymm (hbelow i hi) (computeFirstSets_le hsolved i)

end Moved

/-! ### The result -/

/-- The computation of first sets ends in every grammar whose nodes are there, whichever refer to which: in as many passes
    as there can be elements of sets, and one. What it finds solves the equations of the nodes, and there is
    no smaller solution. Updates in any other order come to an end as well, and to the same sets; and a grammar that
    stores the nodes in another order gives each of them the same set. --/
theorem computeFirstSets_least {g : Grammar} (hg : g.InRange) :
    (∀ rounds, 257 * g.nodes.size < rounds →
      (Checked.settle g rounds (Array.replicate g.nodes.size .none) : Checked Empty _) = .ok g.computeFirstSets) ∧
    g.Solves (setOf g.computeFirstSets) ∧ (∀ node, g.Solves node → ∀ i, setOf g.computeFirstSets i ≤ node i) ∧
    (∀ k sets, g.Updated k sets →
      k ≤ 257 * g.nodes.size ∧ (g.Solves (setOf sets) → sets = g.computeFirstSets)) ∧
    ∀ f g', g.Moved f g' → ∀ i < g.nodes.size, setOf g'.computeFirstSets (f i) = setOf g.computeFirstSets i :=
  ⟨fun _ h => settle_replicate hg h, solves_computeFirstSets g, fun _ h => computeFirstSets_le h.closed,
    fun _ _ h => ⟨h.le, fun hs => h.eq_of_closed hs.closed⟩, fun _ _ h _ hi => h.setOf_eq hg hi⟩

/-- A rule that begins with itself, or with one that has no definition: `s = s "a" / t`. --/
def leftward : Grammar :=
  ⟨"leftward", #[.ruleRef 0, .literal [0x61] true, .sequence [0, 1], .ruleRef 1, .choice [2, 3]],
    #[⟨"s", some 4⟩, ⟨"t", none⟩], none⟩

/-- The same with every node before its parts. --/
def backward : Grammar :=
  ⟨"backward", #[.choice [2, 1], .ruleRef 1, .sequence [4, 3], .literal [0x61] true, .ruleRef 0],
    #[⟨"s", some 0⟩, ⟨"t", none⟩], none⟩

theorem moved_leftward : leftward.Moved (4 - ·) backward where
  nodes := by
    have hall : ∀ i : Fin leftward.nodes.size, backward.nodes[4 - i.val]? = some (leftward.nodes[i].map (4 - ·) id) := by
      decide
    intro i n hn
    obtain ⟨hi, rfl⟩ := Array.getElem?_eq_some_iff.mp hn
    exact hall ⟨i, hi⟩
  roots r := by
    match r with
    | 0 | 1 => rfl
    | r + 2 => simp [root?, leftward, backward]

/-- In either order the loop ends within the passes that it is allowed, and the rule gets the same set. --/
theorem computeFirstSets_least_leftward : leftward.InRange ∧ backward.InRange ∧ leftward.Moved (4 - ·) backward ∧
    (Checked.settle leftward 1286 (Array.replicate 5 .none) : Checked Empty _) = .ok leftward.computeFirstSets ∧
    (Checked.settle backward 1286 (Array.replicate 5 .none) : Checked Empty _) = .ok backward.computeFirstSets ∧
    setOf backward.computeFirstSets 0 = setOf leftward.computeFirstSets 4 := by
  have hleft : leftward.InRange := by decide
  have hback : backward.InRange := by decide
  obtain ⟨hends, -, -, -, hmoved⟩ := computeFirstSets_least hleft
  exact ⟨hleft, hback, moved_leftward, hends 1286 (by decide), (computeFirstSets_least hback).1 1286 (by decide),
    hmoved (4 - ·) backward moved_leftward 4 (by decide)⟩

end Grammar
end Abnf
