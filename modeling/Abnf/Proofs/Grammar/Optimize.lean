import Abnf.Proofs.Grammar.FirstSet
import Mathlib.Data.Finset.Prod

/-! The first sets of a grammar are the least solution of the equations of its nodes. Whatever each single update
    of a set keeps holds of the result (`computeFirstSets_induction`). The sets only grow, by one element
    a pass at least, so the passes allowed are enough to arrive where nothing changes
    (`closed_computeFirstSets`), and no update exceeds any other solution (`computeFirstSets_le`). -/

namespace Abnf.Grammar

/-- The first set of a node among those found so far. --/
def setOf (sets : Array FirstSet) (i : NodeId) : FirstSet := sets.getD i FirstSet.none

/-- The first set of a rule, given those of the nodes. --/
def ruleSet (g : Grammar) (node : NodeId → FirstSet) (r : RuleId) : FirstSet :=
  ((g.root? r).map node).getD FirstSet.all

/-- First sets that hold at least what the equations of the nodes ask for. --/
def Closed (g : Grammar) (node : NodeId → FirstSet) : Prop :=
  ∀ i n, g.nodes[i]? = some n → FirstSet.ofNode node (g.ruleSet node) n ≤ node i

/-- First sets on their way to a solution: one for each node, none with more than its equation gives. --/
structure Rising (g : Grammar) (sets : Array FirstSet) : Prop where
  size : sets.size = g.nodes.size
  le : ∀ i n, g.nodes[i]? = some n → setOf sets i ≤ g.firstSetStep sets n

section
variable {g : Grammar} {sets sets' : Array FirstSet}

theorem ruleSet_mono {node node' : NodeId → FirstSet} (h : ∀ i, node i ≤ node' i) (r : RuleId) :
    g.ruleSet node r ≤ g.ruleSet node' r := by
  unfold ruleSet
  cases g.root? r with
  | none => exact le_refl _
  | some root => exact h root

theorem firstSetStep_mono (h : ∀ i, setOf sets i ≤ setOf sets' i) (n : Node) :
    g.firstSetStep sets n ≤ g.firstSetStep sets' n :=
  FirstSet.ofNode_mono h (ruleSet_mono h) n

/-! ### One update -/

theorem setOf_setIfInBounds (sets : Array FirstSet) (i j : NodeId) (s : FirstSet) :
    setOf (sets.setIfInBounds i s) j = if i = j ∧ i < sets.size then s else setOf sets j := by
  simp only [setOf, Array.getD_eq_getD_getElem?, Array.getElem?_setIfInBounds]
  by_cases hij : i = j
  · subst hij
    by_cases hi : i < sets.size
    · simp [hi]
    · simp [hi]
  · simp [hij]

theorem lt_size_of_getElem? {i : NodeId} {n : Node} (h : g.nodes[i]? = some n) : i < g.nodes.size :=
  (Array.getElem?_eq_some_iff.mp h).1

theorem Rising.le_update (hr : g.Rising sets) {i : NodeId} {n : Node} (hn : g.nodes[i]? = some n) (j : NodeId) :
    setOf sets j ≤ setOf (sets.setIfInBounds i (g.firstSetStep sets n)) j := by
  rw [setOf_setIfInBounds]
  split
  · rename_i hij
    exact hij.1 ▸ hr.le i n hn
  · exact le_refl _

theorem Rising.update (hr : g.Rising sets) {i : NodeId} {n : Node} (hn : g.nodes[i]? = some n) :
    g.Rising (sets.setIfInBounds i (g.firstSetStep sets n)) where
  size := by rw [Array.size_setIfInBounds, hr.size]
  le j m hm := by
    have hgrow := firstSetStep_mono (g := g) (hr.le_update hn)
    rw [setOf_setIfInBounds]
    split
    · rename_i hij
      obtain rfl : n = m := Option.some.inj (hn.symm.trans (hij.1 ▸ hm))
      exact hgrow n
    · exact le_trans (hr.le j m hm) (hgrow m)

/-- A set is in place once its node has been updated. --/
theorem Rising.setOf_update (hr : g.Rising sets) {i : NodeId} {n : Node} (hn : g.nodes[i]? = some n) :
    setOf (sets.setIfInBounds i (g.firstSetStep sets n)) i = g.firstSetStep sets n := by
  rw [setOf_setIfInBounds, if_pos ⟨rfl, by rw [hr.size]; exact lt_size_of_getElem? hn⟩]

/-! ### One pass -/

/-- What an update keeps, a pass keeps. --/
theorem firstSetPass_induction {P : Array FirstSet → Prop}
    (hstep : ∀ sets i n, g.nodes[i]? = some n → P sets → P (sets.setIfInBounds i (g.firstSetStep sets n)))
    (h : P sets) : P (g.firstSetPass sets) := by
  have main : ∀ (l : List (Node × NodeId)) sets, (∀ p ∈ l, g.nodes[p.2]? = some p.1) → P sets →
      P (l.foldl (fun sets (n, i) => sets.setIfInBounds i (g.firstSetStep sets n)) sets) := by
    intro l
    induction l with
    | nil => exact fun _ _ h => h
    | cons p l ih =>
      intro sets hl h
      exact ih _ (fun q hq => hl q (List.mem_cons_of_mem _ hq)) (hstep sets p.2 p.1 (hl p List.mem_cons_self) h)
  refine main _ sets (fun p hp => ?_) h
  rw [← Array.getElem?_toList]
  exact List.mem_zipIdx_iff_getElem?.mp hp

theorem Rising.pass (hr : g.Rising sets) : g.Rising (g.firstSetPass sets) :=
  firstSetPass_induction (fun _ _ _ hn hr => hr.update hn) hr

theorem Rising.le_pass (hr : g.Rising sets) (j : NodeId) : setOf sets j ≤ setOf (g.firstSetPass sets) j := by
  have h : g.Rising (g.firstSetPass sets) ∧ ∀ j, setOf sets j ≤ setOf (g.firstSetPass sets) j :=
    firstSetPass_induction (P := fun sets' => g.Rising sets' ∧ ∀ j, setOf sets j ≤ setOf sets' j)
    (fun sets' i n hn h => ⟨h.1.update hn, fun j => le_trans (h.2 j) (h.1.le_update hn j)⟩)
    ⟨hr, fun j => le_refl _⟩
  exact h.2 j

/-- A pass gives each node at least what its equation gave before. --/
theorem Rising.step_le_pass (hr : g.Rising sets) {i : NodeId} {n : Node} (hn : g.nodes[i]? = some n) :
    g.firstSetStep sets n ≤ setOf (g.firstSetPass sets) i := by
  -- Along the pass the sets stay above the first ones, and those already updated above their equations.
  have main : ∀ (l : List (Node × NodeId)) sets', g.Rising sets' → (∀ j, setOf sets j ≤ setOf sets' j) →
      (∀ p ∈ l, g.nodes[p.2]? = some p.1) → (n, i) ∈ l ∨ g.firstSetStep sets n ≤ setOf sets' i →
      g.firstSetStep sets n ≤
        setOf (l.foldl (fun sets (n, i) => sets.setIfInBounds i (g.firstSetStep sets n)) sets') i := by
    intro l
    induction l with
    | nil => exact fun _ _ _ _ h => h.resolve_left List.not_mem_nil
    | cons p l ih =>
      intro sets' hr' hle hl h
      have hp := hl p List.mem_cons_self
      have hle' : ∀ j, setOf sets j ≤ setOf (sets'.setIfInBounds p.2 (g.firstSetStep sets' p.1)) j :=
        fun j => le_trans (hle j) (hr'.le_update hp j)
      refine ih _ (hr'.update hp) hle' (fun q hq => hl q (List.mem_cons_of_mem _ hq)) ?_
      rcases h with h | h
      · rcases List.mem_cons.mp h with rfl | h
        · exact Or.inr (le_trans (firstSetStep_mono hle n) (hr'.setOf_update hp).ge)
        · exact Or.inl h
      · exact Or.inr (le_trans h (hr'.le_update hp i))
  refine main _ sets hr (fun j => le_refl _) (fun p hp => ?_) (Or.inl ?_)
  · rw [← Array.getElem?_toList]
    exact List.mem_zipIdx_iff_getElem?.mp hp
  · rw [← Array.getElem?_toList] at hn
    exact List.mem_zipIdx_iff_getElem?.mpr hn

/-- Where a pass changes nothing, the equations hold. --/
theorem Rising.closed (hr : g.Rising sets) (h : g.firstSetPass sets = sets) : g.Closed (setOf sets) := by
  intro i n hn
  have := hr.step_le_pass hn
  rwa [h] at this

/-! ### Enough passes -/

/-- All that a first set can hold. --/
def elements : Finset (Option UInt8) := insert none ((Finset.range 256).image fun k => some (UInt8.ofNat k))

theorem mem_elements (x : Option UInt8) : x ∈ elements := by
  cases x with
  | none => exact Finset.mem_insert_self _ _
  | some b =>
    refine Finset.mem_insert_of_mem (Finset.mem_image.mpr ⟨b.toNat, Finset.mem_range.mpr b.toNat_lt, ?_⟩)
    rw [UInt8.ofNat_toNat]

theorem card_elements_le : elements.card ≤ 257 := by
  have hbytes : ((Finset.range 256).image fun k => some (UInt8.ofNat k)).card ≤ 256 :=
    Nat.le_trans Finset.card_image_le (Finset.card_range 256).le
  have hinsert := Finset.card_insert_le none ((Finset.range 256).image fun k => some (UInt8.ofNat k))
  rw [elements]
  omega

/-- The nodes of a grammar, each with the elements that its set holds. --/
def held (g : Grammar) (sets : Array FirstSet) : Finset (NodeId × Option UInt8) :=
  (Finset.range g.nodes.size ×ˢ elements).filter fun p => (setOf sets p.1).Has p.2

theorem card_held_le (g : Grammar) (sets : Array FirstSet) : (g.held sets).card ≤ 257 * g.nodes.size := by
  calc (g.held sets).card
    _ ≤ (Finset.range g.nodes.size ×ˢ elements).card := Finset.card_filter_le _ _
    _ = g.nodes.size * elements.card := by rw [Finset.card_product, Finset.card_range]
    _ ≤ 257 * g.nodes.size := by
      rw [Nat.mul_comm]
      exact Nat.mul_le_mul_right _ card_elements_le

theorem held_mono (h : ∀ i, setOf sets i ≤ setOf sets' i) : g.held sets ⊆ g.held sets' := by
  intro p hp
  rw [held, Finset.mem_filter] at hp ⊢
  exact ⟨hp.1, h p.1 p.2 hp.2⟩

theorem ext_setOf (hs : sets'.size = sets.size) (h : ∀ i < sets.size, setOf sets' i = setOf sets i) : sets' = sets := by
  refine Array.ext hs fun i hi hi' => ?_
  simpa [setOf, Array.getD_eq_getD_getElem?, hi, hi'] using h i hi'

theorem eq_of_held_subset (hs : sets.size = g.nodes.size) (hs' : sets'.size = g.nodes.size)
    (hle : ∀ i, setOf sets i ≤ setOf sets' i) (h : g.held sets' ⊆ g.held sets) : sets' = sets := by
  refine ext_setOf (hs'.trans hs.symm) fun i hi => le_antisymm (fun x hx => ?_) (hle i)
  have hmem : (i, x) ∈ g.held sets' :=
    Finset.mem_filter.mpr ⟨Finset.mem_product.mpr ⟨Finset.mem_range.mpr (hs ▸ hi), mem_elements x⟩, hx⟩
  exact (Finset.mem_filter.mp (h hmem)).2

/-- Sets that grow and change hold one element more at least. --/
theorem card_held_lt (hs : sets.size = g.nodes.size) (hs' : sets'.size = g.nodes.size)
    (hle : ∀ i, setOf sets i ≤ setOf sets' i) (hne : sets' ≠ sets) : (g.held sets).card < (g.held sets').card :=
  Finset.card_lt_card ⟨held_mono hle, fun hsub => hne (eq_of_held_subset hs hs' hle hsub)⟩

/-- A pass that changes something adds an element to some set. --/
theorem Rising.card_held_lt (hr : g.Rising sets) (h : g.firstSetPass sets ≠ sets) :
    (g.held sets).card < (g.held (g.firstSetPass sets)).card :=
  Grammar.card_held_lt hr.size hr.pass.size hr.le_pass h

theorem closed_firstSetsFrom : ∀ {fuel : Nat} {sets : Array FirstSet}, g.Rising sets →
    257 * g.nodes.size < fuel + (g.held sets).card → g.Closed (setOf (g.firstSetsFrom fuel sets))
  | 0, sets, _, h => by
    have := card_held_le g sets
    omega
  | fuel + 1, sets, hr, h => by
    rw [firstSetsFrom]
    by_cases heq : g.firstSetPass sets = sets
    · rw [if_pos heq]
      exact hr.closed heq
    · rw [if_neg heq]
      have := hr.card_held_lt heq
      exact closed_firstSetsFrom hr.pass (by omega)

/-! ### The result -/

theorem firstSetsFrom_induction {P : Array FirstSet → Prop}
    (hstep : ∀ sets i n, g.nodes[i]? = some n → P sets → P (sets.setIfInBounds i (g.firstSetStep sets n))) :
    ∀ {fuel : Nat} {sets : Array FirstSet}, P sets → P (g.firstSetsFrom fuel sets)
  | 0, _, h => h
  | fuel + 1, sets, h => by
    rw [firstSetsFrom]
    split
    · exact h
    · exact firstSetsFrom_induction hstep (firstSetPass_induction hstep h)

/-- What holds of empty sets and is kept by every update holds of the first sets of a grammar. --/
theorem computeFirstSets_induction {P : Array FirstSet → Prop}
    (hinit : P (Array.replicate g.nodes.size FirstSet.none))
    (hstep : ∀ sets i n, g.nodes[i]? = some n → P sets → P (sets.setIfInBounds i (g.firstSetStep sets n))) :
    P g.computeFirstSets :=
  firstSetsFrom_induction hstep hinit

theorem setOf_replicate (n : Nat) (i : NodeId) : setOf (Array.replicate n FirstSet.none) i = FirstSet.none := by
  simp only [setOf, Array.getD_eq_getD_getElem?, Array.getElem?_replicate]
  split <;> rfl

theorem replicate_le (n : Nat) (i : NodeId) (s : FirstSet) : setOf (Array.replicate n FirstSet.none) i ≤ s :=
  (setOf_replicate n i).le.trans (FirstSet.none_le s)

theorem rising_replicate (g : Grammar) : g.Rising (Array.replicate g.nodes.size FirstSet.none) where
  size := Array.size_replicate
  le i _ _ := replicate_le _ i _

@[simp] theorem size_computeFirstSets (g : Grammar) : g.computeFirstSets.size = g.nodes.size :=
  computeFirstSets_induction (P := fun sets => sets.size = g.nodes.size) Array.size_replicate
    fun _ _ _ _ h => by rw [Array.size_setIfInBounds, h]

/-- The first sets of a grammar satisfy its equations. --/
theorem closed_computeFirstSets (g : Grammar) : g.Closed (setOf g.computeFirstSets) :=
  closed_firstSetsFrom (rising_replicate g) (by omega)

/-- Sets that lie below a solution do so after an update. --/
theorem Closed.update_le {node : NodeId → FirstSet} (h : g.Closed node) (hle : ∀ i, setOf sets i ≤ node i)
    {i : NodeId} {n : Node} (hn : g.nodes[i]? = some n) (j : NodeId) :
    setOf (sets.setIfInBounds i (g.firstSetStep sets n)) j ≤ node j := by
  rw [setOf_setIfInBounds]
  split
  · rename_i hij
    exact hij.1 ▸ le_trans (FirstSet.ofNode_mono hle (ruleSet_mono hle) n) (h i n hn)
  · exact hle j

/-- They are the least sets that do. --/
theorem computeFirstSets_le {node : NodeId → FirstSet} (h : g.Closed node) : ∀ i, setOf g.computeFirstSets i ≤ node i :=
  computeFirstSets_induction (P := fun sets => ∀ i, setOf sets i ≤ node i) (fun i => replicate_le _ i _)
    fun _ _ _ hn hle => h.update_le hle hn

theorem rising_computeFirstSets (g : Grammar) : g.Rising g.computeFirstSets :=
  computeFirstSets_induction (rising_replicate g) fun _ _ _ hn hr => hr.update hn

/-- They hold no more than their equations ask for. --/
theorem setOf_computeFirstSets {i : NodeId} {n : Node} (hn : g.nodes[i]? = some n) : setOf g.computeFirstSets i =
    FirstSet.ofNode (setOf g.computeFirstSets) (g.ruleSet (setOf g.computeFirstSets)) n :=
  le_antisymm ((rising_computeFirstSets g).le i n hn) (closed_computeFirstSets g i n hn)

/-- Where there is a node, its set is known. --/
theorem getD_computeFirstSets {i : NodeId} (h : i < g.nodes.size) (s : FirstSet) :
    g.computeFirstSets.getD i s = setOf g.computeFirstSets i := by
  simp [setOf, Array.getD_eq_getD_getElem?, h]

end

end Abnf.Grammar
