import Abnf.Proofs.Match.Pruning

/-! Grammars that resemble each other: the nodes of one are made as those of the other, but for the notation of
    leaves and for wrappings, which mean what they enclose. Either side may have wrappings that the other has
    not, and a node may be copied however often. Such grammars have the same first sets (`Resembles.setOf_eq`) and
    match alike (`Yields.resemble`, `run_resemble`). The upper bounds of repetitions need only agree on as many
    rounds as an input has room for. -/

namespace Abnf

open List (Forall₂)

/-! ### Nodes -/

namespace Node

/-- A node that means what its only part means: brackets, or a repetition of once and no more. --/
inductive Wraps : Node → NodeId → Prop where
  | fold (n : NodeId) : Wraps (.fold n) n
  | once (n : NodeId) : Wraps (.repetition n 1 (some 1)) n

/-- Where a match of a leaf ends; none for a node that is no leaf. --/
def leafStop? (input : ByteArray) (pos : Nat) : Node → Option (Option Nat)
  | literal bytes ignoreCase => some (Match.literal? input bytes ignoreCase pos)
  | charRange lo hi => some (Match.charRange? input lo hi pos)
  | _ => none

/-- Two leaves that match the same, and begin with the same. --/
structure SameLeaf (n n' : Node) : Prop where
  stops : ∀ input pos, ∃ stop, n.leafStop? input pos = some stop ∧ n'.leafStop? input pos = some stop
  sets : ∀ node rule, FirstSet.ofNode node rule n = FirstSet.ofNode node rule n'

/-- Two nodes that say the same of parts that are related, in an input with room for so many rounds. --/
inductive Similar (room : Nat) (R : NodeId → NodeId → Prop) : Node → Node → Prop where
  | leaf {n n' : Node} (h : n.SameLeaf n') : Similar room R n n'
  | sequence {ns ns' : List NodeId} (h : Forall₂ R ns ns') : Similar room R (.sequence ns) (.sequence ns')
  | choice {ns ns' : List NodeId} (h : Forall₂ R ns ns') : Similar room R (.choice ns) (.choice ns')
  | repetition {n n' : NodeId} (h : R n n') (min : UInt32) {max max' : Option UInt32}
      (hmax : ∀ count ≤ room, (max.map UInt32.toNat).all (count < ·) = (max'.map UInt32.toNat).all (count < ·)) :
    Similar room R (.repetition n min max) (.repetition n' min max')
  | ruleRef (r : RuleId) : Similar room R (.ruleRef r) (.ruleRef r)
  | fold {n n' : NodeId} (h : R n n') : Similar room R (.fold n) (.fold n')

theorem SameLeaf.symm {n n' : Node} (h : n.SameLeaf n') : n'.SameLeaf n where
  stops input pos := by
    obtain ⟨stop, h₁, h₂⟩ := h.stops input pos
    exact ⟨stop, h₂, h₁⟩
  sets node rule := (h.sets node rule).symm

theorem SameLeaf.trans {n n' n'' : Node} (h : n.SameLeaf n') (h' : n'.SameLeaf n'') : n.SameLeaf n'' where
  stops input pos := by
    obtain ⟨stop, h₁, h₂⟩ := h.stops input pos
    obtain ⟨stop', h₁', h₂'⟩ := h'.stops input pos
    obtain rfl : stop = stop' := Option.some.inj (h₂.symm.trans h₁')
    exact ⟨stop, h₁, h₂'⟩
  sets node rule := (h.sets node rule).trans (h'.sets node rule)

/-- Only leaves are the same leaf. --/
theorem SameLeaf.ne_none {n n' : Node} (h : n.SameLeaf n') : n.leafStop? ⟨#[]⟩ 0 ≠ none := by
  obtain ⟨stop, hstop, -⟩ := h.stops ⟨#[]⟩ 0
  rw [hstop]
  exact nofun

theorem sameLeaf_literal (bytes : List UInt8) (ignoreCase : Bool) :
    (literal bytes ignoreCase).SameLeaf (literal bytes ignoreCase) :=
  ⟨fun _ _ => ⟨_, rfl, rfl⟩, fun _ _ => rfl⟩

theorem sameLeaf_charRange (lo hi : UInt32) : (charRange lo hi).SameLeaf (charRange lo hi) :=
  ⟨fun _ _ => ⟨_, rfl, rfl⟩, fun _ _ => rfl⟩

section
variable {room : Nat} {R : NodeId → NodeId → Prop} {n n' : Node}

theorem Similar.symm (h : n.Similar room R n') : n'.Similar room (fun i' i => R i i') n := by
  cases h with
  | leaf h => exact .leaf h.symm
  | sequence h => exact .sequence h.flip
  | choice h => exact .choice h.flip
  | repetition h min hmax =>
    refine .repetition ?_ min fun count hcount => (hmax count hcount).symm
    exact h
  | ruleRef r => exact .ruleRef r
  | fold h =>
    refine .fold ?_
    exact h

variable {node node' : NodeId → FirstSet} {rule rule' : RuleId → FirstSet}

theorem Wraps.ofNode_eq {k : NodeId} (h : n.Wraps k) : FirstSet.ofNode node rule n = node k := by
  cases h with
  | fold => rfl
  | once => exact FirstSet.ext_has fun x => by simp [FirstSet.ofNode]

theorem Similar.ofNode_le (h : n.Similar room R n') (hn : ∀ i i', R i i' → node i ≤ node' i')
    (hr : ∀ r, rule r ≤ rule' r) : FirstSet.ofNode node rule n ≤ FirstSet.ofNode node' rule' n' := by
  cases h with
  | leaf h =>
    rw [← h.sets]
    cases n with
    | literal | charRange => exact le_refl _
    | _ => exact (h.ne_none rfl).elim
  | sequence h => exact FirstSet.foldr_followedBy_le hn h
  | choice h => exact FirstSet.foldr_union_le hn h
  | @repetition _ _ h min max max' hmax =>
    have hzero : max = some 0 ↔ max' = some 0 := by
      have h₀ := hmax 0 (Nat.zero_le room)
      rw [Bool.eq_iff_iff, all_pos_iff, all_pos_iff] at h₀
      exact not_iff_not.mp h₀
    intro x hx
    rw [FirstSet.ofNode, FirstSet.has_orEmpty] at hx ⊢
    refine hx.imp_left fun hx => ?_
    split at hx
    · exact absurd hx (FirstSet.has_none x)
    · rename_i hne
      rw [if_neg fun h' => hne (hzero.mpr h')]
      exact hn _ _ h x hx
  | ruleRef r => exact hr r
  | fold h => exact hn _ _ h

end

end Node

/-! ### Grammars -/

namespace Grammar

section
variable (room : Nat) (R : NodeId → NodeId → Prop) (g g' : Grammar)

/-- Two nodes are similar, or one of them wraps a node that is related to the other. --/
inductive Pairs (i j : NodeId) : Prop where
  | similar {n n' : Node} (hn : g.nodes[i]? = some n) (hn' : g'.nodes[j]? = some n') (h : n.Similar room R n')
  | left {n : Node} {k : NodeId} (hn : g.nodes[i]? = some n) (h : n.Wraps k) (hlt : k < i) (hr : R k j)
  | right {n : Node} {k : NodeId} (hn : g'.nodes[j]? = some n) (h : n.Wraps k) (hlt : k < j) (hr : R i k)

/-- A grammar resembles another: related nodes pair up, and rules have related roots. --/
structure Resembles : Prop where
  nodes : ∀ i j, R i j → Pairs room R g g' i j
  roots : ∀ r, (g.root? r = none ∧ g'.root? r = none) ∨
    ∃ i j, g.root? r = some i ∧ g'.root? r = some j ∧ R i j

end

section
variable {room : Nat} {R : NodeId → NodeId → Prop} {g g' : Grammar}

/-- A grammar copies another: related nodes are alike, and rules have related roots. --/
structure Copies (R : NodeId → NodeId → Prop) (g g' : Grammar) : Prop where
  nodes : ∀ i i', R i i' → ∃ n n', g.nodes[i]? = some n ∧ g'.nodes[i']? = some n' ∧ n.Alike R n'
  roots : ∀ r, (g.root? r = none ∧ g'.root? r = none) ∨
    ∃ i i', g.root? r = some i ∧ g'.root? r = some i' ∧ R i i'

/-- An upper bound may be left out of a copy if no input is long enough to reach it. --/
theorem Copies.resembles (hc : g.Copies R g') : g.Resembles (2 ^ 32 - 2) R g' where
  nodes i j hij := by
    obtain ⟨n, n', hn, hn', hnn⟩ := hc.nodes i j hij
    refine .similar hn hn' ?_
    cases hnn with
    | literal bytes ignoreCase => exact .leaf (Node.sameLeaf_literal bytes ignoreCase)
    | charRange lo hi => exact .leaf (Node.sameLeaf_charRange lo hi)
    | sequence h => exact .sequence h
    | choice h => exact .choice h
    | repetition h min hmax => exact .repetition h min fun count hcount => hmax count (by omega)
    | ruleRef r => exact .ruleRef r
    | fold h => exact .fold h
  roots := hc.roots

theorem Resembles.symm (h : g.Resembles room R g') : g'.Resembles room (fun j i => R i j) g where
  nodes j i hij := by
    cases h.nodes i j hij with
    | similar hn hn' h => exact .similar hn' hn h.symm
    | left hn h hlt hr => exact .right hn h hlt hr
    | right hn h hlt hr => exact .left hn h hlt hr
  roots r := by
    rcases h.roots r with ⟨h, h'⟩ | ⟨i, j, h, h', hij⟩
    · exact Or.inl ⟨h', h⟩
    · exact Or.inr ⟨j, i, h', h, hij⟩

theorem Resembles.ruleSet_le (h : g.Resembles room R g') {node node' : NodeId → FirstSet}
    (hn : ∀ i j, R i j → node i ≤ node' j) (r : RuleId) : g.ruleSet node r ≤ g'.ruleSet node' r := by
  unfold ruleSet
  rcases h.roots r with ⟨h, h'⟩ | ⟨i, j, h, h', hij⟩
  · rw [h, h']
    exact le_refl _
  · rw [h, h']
    exact hn i j hij

/-- No update makes a set larger than that of a related node. --/
theorem Resembles.setOf_le (h : g.Resembles room R g') : ∀ i j, R i j →
    setOf g.computeFirstSets i ≤ setOf g'.computeFirstSets j := by
  refine computeFirstSets_induction (g := g)
    (P := fun sets => ∀ i j, R i j → setOf sets i ≤ setOf g'.computeFirstSets j) ?_ ?_
  · exact fun i j _ => (setOf_replicate g.nodes.size i).le.trans (FirstSet.none_le _)
  · intro sets k m hm hle i j hij
    rw [setOf_setIfInBounds]
    split
    · rename_i hki
      obtain ⟨rfl, -⟩ := hki
      -- The wrappings of the other node are taken off one by one; each has the set of what it encloses.
      induction j using Nat.strong_induction_on with
      | _ j ih =>
        cases h.nodes k j hij with
        | similar hn hn' hs =>
          obtain rfl := Option.some.inj (hm.symm.trans hn)
          exact (hs.ofNode_le hle (h.ruleSet_le hle)).trans (closed_computeFirstSets g' j _ hn')
        | left hn hw _ hr =>
          obtain rfl := Option.some.inj (hm.symm.trans hn)
          exact hw.ofNode_eq.le.trans (hle _ j hr)
        | right hn hw hlt hr =>
          exact (ih _ hlt hr).trans (hw.ofNode_eq.ge.trans (closed_computeFirstSets g' j _ hn))
    · exact hle i j hij

theorem Resembles.setOf_eq (h : g.Resembles room R g') {i j : NodeId} (hij : R i j) :
    setOf g.computeFirstSets i = setOf g'.computeFirstSets j :=
  le_antisymm (h.setOf_le i j hij) (h.symm.setOf_le j i hij)

theorem Resembles.lt_size (h : g.Resembles room R g') {i j : NodeId} (hij : R i j) :
    i < g.nodes.size ∧ j < g'.nodes.size := by
  induction hs : i + j using Nat.strong_induction_on generalizing i j with
  | _ s ih =>
    cases h.nodes i j hij with
    | similar hn hn' => exact ⟨lt_size_of_getElem? hn, lt_size_of_getElem? hn'⟩
    | @left _ k hn _ hlt hr => exact ⟨lt_size_of_getElem? hn, (ih (k + j) (hs ▸ Nat.add_lt_add_right hlt j) hr rfl).2⟩
    | @right _ k hn _ hlt hr => exact ⟨(ih (i + k) (hs ▸ Nat.add_lt_add_left hlt i) hr rfl).1, lt_size_of_getElem? hn⟩

end

end Grammar

namespace Match

/-! ### Wrappings -/

section
variable {σ : Setting} {i n : NodeId} {pos : Nat} {a : Answer}

/-- A repetition that goes round once has gone round all that it can. --/
theorem yields_settled (h : Yields σ (.rounds n 1 (some 1) 1) pos a) : a = .matched pos #[] :=
  h.unique (.roundsFull rfl)

theorem yields_wraps {m : Node} (hi : σ.grammar.nodes[i]? = some m) (hw : m.Wraps n) (h : Yields σ (.node n) pos a) :
    Yields σ (.node i) pos a := by
  cases hw with
  | fold => exact .fold hi h
  | once =>
    refine .repetition hi ?_
    -- A round that reads nothing is the last one, and after any other the bound is reached.
    cases a with
    | matched stop l =>
      by_cases hstop : stop = pos
      · subst hstop
        have hround : Yields σ (.rounds n 1 (some 1) 0) stop ((Answer.matched stop #[]).after l) := .roundsEmpty rfl h
        rwa [Answer.after_matched, Array.append_empty] at hround
      · have hround : Yields σ (.rounds n 1 (some 1) 0) pos ((Answer.matched stop #[]).after l) :=
          .roundsNext rfl h hstop (.roundsFull rfl)
        rwa [Answer.after_matched, Array.append_empty] at hround
    | noMatch => exact .roundsFail rfl h
    | undefined r => exact .roundsStop rfl h

theorem yields_leaf {m : Node} (hi : σ.grammar.nodes[i]? = some m) {stop : Option Nat}
    (h : m.leafStop? σ.input pos = some stop) : Yields σ (.node i) pos (.leaf stop) := by
  cases m with
  | literal =>
    cases h
    exact .literal hi
  | charRange =>
    cases h
    exact .charRange hi
  | _ => cases h

end

/-! ### Matches -/

section
variable {room : Nat} {R : NodeId → NodeId → Prop}

/-- Two tasks at a position that come to the same in grammars that resemble each other. A repetition of once and no
    more stands for its part; the rounds of any other have read a byte each, so there is room for them. --/
inductive Task.Similar (room : Nat) (R : NodeId → NodeId → Prop) (size pos : Nat) : Task → Task → Prop where
  | node {i j : NodeId} (h : R i j) : Similar room R size pos (.node i) (.node j)
  | rule (r : RuleId) (wanted : Bool) : Similar room R size pos (.rule r wanted) (.rule r wanted)
  | sequence {ns ns' : List NodeId} (h : Forall₂ R ns ns') : Similar room R size pos (.sequence ns) (.sequence ns')
  | choice {ns ns' : List NodeId} (h : Forall₂ R ns ns') (empty : Option Log) :
    Similar room R size pos (.choice ns empty) (.choice ns' empty)
  | rounds {n n' : NodeId} (h : R n n') (min : Nat) {max max' : Option Nat}
      (hmax : ∀ count ≤ room, max.all (count < ·) = max'.all (count < ·)) {count : Nat}
      (hcount : count = 0 ∨ (count ≤ pos ∧ pos ≤ size)) :
    Similar room R size pos (.rounds n min max count) (.rounds n' min max' count)
  | once {n j : NodeId} (h : R n j) : Similar room R size pos (.rounds n 1 (some 1) 0) (.node j)

variable {σ : Setting} {g' : Grammar}

/-- A node matches as one that it is related to, if it does so where that one is similar to it, and where itself is
    a wrapping. --/
theorem yields_of_pairs (hall : σ.grammar.Resembles room R g') {i : NodeId} {n : Node} (hi : σ.grammar.nodes[i]? = some n)
    {pos : Nat} {a : Answer}
    (hsimilar : ∀ j n', g'.nodes[j]? = some n' → n.Similar room R n' → Yields { σ with grammar := g' } (.node j) pos a)
    (hwraps : ∀ c j, n.Wraps c → R c j → Yields { σ with grammar := g' } (.node j) pos a) {j : NodeId} (hij : R i j) :
    Yields { σ with grammar := g' } (.node j) pos a := by
  induction j using Nat.strong_induction_on with
  | _ j ih =>
    cases hall.nodes i j hij with
    | similar hn hn' h => exact hsimilar j _ hn' (Option.some.inj (hi.symm.trans hn) ▸ h)
    | left hn h _ hr => exact hwraps _ j (Option.some.inj (hi.symm.trans hn) ▸ h) hr
    | right hn h hlt hr => exact yields_wraps hn h (ih _ hlt hr)

/-- Bounds that agree where there is room agree on the rounds of a repetition. --/
theorem all_of_room {max max' : Option Nat} {size pos count : Nat} {b : Bool}
    (hmax : ∀ count ≤ room, max.all (count < ·) = max'.all (count < ·)) (hsize : size ≤ room)
    (hcount : count = 0 ∨ (count ≤ pos ∧ pos ≤ size)) (h : max.all (count < ·) = b) : max'.all (count < ·) = b :=
  (hmax count (by omega)).symm.trans h

variable (hall : σ.grammar.Resembles room R g') (hroom : σ.input.size ≤ room)
  (hadmits : ∀ pos i j, R i j → admits { σ with grammar := g' } pos j = admits σ pos i)
include hall hroom hadmits

/-- A grammar that resembles another matches as that one, if the same alternatives are passed over. --/
theorem Yields.resemble {task : Task} {pos : Nat} {a : Answer} (h : Yields σ task pos a) {task' : Task}
    (ht : task.Similar room R σ.input.size pos task') : Yields { σ with grammar := g' } task' pos a := by
  induction h generalizing task' with
  | @missing i _ h =>
    cases ht with | node hij =>
    have hlt := (hall.lt_size hij).1
    rw [Array.getElem?_eq_getElem hlt] at h
    cases h
  | literal h | charRange h =>
    cases ht with | node hij =>
    refine yields_of_pairs hall h (fun k n' hn' hs => ?_) nofun hij
    cases hs with | leaf hs =>
    obtain ⟨stop, hstop, hstop'⟩ := hs.stops σ.input _
    cases hstop
    exact yields_leaf hn' hstop'
  | sequence h _ ih =>
    cases ht with | node hij =>
    refine yields_of_pairs hall h (fun k n' hn' hs => ?_) nofun hij
    cases hs with
    | leaf hs => exact (hs.ne_none rfl).elim
    | sequence hns => exact .sequence hn' (ih (.sequence hns))
  | choice h _ ih =>
    cases ht with | node hij =>
    refine yields_of_pairs hall h (fun k n' hn' hs => ?_) nofun hij
    cases hs with
    | leaf hs => exact (hs.ne_none rfl).elim
    | choice hns => exact .choice hn' (ih (.choice hns none))
  | repetition h _ ih =>
    cases ht with | node hij =>
    refine yields_of_pairs hall h (fun k n' hn' hs => ?_) (fun c k hw hr => ?_) hij
    · cases hs with
      | leaf hs => exact (hs.ne_none rfl).elim
      | repetition hn min hmax => exact .repetition hn' (ih (.rounds hn _ hmax (Or.inl rfl)))
    · cases hw
      exact ih (.once hr)
  | ruleRef h _ ih =>
    cases ht with | node hij =>
    refine yields_of_pairs hall h (fun k n' hn' hs => ?_) nofun hij
    cases hs with
    | leaf hs => exact (hs.ne_none rfl).elim
    | ruleRef => exact .ruleRef hn' (ih (.rule _ _))
  | fold h _ ih =>
    cases ht with | node hij =>
    refine yields_of_pairs hall h (fun k n' hn' hs => ?_) (fun c k hw hr => ?_) hij
    · cases hs with
      | leaf hs => exact (hs.ne_none rfl).elim
      | fold hn => exact .fold hn' (ih (.node hn))
    · cases hw
      exact ih (.node hr)
  | @undefined r _ _ h =>
    cases ht
    rcases hall.roots r with ⟨-, h'⟩ | ⟨i, -, hi, -, -⟩
    · exact .undefined h'
    · rw [h] at hi
      cases hi
  | @rule r _ _ _ _ h _ ih =>
    cases ht
    rcases hall.roots r with ⟨hnone, -⟩ | ⟨i, j, hi, hj, hij⟩
    · rw [h] at hnone
      cases hnone
    · obtain rfl := Option.some.inj (hi.symm.trans h)
      exact .rule hj (ih (.node hij))
  | sequenceNil =>
    cases ht with | sequence hns =>
    cases hns
    exact .sequenceNil
  | sequenceCons _ _ ih₁ ih₂ =>
    cases ht with | sequence hns =>
    cases hns with | cons hn hns =>
    exact .sequenceCons (ih₁ (.node hn)) (ih₂ (.sequence hns))
  | sequenceStop _ ha ih =>
    cases ht with | sequence hns =>
    cases hns with | cons hn hns =>
    exact .sequenceStop (ih (.node hn)) ha
  | choiceNil =>
    cases ht with | choice hns =>
    cases hns
    exact .choiceNil
  | choiceSkip hskip _ ih =>
    cases ht with | choice hns =>
    cases hns with | cons hn hns =>
    exact .choiceSkip ((hadmits _ _ _ hn).trans hskip) (ih (.choice hns _))
  | choiceTake hadm _ hlt ih =>
    cases ht with | choice hns =>
    cases hns with | cons hn hns =>
    exact .choiceTake ((hadmits _ _ _ hn).trans hadm) (ih (.node hn)) hlt
  | choiceEmpty hadm _ hlt _ ih₁ ih₂ =>
    cases ht with | choice hns =>
    cases hns with | cons hn hns =>
    exact .choiceEmpty ((hadmits _ _ _ hn).trans hadm) (ih₁ (.node hn)) hlt (ih₂ (.choice hns _))
  | choiceFail hadm _ _ ih₁ ih₂ =>
    cases ht with | choice hns =>
    cases hns with | cons hn hns =>
    exact .choiceFail ((hadmits _ _ _ hn).trans hadm) (ih₁ (.node hn)) (ih₂ (.choice hns _))
  | choiceStop hadm _ ih =>
    cases ht with | choice hns =>
    cases hns with | cons hn hns =>
    exact .choiceStop ((hadmits _ _ _ hn).trans hadm) (ih (.node hn))
  | roundsFull hcount =>
    cases ht with
    | rounds hn _ hmax hle => exact .roundsFull (all_of_room hmax hroom hle hcount)
    | once => cases hcount
  | @roundsEmpty _ _ _ _ pos l hcount _ ih =>
    cases ht with
    | rounds hn _ hmax hle => exact .roundsEmpty (all_of_room hmax hroom hle hcount) (ih (.node hn))
    | once hn =>
      have hround := ih (.node hn)
      rwa [← @Array.append_empty _ l] at hround
  | roundsNext hcount h hne hs ih₁ ih₂ =>
    cases ht with
    | rounds hn _ hmax hle =>
      -- This round has read a byte, so the number of rounds stays below that of the bytes.
      obtain ⟨h₁, h₂⟩ := h.forward _ _ rfl
      exact .roundsNext (all_of_room hmax hroom hle hcount) (ih₁ (.node hn)) hne
        (ih₂ (.rounds hn _ hmax (Or.inr ⟨by omega, by omega⟩)))
    | once hn =>
      rw [yields_settled hs, Answer.after_matched, Array.append_empty]
      exact ih₁ (.node hn)
  | roundsFail hcount _ ih =>
    cases ht with
    | rounds hn _ hmax hle => exact .roundsFail (all_of_room hmax hroom hle hcount) (ih (.node hn))
    | once hn => exact ih (.node hn)
  | roundsStop hcount _ ih =>
    cases ht with
    | rounds hn _ hmax hle => exact .roundsStop (all_of_room hmax hroom hle hcount) (ih (.node hn))
    | once hn => exact ih (.node hn)

end

/-! ### Runs -/

section
variable {room : Nat} {R : NodeId → NodeId → Prop} {g g' : Grammar}

/-- With first sets, related nodes are passed over in front of the same bytes. --/
theorem admits_resemble (h : g.Resembles room R g') {input : ByteArray} {observed : RuleId → Bool} {pos : Nat}
    {i j : NodeId} (hij : R i j) :
    admits ⟨g'.optimize, input, observed⟩ pos j = admits ⟨g.optimize, input, observed⟩ pos i := by
  obtain ⟨hi, hj⟩ := h.lt_size hij
  rw [admits, admits, Grammar.optimize, Grammar.optimize]
  dsimp only
  rw [Grammar.getD_computeFirstSets hi, Grammar.getD_computeFirstSets hj, h.setOf_eq hij]

theorem Yields.resemble_optimize (h : g.Resembles room R g') {input : ByteArray} {observed : RuleId → Bool}
    (hroom : input.size ≤ room) {r : RuleId} {wanted : Bool} {pos : Nat} {a : Answer}
    (ha : Yields ⟨g.optimize, input, observed⟩ (.rule r wanted) pos a) :
    Yields ⟨g'.optimize, input, observed⟩ (.rule r wanted) pos a := by
  have h' : g.optimize.Resembles room R g'.optimize := ⟨fun i j hij => by
    cases h.nodes i j hij with
    | similar hn hn' hs => exact .similar hn hn' hs
    | left hn hw hlt hr => exact .left hn hw hlt hr
    | right hn hw hlt hr => exact .right hn hw hlt hr, h.roots⟩
  exact ha.resemble h' hroom (fun _ _ _ hij => admits_resemble h hij) (.rule r wanted)

/-- A complete grammar, with first sets or without, finds in every match that comes to an end what one that resembles
    it finds with first sets. --/
theorem run_resemble (hw : g.WellFormed) (hc : g.isComplete = true) (h : g.Resembles room R g') {r : RuleId}
    {observed : RuleId → Bool} {input : ByteArray} {start : Nat} (hr : r < g.slots.size) (hroom : input.size ≤ room)
    (hterm : Terminates ⟨g, input, observed⟩ r start) :
    ∃ found, (run ⟨g, input, observed⟩ r start).map Run.found = .ok found ∧
      (run ⟨g'.optimize, input, observed⟩ r start).map Run.found = .ok found := by
  obtain ⟨a, ha⟩ := terminates_iff.mp hterm
  have hdef : a.Defined := ha.defined (hw.complete hc) fun q wanted hq => by cases hq; exact hr
  -- No rule is undefined, so it does not show that alternatives are passed over.
  have hopt : Yields ⟨g.optimize, input, observed⟩ (.rule r true) start a := by
    cases hsets : g.firstSets with
    | none => exact ha.prune (Grammar.closed_computeFirstSets g) hsets hdef
    | some sets =>
      have : g.optimize = g := by
        rw [Grammar.optimize, ← hw.sets sets hsets, ← hsets]
      rwa [this]
  have hother := hopt.resemble_optimize h hroom
  cases a with
  | undefined q => exact absurd rfl (hdef q)
  | noMatch => exact ⟨none, run_of_yields ha, run_of_yields hother⟩
  | matched stop l => exact ⟨some (stop, l), run_of_yields ha, run_of_yields hother⟩

end

end Match
end Abnf
