import Abnf.Proofs.Checked
import Abnf.Proofs.Grammar.Optimize
import Abnf.Proofs.Grammar.WellFormed

/-! The first sets of a grammar, computed with every step checked: each lookup of a node, of a set and of a bit, and the
    end of the loop, which goes on until a pass has changed nothing. If the nodes that a grammar names are
    there (`Grammar.InRange`), no step fails, and what comes out are the first sets (`Checked.settle_eq`). -/

namespace Abnf.Grammar

/-- The nodes that others are made of and the roots of rules are nodes of the grammar, in whatever order they stand. --/
structure InRange (g : Grammar) : Prop where
  parts : ∀ n ∈ g.nodes, ∀ c ∈ n.children, c < g.nodes.size
  roots : ∀ s ∈ g.slots, ∀ i ∈ s.root, i < g.nodes.size

namespace InRange

variable {g : Grammar}

instance (g : Grammar) : Decidable g.InRange :=
  decidable_of_iff ((∀ n ∈ g.nodes, ∀ c ∈ n.children, c < g.nodes.size) ∧ ∀ s ∈ g.slots, ∀ i ∈ s.root, i < g.nodes.size)
    ⟨fun h => ⟨h.1, h.2⟩, fun h => ⟨h.parts, h.roots⟩⟩

theorem child_lt (hg : g.InRange) {i : NodeId} {n : Node} (hn : g.nodes[i]? = some n) {c : NodeId}
    (hc : c ∈ n.children) : c < g.nodes.size :=
  hg.parts n (Array.mem_of_getElem? hn) c hc

theorem root_lt (hg : g.InRange) {r : RuleId} {i : NodeId} (h : g.root? r = some i) : i < g.nodes.size := by
  obtain ⟨s, hs, hi⟩ := root?_eq_some_iff.mp h
  exact hg.roots s (Array.mem_of_getElem? hs) i hi

end InRange

theorem WellFormed.inRange {g : Grammar} (hw : g.WellFormed) : g.InRange where
  parts n hn c hc := by
    obtain ⟨i, hi⟩ := Array.mem_iff_getElem?.mp hn
    exact Nat.lt_trans (hw.parts i n hi c hc) (lt_size_of_getElem? hi)
  roots s hs i hi := by
    obtain ⟨r, hr⟩ := Array.mem_iff_getElem?.mp hs
    exact hw.roots r i (root?_eq_some_iff.mpr ⟨s, hr, hi⟩)

end Abnf.Grammar

namespace Abnf.Checked

variable {ε : Type}

/-! ### Sets of bytes -/

/-- Add a byte. A set is four words of 64 bits, so the byte lies in the word `b / 64` at the place `b % 64`. --/
def insert (b : UInt8) (s : FirstSet) : Checked ε FirstSet := do
  let word := (b >>> 6).toNat
  let place := (b &&& 63).toNat
  ensure .outOfBounds (word < 4)
  ensure .overflow (place < 64)
  return { s with bytes := s.bytes ||| BitVec.twoPow 256 (64 * word + place) }

/-- Add the bytes between two bounds, both included. --/
def insertRange (lo hi : UInt8) (s : FirstSet) : Checked ε FirstSet :=
  (List.range' lo.toNat (hi.toNat + 1 - lo.toNat)).foldlM (fun s b => insert (UInt8.ofNat b) s) s

theorem insert_eq (b : UInt8) (s : FirstSet) : (insert b s : Checked ε _) = .ok (s.union (.byte b)) := by
  have hb := b.toNat_lt
  have hword : (b >>> 6).toNat = b.toNat / 64 := by simp [UInt8.toNat_shiftRight, Nat.shiftRight_eq_div_pow]
  have hplace : (b &&& 63).toNat = b.toNat % 64 := by
    rw [UInt8.toNat_and, show (63 : UInt8).toNat = 2 ^ 6 - 1 from rfl, Nat.and_two_pow_sub_one_eq_mod]
  rw [insert]
  simp only [hword, hplace]
  rw [ensure_eq (decide_eq_true (by omega)), ok_bind, ensure_eq (decide_eq_true (by omega)), ok_bind,
    Nat.div_add_mod]
  simp only [FirstSet.union, FirstSet.byte, Bool.or_false]
  rfl

theorem foldlM_insert (bs : List Nat) (s : FirstSet) :
    (bs.foldlM (fun s b => insert (UInt8.ofNat b) s) s : Checked ε _) =
      .ok (bs.foldl (fun s b => s.union (.byte (UInt8.ofNat b))) s) := by
  induction bs generalizing s with
  | nil => rfl
  | cons b bs ih => rw [List.foldlM_cons, insert_eq, ok_bind, ih, List.foldl_cons]

theorem has_foldl_union (bs : List Nat) (s : FirstSet) (x : Option UInt8) :
    (bs.foldl (fun s b => s.union (.byte (UInt8.ofNat b))) s).Has x ↔ s.Has x ∨ ∃ b ∈ bs, x = some (UInt8.ofNat b) := by
  induction bs generalizing s with
  | nil => simp
  | cons b bs ih =>
    rw [List.foldl_cons, ih, FirstSet.has_union, FirstSet.has_byte, or_assoc, List.exists_mem_cons_iff]

/-- Bounds the wrong way round enclose nothing. --/
theorem insertRange_eq (lo hi : UInt8) (s : FirstSet) :
    (insertRange lo hi s : Checked ε _) = .ok (s.union (.range lo hi)) := by
  rw [insertRange, foldlM_insert]
  refine congrArg Except.ok (FirstSet.ext_has fun x => ?_)
  rw [has_foldl_union, FirstSet.has_union, FirstSet.has_range]
  refine or_congr_right ⟨?_, ?_⟩
  · rintro ⟨b, hb, rfl⟩
    have hhi := hi.toNat_lt
    rw [List.mem_range'_1] at hb
    refine ⟨_, rfl, ?_⟩
    rw [UInt8.le_iff_toNat_le, UInt8.le_iff_toNat_le, UInt8.toNat_ofNat', Nat.mod_eq_of_lt (by omega)]
    omega
  · rintro ⟨b, rfl, hlo, hhi⟩
    rw [UInt8.le_iff_toNat_le] at hlo hhi
    exact ⟨b.toNat, List.mem_range'_1.mpr (by omega), by rw [UInt8.ofNat_toNat]⟩

/-! ### Single nodes -/

section
variable (sets : Array FirstSet)

/-- The first set of parts in a row, with what has been gathered of the parts before them. --/
def sequenceSet : List NodeId → FirstSet → Checked ε FirstSet
  | [], s => return { s with nullable := true }
  | n :: ns, s => do
    let child ← present sets[n]?
    let s := { s with bytes := s.bytes ||| child.bytes }
    if child.nullable then sequenceSet ns s else return { s with nullable := false }

/-- The first set of alternatives. --/
def choiceSet (ns : List NodeId) : Checked ε FirstSet :=
  ns.foldlM (fun s n => return s.union (← present sets[n]?)) FirstSet.none

/-- The first set that the sets so far give to a node. --/
def eval (g : Grammar) (i : NodeId) : Checked ε FirstSet := do
  match ← present g.nodes[i]? with
  | .literal [] _ => return .onlyEmpty
  | .literal (b :: _) ignoreCase =>
    let s ← insert b .none
    if ignoreCase then insert (Byte.upper b) (← insert (Byte.lower b) s) else return s
  | .charRange lo hi =>
    if hi < byteLimit then insertRange lo.toUInt8 hi.toUInt8 .none
    else
      let s ← if lo < 0x80 then insertRange lo.toUInt8 0x7F .none else pure .none
      insertRange 0xC2 0xF4 s
  | .sequence ns => sequenceSet sets ns .none
  | .choice ns => choiceSet sets ns
  | .repetition n min max =>
    let s ← if max = some 0 then pure .none else present sets[n]?
    return s.orEmpty (min == 0)
  | .ruleRef r =>
    match g.root? r with
    | some root => present sets[root]?
    | none => return .all
  | .fold n => present sets[n]?

variable {sets}

theorem none_union (s : FirstSet) : FirstSet.none.union s = s :=
  FirstSet.ext_has fun x => by simp

theorem union_assoc (s t u : FirstSet) : (s.union t).union u = s.union (t.union u) :=
  FirstSet.ext_has fun x => by simp [or_assoc]

theorem present_setOf {i : NodeId} (h : i < sets.size) :
    (present sets[i]? : Checked ε _) = .ok (Grammar.setOf sets i) := by
  rw [Grammar.setOf, Array.getElem?_eq_getElem h, Array.getD_eq_getD_getElem?, Array.getElem?_eq_getElem h]
  rfl

theorem sequenceSet_eq : ∀ {ns : List NodeId} {s : FirstSet}, (∀ n ∈ ns, n < sets.size) →
    (sequenceSet sets ns s : Checked ε _) =
      .ok ⟨s.bytes ||| (ns.foldr (fun n s => (Grammar.setOf sets n).followedBy s) .onlyEmpty).bytes,
        (ns.foldr (fun n s => (Grammar.setOf sets n).followedBy s) .onlyEmpty).nullable⟩
  | [], s, _ => by
    have hbytes : FirstSet.onlyEmpty.bytes = 0#256 := rfl
    rw [sequenceSet, List.foldr_nil, hbytes, BitVec.or_zero]
    rfl
  | n :: ns, s, h => by
    rw [sequenceSet, present_setOf (h n List.mem_cons_self), ok_bind, List.foldr_cons, FirstSet.followedBy]
    dsimp only
    cases hn : (Grammar.setOf sets n).nullable with
    | true =>
      rw [if_pos rfl, if_pos rfl, sequenceSet_eq fun m hm => h m (List.mem_cons_of_mem n hm), BitVec.or_assoc]
    | false =>
      rw [if_neg Bool.false_ne_true, if_neg Bool.false_ne_true, hn]
      rfl

theorem choiceSet_eq {ns : List NodeId} (h : ∀ n ∈ ns, n < sets.size) :
    (choiceSet sets ns : Checked ε _) = .ok (ns.foldr (fun n s => (Grammar.setOf sets n).union s) .none) := by
  have main : ∀ (ns : List NodeId) (s : FirstSet), (∀ n ∈ ns, n < sets.size) →
      (ns.foldlM (fun s n => return s.union (← present sets[n]?)) s : Checked ε _) =
        .ok (s.union (ns.foldr (fun n s => (Grammar.setOf sets n).union s) .none)) := by
    intro ns
    induction ns with
    | nil =>
      intro s _
      refine congrArg Except.ok (FirstSet.ext_has fun x => ?_)
      simp
    | cons n ns ih =>
      intro s h
      rw [List.foldlM_cons, present_setOf (h n List.mem_cons_self), ok_bind]
      refine (ih _ fun m hm => h m (List.mem_cons_of_mem n hm)).trans ?_
      rw [List.foldr_cons, union_assoc]
  rw [choiceSet, main ns _ h, none_union]

theorem eval_eq {g : Grammar} (hg : g.InRange) (hsize : sets.size = g.nodes.size) {i : NodeId} {n : Node}
    (hn : g.nodes[i]? = some n) : (eval sets g i : Checked ε _) = .ok (g.firstSetStep sets n) := by
  have hchild : ∀ c ∈ n.children, c < sets.size := fun c hc => hsize ▸ hg.child_lt hn hc
  rw [eval, hn, present_some, ok_bind]
  cases n with
  | literal bs ignoreCase =>
    cases bs with
    | nil => rfl
    | cons b bs =>
      dsimp only
      rw [insert_eq, ok_bind, none_union]
      cases ignoreCase with
      | true =>
        rw [if_pos rfl, insert_eq, ok_bind, insert_eq]
        rfl
      | false => rfl
  | charRange lo hi =>
    dsimp only [Grammar.firstSetStep, FirstSet.ofNode]
    rw [FirstSet.ofCharRange]
    split
    · rw [insertRange_eq, none_union]
    · split
      · rw [insertRange_eq, ok_bind, none_union, insertRange_eq]
      · rw [pure_bind, insertRange_eq, none_union]
  | sequence ns =>
    have hbytes : FirstSet.none.bytes = 0#256 := rfl
    refine (sequenceSet_eq hchild).trans ?_
    rw [hbytes, BitVec.zero_or]
    rfl
  | choice ns => exact choiceSet_eq hchild
  | repetition n min max =>
    dsimp only [Grammar.firstSetStep, FirstSet.ofNode]
    split
    · rfl
    · rw [present_setOf (hchild n List.mem_cons_self)]
      rfl
  | ruleRef r =>
    dsimp only [Grammar.firstSetStep, FirstSet.ofNode]
    cases hr : g.root? r with
    | none => rfl
    | some root => exact present_setOf (hsize ▸ hg.root_lt hr)
  | fold n => exact present_setOf (hchild n List.mem_cons_self)

end

/-! ### The loop -/

section
variable (g : Grammar)

/-- Bring the set of one node up to date, and note if that changed it. --/
def update (state : Array FirstSet × Bool) (i : NodeId) : Checked ε (Array FirstSet × Bool) := do
  let (sets, changed) := state
  let next ← eval sets g i
  if next ≠ (← present sets[i]?) then
    ensure .outOfBounds (i < sets.size)
    return (sets.setIfInBounds i next, true)
  else return (sets, changed)

/-- One pass over the nodes, and whether it changed anything. --/
def pass (sets : Array FirstSet) : Checked ε (Array FirstSet × Bool) :=
  (List.range sets.size).foldlM (update g) (sets, false)

/-- Passes until one changes nothing, which has to be among the first so many. --/
def settle : (rounds : Nat) → Array FirstSet → Checked ε (Array FirstSet)
  | 0, _ => fault .endless
  | rounds + 1, sets => do
    let (sets, changed) ← pass g sets
    if changed then settle rounds sets else return sets

/-- The first sets of all nodes. A set takes 40 bytes. --/
def firstSets : Checked ε (Array FirstSet) := do
  reserve g.nodes.size 40
  settle g (257 * g.nodes.size + 1) (Array.replicate g.nodes.size .none)

variable {g} {sets : Array FirstSet}

theorem setIfInBounds_setOf {i : NodeId} (hi : i < sets.size) :
    sets.setIfInBounds i (Grammar.setOf sets i) = sets := by
  refine Array.ext (Array.size_setIfInBounds ..) fun j hj hj' => ?_
  rw [Array.getElem_setIfInBounds]
  split
  · rename_i hij
    subst hij
    rw [Grammar.setOf, Array.getD_eq_getD_getElem?, Array.getElem?_eq_getElem hi, Option.getD_some]
  · rfl

theorem update_eq (hg : g.InRange) (hsize : sets.size = g.nodes.size) {i : NodeId} {n : Node}
    (hn : g.nodes[i]? = some n) (changed : Bool) : (update g (sets, changed) i : Checked ε _) =
      .ok (sets.setIfInBounds i (g.firstSetStep sets n),
        changed || decide (g.firstSetStep sets n ≠ Grammar.setOf sets i)) := by
  have hi : i < sets.size := hsize ▸ (Array.getElem?_eq_some_iff.mp hn).1
  rw [update, eval_eq hg hsize hn, ok_bind, present_setOf hi, ok_bind]
  by_cases heq : g.firstSetStep sets n = Grammar.setOf sets i
  · rw [if_neg (not_not.mpr heq), heq, setIfInBounds_setOf hi, decide_eq_false (not_not.mpr rfl), Bool.or_false]
    rfl
  · rw [if_pos heq, ensure_eq (decide_eq_true hi), decide_eq_true heq, Bool.or_true]
    rfl

/-- The pass over the nodes from the place `k` on. --/
def passFrom (g : Grammar) (ns : List Node) (k : Nat) (sets : Array FirstSet) : Array FirstSet :=
  (ns.zipIdx k).foldl (fun sets (n, i) => sets.setIfInBounds i (g.firstSetStep sets n)) sets

theorem setOf_passFrom {ns : List Node} {k : Nat} {i : NodeId} (hi : i < k) :
    Grammar.setOf (passFrom g ns k sets) i = Grammar.setOf sets i := by
  induction ns generalizing k sets with
  | nil => rfl
  | cons n ns ih =>
    rw [passFrom, List.zipIdx_cons, List.foldl_cons, ← passFrom, ih (Nat.lt_succ_of_lt hi),
      Grammar.setOf_setIfInBounds, if_neg fun h => Nat.ne_of_gt hi h.1]

theorem foldlM_update (hg : g.InRange) : ∀ (ns : List Node) {k : Nat} {sets : Array FirstSet} (changed : Bool),
    sets.size = g.nodes.size → (∀ j n, ns[j]? = some n → g.nodes[k + j]? = some n) →
    ((List.range' k ns.length).foldlM (update g) (sets, changed) : Checked ε _) =
      .ok (passFrom g ns k sets, changed || decide (passFrom g ns k sets ≠ sets))
  | [], k, sets, changed, _, _ => by
    rw [passFrom, List.zipIdx_nil, List.foldl_nil, decide_eq_false (not_not.mpr rfl), Bool.or_false]
    rfl
  | n :: ns, k, sets, changed, hsize, hns => by
    have hn : g.nodes[k]? = some n := hns 0 n rfl
    have hk : k < sets.size := hsize ▸ (Array.getElem?_eq_some_iff.mp hn).1
    have hnext : passFrom g (n :: ns) k sets = passFrom g ns (k + 1) (sets.setIfInBounds k (g.firstSetStep sets n)) := by
      rw [passFrom, List.zipIdx_cons, List.foldl_cons, ← passFrom]
    rw [List.length_cons, List.range'_succ, List.foldlM_cons, update_eq hg hsize hn, ok_bind,
      foldlM_update hg ns _ (by rw [Array.size_setIfInBounds, hsize]) fun j m hm => ?_]
    · rw [hnext, Bool.or_assoc, ← Bool.decide_or]
      congr 3
      -- A set that is brought up to date stays as it is for the rest of the pass.
      have hset := @setOf_passFrom g (sets.setIfInBounds k (g.firstSetStep sets n)) ns (k + 1) k
        (Nat.lt_succ_self k)
      rw [Grammar.setOf_setIfInBounds, if_pos ⟨rfl, hk⟩] at hset
      rw [decide_eq_decide, ← not_and_or, not_iff_not]
      constructor
      · rintro ⟨heq, hrest⟩
        rw [hrest, heq, setIfInBounds_setOf hk]
      · intro hrest
        have heq : g.firstSetStep sets n = Grammar.setOf sets k := by rw [← hset, hrest]
        exact ⟨heq, by rw [hrest, heq, setIfInBounds_setOf hk]⟩
    · rw [Nat.add_right_comm, Nat.add_assoc]
      exact hns (j + 1) m hm

theorem pass_eq (hg : g.InRange) (hsize : sets.size = g.nodes.size) :
    (pass g sets : Checked ε _) = .ok (g.firstSetPass sets, decide (g.firstSetPass sets ≠ sets)) := by
  rw [pass, List.range_eq_range', hsize, ← Array.length_toList, foldlM_update hg g.nodes.toList false hsize,
    Bool.false_or]
  · rfl
  · intro j n hj
    rwa [Array.getElem?_toList, ← Nat.zero_add j] at hj

/-- The loop ends: each pass but the last adds an element to some set, of which there are 257 for every node. --/
theorem settle_eq (hg : g.InRange) : ∀ {rounds : Nat} {sets : Array FirstSet}, g.Rising sets →
    257 * g.nodes.size < rounds + (g.held sets).card →
    (settle g rounds sets : Checked ε _) = .ok (g.firstSetsFrom rounds sets)
  | 0, sets, _, h => by
    have := g.card_held_le sets
    omega
  | rounds + 1, sets, hr, h => by
    rw [settle, pass_eq hg hr.size, ok_bind, Grammar.firstSetsFrom]
    by_cases heq : g.firstSetPass sets = sets
    · rw [decide_eq_false (not_not.mpr heq), if_pos heq, heq]
      rfl
    · have := hr.card_held_lt heq
      rw [decide_eq_true heq, if_neg heq]
      exact settle_eq hg hr.pass (by omega)

/-- The first sets of a well-formed grammar are found without a fault, if the grammar has room in memory. --/
theorem firstSets_eq (hw : g.WellFormed) (hsize : g.nodes.size * 40 < 2 ^ 63) :
    (firstSets g : Checked ε _) = .ok g.computeFirstSets := by
  rw [firstSets, reserve_eq hsize, ok_bind, settle_eq hw.inRange g.rising_replicate (by omega), Grammar.computeFirstSets]

end
end Abnf.Checked
