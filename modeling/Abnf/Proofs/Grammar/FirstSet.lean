import Abnf.Grammar.Optimize
import Mathlib.Algebra.Group.Nat.Defs
import Mathlib.Data.List.Forall2
import Mathlib.Order.Basic

/-! First sets by what they hold: the empty match, and the bytes that a match may begin with. Each operation on
    first sets is described by the elements of its result, sets are ordered by what they hold, and the
    set of a node grows with those that it is computed from, also from one node to another that says the
    same of its parts (`ofNode_alike`). -/

namespace Abnf
namespace FirstSet

/-- Whether a set holds a byte or, for `none`, the empty match. --/
def Has (s : FirstSet) : Option UInt8 → Prop
  | some b => s.contains b = true
  | .none => s.nullable = true

instance (s : FirstSet) (x : Option UInt8) : Decidable (s.Has x) :=
  match x with
  | some b => inferInstanceAs (Decidable (s.contains b = true))
  | .none => inferInstanceAs (Decidable (s.nullable = true))

/-- A set accepts what comes next if it holds it, or else if it holds the empty match. --/
theorem accepts_iff {s : FirstSet} {next : Option UInt8} : s.accepts next = true ↔ s.Has .none ∨ s.Has next := by
  cases next <;> simp [accepts, Has]

/-! ### What the operations hold -/

@[simp] theorem has_none (x : Option UInt8) : ¬FirstSet.none.Has x := by
  cases x <;> simp [none, Has, contains]

@[simp] theorem has_all (x : Option UInt8) : all.Has x := by
  cases x with
  | none => rfl
  | some b =>
    simp only [all, Has, contains, BitVec.getLsbD_allOnes, decide_eq_true_eq]
    exact b.toNat_lt

@[simp] theorem has_onlyEmpty {x : Option UInt8} : onlyEmpty.Has x ↔ x = Option.none := by
  cases x <;> simp [onlyEmpty, Has, contains]

@[simp] theorem has_byte {b : UInt8} {x : Option UInt8} : (byte b).Has x ↔ x = some b := by
  cases x with
  | none => simp [byte, Has]
  | some c => simp [byte, Has, contains, BitVec.getLsbD_twoPow, b.toNat_lt, UInt8.toNat_inj, eq_comm]

@[simp] theorem has_range {lo hi : UInt8} {x : Option UInt8} :
    (range lo hi).Has x ↔ ∃ b, x = some b ∧ lo ≤ b ∧ b ≤ hi := by
  cases x with
  | none => simp [range, Has]
  | some b =>
    have hb := b.toNat_lt
    have hhi := hi.toNat_lt
    simp only [range, Has, contains, BitVec.getLsbD_and, BitVec.getLsbD_shiftLeft, BitVec.getLsbD_ushiftRight,
      BitVec.getLsbD_allOnes, Bool.and_eq_true, Bool.not_eq_true', decide_eq_true_eq, decide_eq_false_iff_not,
      Option.some.injEq, exists_eq_left', UInt8.le_iff_toNat_le]
    omega

@[simp] theorem has_union {s t : FirstSet} {x : Option UInt8} : (s.union t).Has x ↔ s.Has x ∨ t.Has x := by
  cases x <;> simp [union, Has, contains]

/-- What follows shows only behind the empty match. --/
@[simp] theorem has_followedBy {s t : FirstSet} {x : Option UInt8} :
    (s.followedBy t).Has x ↔ x ≠ Option.none ∧ s.Has x ∨ s.Has Option.none ∧ t.Has x := by
  cases hs : s.nullable <;> cases x <;> simp [followedBy, Has, contains, hs]

@[simp] theorem has_orEmpty {s : FirstSet} {mayBeEmpty : Bool} {x : Option UInt8} :
    (s.orEmpty mayBeEmpty).Has x ↔ s.Has x ∨ x = Option.none ∧ mayBeEmpty = true := by
  cases x <;> simp [orEmpty, Has, contains]

/-! ### Order -/

instance : LE FirstSet := ⟨fun s t => ∀ x, s.Has x → t.Has x⟩

theorem ext_has {s t : FirstSet} (h : ∀ x, s.Has x ↔ t.Has x) : s = t := by
  obtain ⟨bs, ns⟩ := s
  obtain ⟨bt, nt⟩ := t
  have hn : ns = nt := Bool.eq_iff_iff.mpr (h Option.none)
  have hb : bs = bt := by
    refine BitVec.eq_of_getLsbD_eq fun i hi => ?_
    have := h (some (UInt8.ofNat i))
    simp only [Has, contains, UInt8.toNat_ofNat', Nat.mod_eq_of_lt hi] at this
    exact Bool.eq_iff_iff.mpr this
  rw [hn, hb]

instance : PartialOrder FirstSet where
  le_refl _ _ h := h
  le_trans _ _ _ h₁ h₂ x h := h₂ x (h₁ x h)
  le_antisymm _ _ h₁ h₂ := ext_has fun x => ⟨h₁ x, h₂ x⟩

theorem none_le (s : FirstSet) : FirstSet.none ≤ s := fun x h => absurd h (has_none x)

end FirstSet

/-! ### Alike nodes -/

namespace Node

/-- Two upper bounds that allow the same numbers of rounds, short of a number that no input reaches. --/
def SameBound (max max' : Option UInt32) : Prop :=
  ∀ count < 2 ^ 32 - 1, (max.map UInt32.toNat).all (count < ·) = (max'.map UInt32.toNat).all (count < ·)

theorem all_pos_iff {max : Option UInt32} : (max.map UInt32.toNat).all (0 < ·) = true ↔ max ≠ some 0 := by
  cases max with
  | none => simp
  | some m => simp [Nat.pos_iff_ne_zero, ← UInt32.toNat_inj]

theorem SameBound.eq_zero_iff {max max' : Option UInt32} (h : SameBound max max') : max = some 0 ↔ max' = some 0 := by
  have h₀ := h 0 (by decide)
  rw [Bool.eq_iff_iff, all_pos_iff, all_pos_iff] at h₀
  exact not_iff_not.mp h₀

/-- Two nodes that say the same of parts that are related. --/
inductive Alike (R : NodeId → NodeId → Prop) : Node → Node → Prop where
  | literal (bytes : List UInt8) (ignoreCase : Bool) : Alike R (.literal bytes ignoreCase) (.literal bytes ignoreCase)
  | charRange (lo hi : UInt32) : Alike R (.charRange lo hi) (.charRange lo hi)
  | sequence {ns ns' : List NodeId} (h : List.Forall₂ R ns ns') : Alike R (.sequence ns) (.sequence ns')
  | choice {ns ns' : List NodeId} (h : List.Forall₂ R ns ns') : Alike R (.choice ns) (.choice ns')
  | repetition {n n' : NodeId} (h : R n n') (min : UInt32) {max max' : Option UInt32} (hmax : SameBound max max') :
    Alike R (.repetition n min max) (.repetition n' min max')
  | ruleRef (r : RuleId) : Alike R (.ruleRef r) (.ruleRef r)
  | fold {n n' : NodeId} (h : R n n') : Alike R (.fold n) (.fold n')

/-- A node is like itself if each of its parts is related to itself. --/
theorem Alike.of_children {R : NodeId → NodeId → Prop} {n : Node} (h : ∀ c ∈ n.children, R c c) : n.Alike R n := by
  cases n with
  | literal bytes ignoreCase => exact .literal bytes ignoreCase
  | charRange lo hi => exact .charRange lo hi
  | sequence ns => exact .sequence (List.forall₂_same.mpr h)
  | choice ns => exact .choice (List.forall₂_same.mpr h)
  | repetition n min max => exact .repetition (h n List.mem_cons_self) min fun _ _ => rfl
  | ruleRef r => exact .ruleRef r
  | fold n => exact .fold (h n List.mem_cons_self)

theorem Alike.refl (n : Node) : n.Alike Eq n := .of_children fun _ _ => rfl

end Node

namespace FirstSet

section
variable {R : NodeId → NodeId → Prop} {node node' : NodeId → FirstSet} {rule rule' : RuleId → FirstSet}

theorem foldr_followedBy_le (hn : ∀ i i', R i i' → node i ≤ node' i') {ns ns' : List NodeId}
    (h : List.Forall₂ R ns ns') : ns.foldr (fun n s => (node n).followedBy s) onlyEmpty ≤
      ns'.foldr (fun n s => (node' n).followedBy s) onlyEmpty := by
  induction h with
  | nil => exact le_refl _
  | cons h _ ih =>
    intro x hx
    rw [List.foldr_cons, has_followedBy] at hx ⊢
    exact hx.imp (fun hx => ⟨hx.1, hn _ _ h x hx.2⟩) fun hx => ⟨hn _ _ h _ hx.1, ih x hx.2⟩

theorem foldr_union_le (hn : ∀ i i', R i i' → node i ≤ node' i') {ns ns' : List NodeId} (h : List.Forall₂ R ns ns') :
    ns.foldr (fun n s => (node n).union s) none ≤ ns'.foldr (fun n s => (node' n).union s) none := by
  induction h with
  | nil => exact le_refl _
  | cons h _ ih =>
    intro x hx
    rw [List.foldr_cons, has_union] at hx ⊢
    exact hx.imp (hn _ _ h x) (ih x)

theorem le_foldr_union {n : NodeId} {ns : List NodeId} (h : n ∈ ns) :
    node n ≤ ns.foldr (fun n s => (node n).union s) none := by
  induction ns with
  | nil => cases h
  | cons m ns ih =>
    intro x hx
    rw [List.foldr_cons, has_union]
    rcases List.mem_cons.mp h with rfl | h
    · exact .inl hx
    · exact .inr (ih h x hx)

theorem foldr_union_append (ns ms : List NodeId) : (ns ++ ms).foldr (fun n s => (node n).union s) none =
    (ns.foldr (fun n s => (node n).union s) none).union (ms.foldr (fun n s => (node n).union s) none) := by
  induction ns with
  | nil => exact ext_has fun x => by simp
  | cons n ns ih =>
    rw [List.cons_append, List.foldr_cons, List.foldr_cons, ih]
    exact ext_has fun x => by simp [or_assoc]

theorem ofNode_alike (hn : ∀ i i', R i i' → node i ≤ node' i') (hr : ∀ r, rule r ≤ rule' r) {n n' : Node}
    (h : n.Alike R n') : ofNode node rule n ≤ ofNode node' rule' n' := by
  cases h with
  | literal | charRange => exact le_refl _
  | sequence h => exact foldr_followedBy_le hn h
  | choice h => exact foldr_union_le hn h
  | repetition h min hmax =>
    intro x hx
    rw [ofNode, has_orEmpty] at hx ⊢
    refine hx.imp_left fun hx => ?_
    split at hx
    · exact absurd hx (has_none x)
    · rename_i hne
      rw [if_neg fun h' => hne (hmax.eq_zero_iff.mpr h')]
      exact hn _ _ h x hx
  | ruleRef r => exact hr r
  | fold h => exact hn _ _ h

theorem ofNode_mono (hn : ∀ i, node i ≤ node' i) (hr : ∀ r, rule r ≤ rule' r) (n : Node) :
    ofNode node rule n ≤ ofNode node' rule' n :=
  ofNode_alike (fun i _ h => h ▸ hn i) hr (Node.Alike.refl n)

end

end FirstSet
end Abnf
