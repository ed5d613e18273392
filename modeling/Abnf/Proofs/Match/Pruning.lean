import Abnf.Proofs.Grammar.Optimize
import Abnf.Proofs.Grammar.WellFormed
import Abnf.Proofs.Match.Fuel
import Abnf.Proofs.Text.Utf8

/-! Pruning by first sets. What a task matches begins with what its first set holds (`Yields.fits`), so an
    alternative that is passed over would have failed, and a match that comes to a result without first
    sets comes to the same one with them (`Yields.prune`). Only a match that arrives at a rule without a
    definition may turn out otherwise, as the sets may steer it past that rule. -/

namespace Abnf

/-! ### What matches begin with -/

/-- A match that is empty, or else begins with `next`, as a first set has it. --/
def Answer.Fits (s : FirstSet) (next : Option UInt8) (pos : Nat) : Answer → Prop
  | matched stop _ => if stop = pos then s.Has none else s.Has next
  | _ => True

namespace Answer

variable {s t : FirstSet} {next : Option UInt8} {pos stop : Nat} {l : Log}

theorem fits_matched_empty (h : s.Has none) : (matched pos l).Fits s next pos := by
  rwa [Fits, if_pos rfl]

theorem fits_matched (hne : stop ≠ pos) (h : s.Has next) : (matched stop l).Fits s next pos := by
  rwa [Fits, if_neg hne]

theorem Fits.mono {a : Answer} (h : a.Fits s next pos)
    (hst : ∀ x, x = none ∨ x = next → s.Has x → t.Has x) : a.Fits t next pos := by
  cases a with
  | matched stop l =>
    rw [Fits] at h ⊢
    by_cases hp : stop = pos
    · rw [if_pos hp] at h ⊢
      exact hst none (Or.inl rfl) h
    · rw [if_neg hp] at h ⊢
      exact hst next (Or.inr rfl) h
  | noMatch | undefined => trivial

theorem Fits.after {a : Answer} (h : a.Fits s next pos) (k : Log) : (a.after k).Fits s next pos := by
  cases a <;> exact h

theorem Fits.leave {a : Answer} (h : a.Fits s next pos) (wanted : Bool) (r : RuleId) (start : Nat) :
    (a.leave wanted r start).Fits s next pos := by
  cases a <;> exact h

/-- A repetition ends without reading, and only if there were rounds enough. --/
theorem fits_settle {min count : Nat} (h : min ≤ count → s.Has none) : (settle min count pos).Fits s next pos := by
  unfold settle
  split
  · trivial
  · exact fits_matched_empty (h (by omega))

/-- A match is accepted by the first set that it fits. --/
theorem Fits.accepts (h : (matched stop l).Fits s next pos) : s.accepts next = true := by
  rw [Fits] at h
  rw [FirstSet.accepts_iff]
  by_cases hp : stop = pos
  · rw [if_pos hp] at h
    exact Or.inl h
  · rw [if_neg hp] at h
    exact Or.inr h

end Answer

/-! ### Leaves -/

theorem has_ofLiteral {ignoreCase : Bool} {b c : UInt8} (bs : List UInt8)
    (h : Match.sameByte ignoreCase b c = true) : (FirstSet.ofLiteral ignoreCase (b :: bs)).Has (some c) := by
  cases ignoreCase with
  | false =>
    obtain rfl : b = c := by simpa [Match.sameByte] using h
    simp [FirstSet.ofLiteral]
  | true =>
    have hbc : Byte.lower b = Byte.lower c := by simpa [Match.sameByte] using h
    simp only [FirstSet.ofLiteral, if_true, FirstSet.has_union, FirstSet.has_byte, Option.some.injEq]
    revert hbc
    unfold Byte.lower Byte.upper
    grind

theorem fits_literal (input : ByteArray) (bytes : List UInt8) (ignoreCase : Bool) (pos : Nat) :
    (Answer.leaf (Match.literal? input bytes ignoreCase pos)).Fits (FirstSet.ofLiteral ignoreCase bytes)
      input[pos]? pos := by
  unfold Match.literal?
  split
  · rename_i h
    cases bytes with
    | nil => exact Answer.fits_matched_empty (FirstSet.has_onlyEmpty.mpr rfl)
    | cons b bs =>
      refine Answer.fits_matched (by simp) ?_
      have hb := h.2
      rw [Match.bytesAt, Bool.and_eq_true, Option.any_eq_true] at hb
      obtain ⟨⟨c, hc, hbc⟩, -⟩ := hb
      exact hc ▸ has_ofLiteral bs hbc
  · trivial

theorem has_ofCharRange_byte {lo hi : UInt32} {b : UInt8} (hlim : hi < byteLimit) (hlo : lo ≤ b.toUInt32)
    (hhi : b.toUInt32 ≤ hi) : (FirstSet.ofCharRange lo hi).Has (some b) := by
  rw [FirstSet.ofCharRange, if_pos hlim, FirstSet.has_range]
  simp only [byteLimit, UInt32.lt_iff_toNat_lt, UInt32.le_iff_toNat_le, UInt8.toNat_toUInt32] at hlim hlo hhi
  refine ⟨b, rfl, ?_, ?_⟩
  · rw [UInt8.le_iff_toNat_le, UInt32.toNat_toUInt8]
    exact Nat.le_trans (Nat.mod_le _ _) hlo
  · rw [UInt8.le_iff_toNat_le, UInt32.toNat_toUInt8, Nat.mod_eq_of_lt (b := 2 ^ 8) hlim]
    exact hhi

theorem has_ofCharRange_char {lo hi : UInt32} {c : Char} (hlim : ¬hi < byteLimit) (hlo : lo ≤ c.val) :
    (FirstSet.ofCharRange lo hi).Has (String.utf8EncodeChar c).head? := by
  obtain ⟨b, bs, hb, hshort, hlong⟩ := exists_head_utf8EncodeChar c
  rw [FirstSet.ofCharRange, if_neg hlim, hb, List.head?_cons]
  rw [UInt32.le_iff_toNat_le] at hlo
  rcases Nat.lt_or_ge c.val.toNat 0x80 with hc | hc
  · have hlt : lo < 0x80 := by
      rw [UInt32.lt_iff_toNat_lt]
      exact Nat.lt_of_le_of_lt hlo hc
    rw [if_pos hlt, FirstSet.has_union, FirstSet.has_range]
    refine Or.inl ⟨b, rfl, ?_, ?_⟩
    · rw [UInt8.le_iff_toNat_le, UInt32.toNat_toUInt8, hshort hc]
      exact Nat.le_trans (Nat.mod_le _ _) hlo
    · rw [UInt8.le_iff_toNat_le, hshort hc]
      exact Nat.le_of_lt_succ hc
  · have hlead : (FirstSet.range 0xC2 0xF4).Has (some b) := by
      rw [FirstSet.has_range]
      exact ⟨b, rfl, UInt8.le_iff_toNat_le.mpr (hlong hc).1, UInt8.le_iff_toNat_le.mpr (hlong hc).2⟩
    dsimp only
    split
    · exact FirstSet.has_union.mpr (Or.inr hlead)
    · exact hlead

theorem fits_charRange (input : ByteArray) (lo hi : UInt32) (pos : Nat) :
    (Answer.leaf (Match.charRange? input lo hi pos)).Fits (FirstSet.ofCharRange lo hi) input[pos]? pos := by
  unfold Match.charRange?
  split
  · rename_i hlim
    split
    · rename_i b hb
      split
      · rename_i hin
        rw [hb]
        exact Answer.fits_matched (by omega) (has_ofCharRange_byte hlim hin.1 hin.2)
      · trivial
    · trivial
  · rename_i hlim
    split
    · rename_i c hc
      split
      · rename_i hin
        have := c.utf8Size_pos
        rw [getElem?_of_utf8DecodeChar? hc]
        exact Answer.fits_matched (by omega) (has_ofCharRange_char hlim hin.1)
      · trivial
    · trivial

namespace Match

/-! ### Tasks -/

/-- What a task begins with, given the first sets of the nodes. --/
def Task.first (g : Grammar) (node : NodeId → FirstSet) : Task → FirstSet
  | .node i => node i
  | .rule r _ => g.ruleSet node r
  | .sequence ns => ns.foldr (fun n s => (node n).followedBy s) FirstSet.onlyEmpty
  | .choice ns empty => (ns.foldr (fun n s => (node n).union s) FirstSet.none).orEmpty empty.isSome
  | .rounds n min max count => (if max.all (count < ·) then node n else FirstSet.none).orEmpty (min ≤ count)

section
variable {σ : Setting} {node : NodeId → FirstSet}

theorem first_choice_cons_of_has {n : NodeId} {ns : List NodeId} {empty : Option Log} {x : Option UInt8}
    (h : (node n).Has x) : ((Task.choice (n :: ns) empty).first σ.grammar node).Has x :=
  FirstSet.has_orEmpty.mpr (Or.inl (FirstSet.has_union.mpr (Or.inl h)))

theorem first_choice_cons_of_rest {n : NodeId} {ns : List NodeId} {empty : Option Log} {x : Option UInt8}
    (h : ((Task.choice ns empty).first σ.grammar node).Has x) :
    ((Task.choice (n :: ns) empty).first σ.grammar node).Has x := by
  refine FirstSet.has_orEmpty.mpr ((FirstSet.has_orEmpty.mp h).imp_left fun h => ?_)
  exact FirstSet.has_union.mpr (Or.inr h)

/-- The set of a repetition is that of its rounds before the first. --/
theorem first_rounds_zero (n : NodeId) (min : UInt32) (max : Option UInt32) :
    (Task.rounds n min.toNat (max.map UInt32.toNat) 0).first σ.grammar node =
      FirstSet.ofNode node (σ.grammar.ruleSet node) (.repetition n min max) := by
  have hmin : decide (min.toNat ≤ 0) = (min == 0) := by
    rw [Bool.eq_iff_iff, decide_eq_true_eq, beq_iff_eq, Nat.le_zero, ← UInt32.toNat_inj]
    rfl
  rw [Task.first, FirstSet.ofNode, hmin]
  by_cases h : max = some 0
  · rw [if_pos h, if_neg (fun h' => Node.all_pos_iff.mp h' h)]
  · rw [if_neg h, if_pos (Node.all_pos_iff.mpr h)]

/-- Part of a sequence whose first node has matched, and whose others come to an answer. --/
theorem fits_sequence {n : NodeId} {ns : List NodeId} {pos mid : Nat} {l : Log} {a : Answer}
    (hn : (Answer.matched mid l).Fits (node n) σ.input[pos]? pos)
    (hns : a.Fits ((Task.sequence ns).first σ.grammar node) σ.input[mid]? mid)
    (hmid : Forward σ.input.size pos mid) (hstop : ∀ stop k, a = .matched stop k → Forward σ.input.size mid stop) :
    a.Fits ((Task.sequence (n :: ns)).first σ.grammar node) σ.input[pos]? pos := by
  rw [Answer.Fits] at hn
  by_cases hp : mid = pos
  · -- The first node read nothing, so the match begins as the others do.
    subst hp
    rw [if_pos rfl] at hn
    exact hns.mono fun x _ hx => FirstSet.has_followedBy.mpr (Or.inr ⟨hn, hx⟩)
  · -- It read something, and the match begins as it does.
    rw [if_neg hp] at hn
    cases a with
    | matched stop k =>
      obtain ⟨h₁, -⟩ := hstop stop k rfl
      obtain ⟨h₂, h₃⟩ := hmid
      have hnext : σ.input[pos]? ≠ none := by
        rw [getElem?_pos σ.input pos (by omega)]
        exact Option.some_ne_none _
      exact Answer.fits_matched (by omega) (FirstSet.has_followedBy.mpr (Or.inl ⟨hnext, hn⟩))
    | noMatch | undefined => trivial

/-- What a task matches begins with what the first sets say, if they satisfy the equations of the nodes. --/
theorem Yields.fits (hc : σ.grammar.Closed node) {task : Task} {pos : Nat} {a : Answer} (h : Yields σ task pos a) :
    a.Fits (task.first σ.grammar node) σ.input[pos]? pos := by
  induction h with
  | missing | undefined | choiceStop | roundsStop => trivial
  | @literal i bytes ignoreCase pos h =>
    exact (fits_literal σ.input bytes ignoreCase pos).mono fun x _ hx => hc i _ h x hx
  | @charRange i lo hi pos h => exact (fits_charRange σ.input lo hi pos).mono fun x _ hx => hc i _ h x hx
  | @sequence i _ _ _ h _ ih => exact ih.mono fun x _ hx => hc i _ h x hx
  | @choice i _ _ _ h _ ih =>
    exact ih.mono fun x _ hx => hc i _ h x ((FirstSet.has_orEmpty.mp hx).resolve_right fun h => nomatch h.2)
  | @repetition i n min max pos _ h _ ih =>
    rw [first_rounds_zero] at ih
    exact ih.mono fun x _ hx => hc i _ h x hx
  | @ruleRef i _ _ _ h _ ih => exact ih.mono fun x _ hx => hc i _ h x hx
  | @fold i _ _ _ h _ ih => exact ih.mono fun x _ hx => hc i _ h x hx
  | @rule r root wanted pos a h _ ih =>
    refine (ih.mono fun x _ hx => ?_).leave wanted r pos
    rw [Task.first, Grammar.ruleSet, h]
    exact hx
  | sequenceNil => exact Answer.fits_matched_empty (FirstSet.has_onlyEmpty.mpr rfl)
  | sequenceCons h hs ih₁ ih₂ => exact (fits_sequence ih₁ ih₂ (h.forward _ _ rfl) hs.forward).after _
  | @sequenceStop _ _ _ a _ ha =>
    cases a with
    | matched => cases ha
    | noMatch | undefined => trivial
  | @choiceNil empty pos =>
    cases empty with
    | none => trivial
    | some l => exact Answer.fits_matched_empty (FirstSet.has_orEmpty.mpr (Or.inr ⟨rfl, rfl⟩))
  | choiceSkip _ _ ih | choiceFail _ _ _ _ ih => exact ih.mono fun x _ hx => first_choice_cons_of_rest hx
  | choiceTake _ _ _ ih => exact ih.mono fun x _ hx => first_choice_cons_of_has hx
  | @choiceEmpty n ns empty pos stop l a _ h hlt _ ih₁ ih₂ =>
    obtain ⟨hle, -⟩ := h.forward _ _ rfl
    obtain rfl : stop = pos := by omega
    have hempty : (node n).Has none := by
      rwa [Answer.Fits, if_pos rfl] at ih₁
    refine ih₂.mono fun x _ hx => ?_
    rcases FirstSet.has_orEmpty.mp hx with hx | ⟨rfl, -⟩
    · exact FirstSet.has_orEmpty.mpr (Or.inl (FirstSet.has_union.mpr (Or.inr hx)))
    · exact first_choice_cons_of_has hempty
  | roundsFull | roundsFail =>
    exact Answer.fits_settle fun hle => FirstSet.has_orEmpty.mpr (Or.inr ⟨rfl, decide_eq_true hle⟩)
  | @roundsEmpty n min max count pos l hcount _ ih =>
    refine (Answer.fits_settle fun _ => FirstSet.has_orEmpty.mpr (Or.inl ?_)).after l
    rw [if_pos hcount]
    rwa [Answer.Fits, if_pos rfl] at ih
  | @roundsNext n min max count pos stop l a hcount h hne hs ih _ =>
    rw [Answer.Fits, if_neg hne] at ih
    refine Answer.Fits.after ?_ l
    cases a with
    | matched stop' k =>
      obtain ⟨h₁, -⟩ := hs.forward stop' k rfl
      obtain ⟨h₂, -⟩ := h.forward stop l rfl
      refine Answer.fits_matched (by omega) (FirstSet.has_orEmpty.mpr (Or.inl ?_))
      rwa [if_pos hcount]
    | noMatch | undefined => trivial

end

end Match

/-! ### Complete grammars -/

namespace Answer

/-- An answer that tells whether there is a match. --/
def Defined (a : Answer) : Prop := ∀ r, a ≠ undefined r

theorem defined_matched (stop : Nat) (l : Log) : (matched stop l).Defined := fun _ => nofun

theorem defined_noMatch : noMatch.Defined := fun _ => nofun

theorem defined_leaf (stop : Option Nat) : (leaf stop).Defined := by
  cases stop with
  | none => exact defined_noMatch
  | some stop => exact defined_matched stop #[]

theorem defined_settle (min count pos : Nat) : (settle min count pos).Defined := by
  unfold settle
  split
  · exact defined_noMatch
  · exact defined_matched pos #[]

theorem after_eq_undefined_iff {a : Answer} {l : Log} {q : RuleId} : a.after l = undefined q ↔ a = undefined q := by
  cases a <;> simp [after]

theorem leave_eq_undefined_iff {a : Answer} {wanted : Bool} {r q : RuleId} {pos : Nat} :
    a.leave wanted r pos = undefined q ↔ a = undefined q := by
  cases a <;> simp [leave]

theorem defined_after {a : Answer} {l : Log} : (a.after l).Defined ↔ a.Defined :=
  forall_congr' fun _ => not_congr after_eq_undefined_iff

theorem defined_leave {a : Answer} {wanted : Bool} {r : RuleId} {pos : Nat} :
    (a.leave wanted r pos).Defined ↔ a.Defined :=
  forall_congr' fun _ => not_congr leave_eq_undefined_iff

end Answer

namespace Match

/-- A match that comes to a rule without a definition has come to it by a reference, or begun with it. --/
theorem Yields.arrives {σ : Setting} (href : ∀ n ∈ σ.grammar.nodes, ∀ r ∈ n.rules, r < σ.grammar.slots.size)
    {task : Task} {pos : Nat} {a : Answer} (h : Yields σ task pos a)
    (ht : ∀ r wanted, task = .rule r wanted → r < σ.grammar.slots.size) :
    ∀ q, a = .undefined q → q < σ.grammar.slots.size ∧ σ.grammar.root? q = none := by
  induction h with
  | missing | sequenceNil | choiceTake => exact nofun
  | literal | charRange => exact fun q hq => absurd hq (Answer.defined_leaf _ q)
  | sequence _ _ ih | choice _ _ ih | repetition _ _ ih | fold _ _ ih => exact ih nofun
  | @ruleRef i r _ _ h _ ih =>
    refine ih fun q wanted hq => ?_
    cases hq
    exact href _ (Array.mem_of_getElem? h) r List.mem_cons_self
  | undefined h =>
    rintro q ⟨⟩
    exact ⟨ht _ _ rfl, h⟩
  | rule _ _ ih => exact fun q hq => ih nofun q (Answer.leave_eq_undefined_iff.mp hq)
  | sequenceCons _ _ _ ih | roundsNext _ _ _ _ _ ih => exact fun q hq => ih nofun q (Answer.after_eq_undefined_iff.mp hq)
  | sequenceStop _ _ ih | choiceSkip _ _ ih | choiceEmpty _ _ _ _ _ ih | choiceFail _ _ _ _ ih | choiceStop _ _ ih
  | roundsStop _ _ ih => exact ih nofun
  | @choiceNil empty pos => cases empty <;> exact nofun
  | roundsFull | roundsFail => exact fun q hq => absurd hq (Answer.defined_settle _ _ _ q)
  | roundsEmpty => exact fun q hq => absurd (Answer.after_eq_undefined_iff.mp hq) (Answer.defined_settle _ _ _ q)

/-- In a complete grammar everything either matches or does not. --/
theorem Yields.defined {σ : Setting} (hc : σ.grammar.Complete) {task : Task} {pos : Nat} {a : Answer}
    (h : Yields σ task pos a) (ht : ∀ r wanted, task = .rule r wanted → r < σ.grammar.slots.size) : a.Defined := by
  intro q hq
  obtain ⟨hlt, hnone⟩ := h.arrives hc.referred ht q hq
  exact hc.root?_ne_none hlt hnone

/-! ### Pruned matches -/

/-- The same match with first sets. --/
def Setting.pruned (σ : Setting) (sets : Array FirstSet) : Setting :=
  { σ with grammar := { σ.grammar with firstSets := some sets } }

section
variable {σ : Setting} {sets : Array FirstSet}

/-- Alternatives that do not match are the only ones that are passed over. --/
theorem admits_of_matched (hc : σ.grammar.Closed (Grammar.setOf sets)) {n : NodeId} {pos stop : Nat} {l : Log}
    (h : Yields σ (.node n) pos (.matched stop l)) :
    admits (σ.pruned sets) pos n = true := by
  have hfits : (Grammar.setOf sets n).accepts σ.input[pos]? = true := (h.fits hc).accepts
  rw [admits, Setting.pruned]
  dsimp only
  by_cases hn : n < sets.size
  · simpa [Grammar.setOf, Array.getD_eq_getD_getElem?, hn] using hfits
  · -- A place without a node has the set that holds everything.
    simp [Array.getD_eq_getD_getElem?, hn, FirstSet.accepts, FirstSet.all]

/-- What comes to a result without first sets comes to the same one with them. --/
theorem Yields.prune (hc : σ.grammar.Closed (Grammar.setOf sets)) (hnone : σ.grammar.firstSets = none)
    {task : Task} {pos : Nat} {a : Answer} (h : Yields σ task pos a) (ha : a.Defined) :
    Yields (σ.pruned sets) task pos a := by
  have hall : ∀ pos n, admits σ pos n = true := fun pos n => by rw [admits, hnone]
  induction h with
  | missing h => exact .missing h
  | literal h => exact .literal h
  | charRange h => exact .charRange h
  | sequence h _ ih => exact .sequence h (ih ha)
  | choice h _ ih => exact .choice h (ih ha)
  | repetition h _ ih => exact .repetition h (ih ha)
  | ruleRef h _ ih => exact .ruleRef h (ih ha)
  | fold h _ ih => exact .fold h (ih ha)
  | undefined h => exact .undefined h
  | rule h _ ih => exact .rule h (ih (Answer.defined_leave.mp ha))
  | sequenceNil => exact .sequenceNil
  | sequenceCons _ _ ih₁ ih₂ =>
    exact .sequenceCons (ih₁ (Answer.defined_matched _ _)) (ih₂ (Answer.defined_after.mp ha))
  | sequenceStop _ hm ih => exact .sequenceStop (ih ha) hm
  | choiceNil => exact .choiceNil
  | @choiceSkip n _ _ pos _ hn => rw [hall pos n] at hn; cases hn
  | choiceTake _ h hlt ih => exact .choiceTake (admits_of_matched hc h) (ih ha) hlt
  | choiceEmpty _ h hlt _ ih₁ ih₂ =>
    exact .choiceEmpty (admits_of_matched hc h) (ih₁ (Answer.defined_matched _ _)) hlt (ih₂ ha)
  | @choiceFail n _ _ pos _ _ _ _ ih₁ ih₂ =>
    -- The only place where the two go different ways: the first set may know that `n` fails.
    cases hn : admits (σ.pruned sets) pos n with
    | true => exact .choiceFail hn (ih₁ Answer.defined_noMatch) (ih₂ ha)
    | false => exact .choiceSkip hn (ih₂ ha)
  | choiceStop | roundsStop => exact absurd rfl (ha _)
  | roundsFull hcount => exact .roundsFull hcount
  | roundsEmpty hcount _ ih => exact .roundsEmpty hcount (ih (Answer.defined_matched _ _))
  | roundsNext hcount _ hne _ ih₁ ih₂ =>
    exact .roundsNext hcount (ih₁ (Answer.defined_matched _ _)) hne (ih₂ (Answer.defined_after.mp ha))
  | roundsFail hcount _ ih => exact .roundsFail hcount (ih Answer.defined_noMatch)

end

/-- First sets do not show. In a complete grammar, where a match comes to an end without first sets, it comes to
    an end with them, and finds the same: no match, or a match that ends in the same place with the same log. --/
theorem run_optimize {g : Grammar} (hc : g.Complete) {r : RuleId} (hr : r < g.slots.size) {observed : RuleId → Bool}
    {input : ByteArray} {start : Nat} (h : Terminates ⟨{ g with firstSets := none }, input, observed⟩ r start) :
    Terminates ⟨g.optimize, input, observed⟩ r start ∧
      ∃ found, (run ⟨{ g with firstSets := none }, input, observed⟩ r start).map Run.found = .ok found ∧
        (run ⟨g.optimize, input, observed⟩ r start).map Run.found = .ok found := by
  obtain ⟨a, ha⟩ := terminates_iff.mp h
  have hdef : a.Defined := ha.defined ⟨hc.declared, hc.referred⟩ fun q wanted hq => by cases hq; exact hr
  have hopt : Yields ⟨g.optimize, input, observed⟩ (.rule r true) start a :=
    ha.prune (Grammar.closed_computeFirstSets g) rfl hdef
  refine ⟨terminates_iff.mpr ⟨a, hopt⟩, ?_⟩
  cases a with
  | undefined q => exact absurd rfl (hdef q)
  | noMatch => exact ⟨none, run_of_yields ha, run_of_yields hopt⟩
  | matched stop l => exact ⟨some (stop, l), run_of_yields ha, run_of_yields hopt⟩

/-- Here the first sets pass over an alternative at every turn and both at the end. --/
theorem run_optimize_turns :
    let input : ByteArray := ⟨#[0x41, 0x62, 0x61]⟩
    Terminates ⟨{ Grammar.turns with firstSets := none }, input, fun _ => true⟩ 0 0 ∧
      Terminates ⟨Grammar.turns.optimize, input, fun _ => true⟩ 0 0 ∧
      ∃ found, (run ⟨{ Grammar.turns with firstSets := none }, input, fun _ => true⟩ 0 0).map Run.found = .ok found ∧
        (run ⟨Grammar.turns.optimize, input, fun _ => true⟩ 0 0).map Run.found = .ok found := by
  intro input
  have h : Terminates ⟨{ Grammar.turns with firstSets := none }, input, fun _ => true⟩ 0 0 := ⟨16, by decide⟩
  exact ⟨h, run_optimize (Grammar.wellFormed_turns.complete (by decide +kernel)) (by decide) h⟩

end Match
end Abnf
