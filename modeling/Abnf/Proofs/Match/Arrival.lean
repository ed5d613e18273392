import Abnf.Proofs.Match.Termination

/-! Rules without a definition, and first sets. A match that comes to such a rule has some alternatives under way, each
    begun at a position (`Arrives`). As nothing is known of the rule, its set holds everything, and so an alternative
    that comes to it may begin with whatever byte is next (`Arrives.has`). Only at the end of the input can it be passed
    over, where its set has to say that it may match empty. So the first sets hide such a rule only if an alternative
    was begun there that is not empty (`run_optimize_missing`); what they add is no more than this
    (`Yields.prune`). -/

namespace Abnf
namespace Match

/-- A task comes to a rule that has no definition, with some alternatives under way that were begun at positions. --/
inductive Arrives (σ : Setting) : Task → Nat → RuleId → List (NodeId × Nat) → Prop where
  -- nodes
  | sequence {i ns pos q under} (h : σ.grammar.nodes[i]? = some (.sequence ns))
      (hs : Arrives σ (.sequence ns) pos q under) : Arrives σ (.node i) pos q under
  | choice {i ns pos q under} (h : σ.grammar.nodes[i]? = some (.choice ns))
      (hs : Arrives σ (.choice ns none) pos q under) : Arrives σ (.node i) pos q under
  | repetition {i n min max pos q under} (h : σ.grammar.nodes[i]? = some (.repetition n min max))
      (hs : Arrives σ (.rounds n min.toNat (max.map UInt32.toNat) 0) pos q under) : Arrives σ (.node i) pos q under
  | ruleRef {i r pos q under} (h : σ.grammar.nodes[i]? = some (.ruleRef r))
      (hs : Arrives σ (.rule r (σ.observed r)) pos q under) : Arrives σ (.node i) pos q under
  | fold {i n pos q under} (h : σ.grammar.nodes[i]? = some (.fold n)) (hs : Arrives σ (.node n) pos q under) :
      Arrives σ (.node i) pos q under
  -- rules
  | undefined {r wanted pos} (h : σ.grammar.root? r = none) : Arrives σ (.rule r wanted) pos r []
  | rule {r root wanted pos q under} (h : σ.grammar.root? r = some root) (hs : Arrives σ (.node root) pos q under) :
      Arrives σ (.rule r wanted) pos q under
  -- sequences
  | sequenceHead {n ns pos q under} (h : Arrives σ (.node n) pos q under) : Arrives σ (.sequence (n :: ns)) pos q under
  | sequenceRest {n ns pos mid l q under} (h : Yields σ (.node n) pos (.matched mid l))
      (hs : Arrives σ (.sequence ns) mid q under) : Arrives σ (.sequence (n :: ns)) pos q under
  -- choices
  | choiceHead {n ns empty pos q under} (hn : admits σ pos n = true) (h : Arrives σ (.node n) pos q under) :
      Arrives σ (.choice (n :: ns) empty) pos q ((n, pos) :: under)
  | choiceSkip {n ns empty pos q under} (hn : admits σ pos n = false) (hs : Arrives σ (.choice ns empty) pos q under) :
      Arrives σ (.choice (n :: ns) empty) pos q under
  | choiceEmpty {n ns empty pos stop l q under} (hn : admits σ pos n = true)
      (h : Yields σ (.node n) pos (.matched stop l)) (hlt : ¬pos < stop)
      (hs : Arrives σ (.choice ns (some (empty.getD l))) pos q under) : Arrives σ (.choice (n :: ns) empty) pos q under
  | choiceFail {n ns empty pos q under} (hn : admits σ pos n = true) (h : Yields σ (.node n) pos .noMatch)
      (hs : Arrives σ (.choice ns empty) pos q under) : Arrives σ (.choice (n :: ns) empty) pos q under
  -- repetitions
  | roundsHead {n min max count pos q under} (hc : max.all (count < ·) = true) (h : Arrives σ (.node n) pos q under) :
      Arrives σ (.rounds n min max count) pos q under
  | roundsNext {n min max count pos stop l q under} (hc : max.all (count < ·) = true)
      (h : Yields σ (.node n) pos (.matched stop l)) (hne : stop ≠ pos)
      (hs : Arrives σ (.rounds n min max (count + 1)) stop q under) : Arrives σ (.rounds n min max count) pos q under

/-! ### Arrivals are the answers that want a rule -/

section
variable {σ : Setting} {task : Task} {pos : Nat} {q : RuleId} {under : List (NodeId × Nat)}

theorem Arrives.yields (h : Arrives σ task pos q under) : Yields σ task pos (.undefined q) := by
  induction h with
  | sequence h _ ih => exact .sequence h ih
  | choice h _ ih => exact .choice h ih
  | repetition h _ ih => exact .repetition h ih
  | ruleRef h _ ih => exact .ruleRef h ih
  | fold h _ ih => exact .fold h ih
  | undefined h => exact .undefined h
  | rule h _ ih => exact .rule h ih
  | sequenceHead _ ih => exact .sequenceStop ih rfl
  | sequenceRest h _ ih => exact .sequenceCons h ih
  | choiceHead hn _ ih => exact .choiceStop hn ih
  | choiceSkip hn _ ih => exact .choiceSkip hn ih
  | choiceEmpty hn h hlt _ ih => exact .choiceEmpty hn h hlt ih
  | choiceFail hn h _ ih => exact .choiceFail hn h ih
  | roundsHead hc _ ih => exact .roundsStop hc ih
  | roundsNext hc h hne _ ih => exact .roundsNext hc h hne ih

theorem Yields.exists_arrives {a : Answer} (h : Yields σ task pos a) :
    ∀ q, a = .undefined q → ∃ under, Arrives σ task pos q under := by
  induction h with
  | missing | sequenceNil | choiceTake => exact nofun
  | literal | charRange => exact fun q hq => absurd hq (Answer.defined_leaf _ q)
  | sequence h _ ih => exact fun q hq => (ih q hq).imp fun _ => .sequence h
  | choice h _ ih => exact fun q hq => (ih q hq).imp fun _ => .choice h
  | repetition h _ ih => exact fun q hq => (ih q hq).imp fun _ => .repetition h
  | ruleRef h _ ih => exact fun q hq => (ih q hq).imp fun _ => .ruleRef h
  | fold h _ ih => exact fun q hq => (ih q hq).imp fun _ => .fold h
  | undefined h =>
    rintro q ⟨⟩
    exact ⟨[], .undefined h⟩
  | rule h _ ih => exact fun q hq => (ih q (Answer.leave_eq_undefined_iff.mp hq)).imp fun _ => .rule h
  | sequenceCons h _ _ ih => exact fun q hq => (ih q (Answer.after_eq_undefined_iff.mp hq)).imp fun _ => .sequenceRest h
  | sequenceStop _ _ ih => exact fun q hq => (ih q hq).imp fun _ => .sequenceHead
  | @choiceNil empty pos => cases empty <;> exact nofun
  | choiceSkip hn _ ih => exact fun q hq => (ih q hq).imp fun _ => .choiceSkip hn
  | choiceEmpty hn h hlt _ _ ih => exact fun q hq => (ih q hq).imp fun _ => .choiceEmpty hn h hlt
  | choiceFail hn h _ _ ih => exact fun q hq => (ih q hq).imp fun _ => .choiceFail hn h
  | choiceStop hn _ ih =>
    intro q hq
    obtain ⟨under, h⟩ := ih q hq
    exact ⟨_, .choiceHead hn h⟩
  | roundsFull | roundsFail => exact fun q hq => absurd hq (Answer.defined_settle _ _ _ q)
  | roundsEmpty => exact fun q hq => absurd (Answer.after_eq_undefined_iff.mp hq) (Answer.defined_settle _ _ _ q)
  | roundsNext hc h hne _ _ ih =>
    exact fun q hq => (ih q (Answer.after_eq_undefined_iff.mp hq)).imp fun _ => .roundsNext hc h hne
  | roundsStop hc _ ih => exact fun q hq => (ih q hq).imp fun _ => .roundsHead hc

/-- What is under way was let through, and comes to the same rule. --/
theorem Arrives.of_mem (h : Arrives σ task pos q under) : ∀ x ∈ under,
    admits σ x.2 x.1 = true ∧ ∃ rest, Arrives σ (.node x.1) x.2 q rest := by
  induction h with
  | undefined => exact nofun
  | choiceHead hn h ih => exact List.forall_mem_cons.mpr ⟨⟨hn, _, h⟩, ih⟩
  | sequence _ _ ih | choice _ _ ih | repetition _ _ ih | ruleRef _ _ ih | fold _ _ ih | rule _ _ ih
  | sequenceHead _ ih | sequenceRest _ _ ih | choiceSkip _ _ ih | choiceEmpty _ _ _ _ ih | choiceFail _ _ _ ih
  | roundsHead _ _ ih | roundsNext _ _ _ _ ih => exact ih

/-- There is one way to a rule. --/
theorem Arrives.unique (h : Arrives σ task pos q under) {p : RuleId} {others : List (NodeId × Nat)}
    (h' : Arrives σ task pos p others) : under = others := by
  have hmatched : ∀ {task pos q under stop l}, Arrives σ task pos q under → ¬Yields σ task pos (.matched stop l) :=
    fun h h' => nomatch h.yields.unique h'
  have hnoMatch : ∀ {task pos q under}, Arrives σ task pos q under → ¬Yields σ task pos .noMatch :=
    fun h h' => nomatch h.yields.unique h'
  induction h generalizing p others with
  | sequence h _ ih | choice h _ ih | repetition h _ ih | ruleRef h _ ih | fold h _ ih | rule h _ ih =>
    cases h' <;> grind
  | undefined h => cases h' <;> grind
  | sequenceHead h ih =>
    cases h' with
    | sequenceHead h' => exact ih h'
    | sequenceRest h' => exact absurd h' (hmatched h)
  | sequenceRest h _ ih =>
    cases h' with
    | sequenceHead h' => exact absurd h (hmatched h')
    | sequenceRest h' hs =>
      cases h.unique h'
      exact ih hs
  | choiceHead hn h ih =>
    cases h' with
    | choiceHead _ h' => rw [ih h']
    | choiceSkip hn' => simp [hn] at hn'
    | choiceEmpty _ h' => exact absurd h' (hmatched h)
    | choiceFail _ h' => exact absurd h' (hnoMatch h)
  | choiceSkip hn _ ih =>
    cases h' with
    | choiceSkip _ h' => exact ih h'
    | choiceHead hn' | choiceEmpty hn' | choiceFail hn' => simp [hn] at hn'
  | choiceEmpty hn h _ _ ih =>
    cases h' with
    | choiceHead _ h' => exact absurd h (hmatched h')
    | choiceSkip hn' => simp [hn] at hn'
    | choiceEmpty _ h' _ hs =>
      cases h.unique h'
      exact ih hs
    | choiceFail _ h' => nomatch h.unique h'
  | choiceFail hn h _ ih =>
    cases h' with
    | choiceHead _ h' => exact absurd h (hnoMatch h')
    | choiceSkip hn' => simp [hn] at hn'
    | choiceEmpty _ h' => nomatch h.unique h'
    | choiceFail _ _ hs => exact ih hs
  | roundsHead _ h ih =>
    cases h' with
    | roundsHead _ h' => exact ih h'
    | roundsNext _ h' => exact absurd h' (hmatched h)
  | roundsNext _ h _ _ ih =>
    cases h' with
    | roundsHead _ h' => exact absurd h (hmatched h')
    | roundsNext _ h' _ hs =>
      cases h.unique h'
      exact ih hs

/-! ### First sets on the way -/

theorem Arrives.lt_size {i : NodeId} (h : Arrives σ (.node i) pos q under) : i < σ.grammar.nodes.size := by
  cases h with
  | sequence h | choice h | repetition h | ruleRef h | fold h => exact Grammar.lt_size_of_getElem? h

/-- Before the end of the input, what comes to a rule without a definition may begin with the next byte. --/
theorem Arrives.has {node : NodeId → FirstSet} (hc : σ.grammar.Closed node) (h : Arrives σ task pos q under)
    (hpos : pos < σ.input.size) : (task.first σ.grammar node).Has σ.input[pos]? := by
  have hnext : ∀ {pos}, pos < σ.input.size → σ.input[pos]? ≠ none := fun hpos => by
    rw [getElem?_pos σ.input _ hpos]
    exact Option.some_ne_none _
  induction h with
  | @sequence i _ _ _ _ h _ ih | @ruleRef i _ _ _ _ h _ ih | @fold i _ _ _ _ h _ ih => exact hc i _ h _ (ih hpos)
  | @choice i _ _ _ _ h _ ih =>
    exact hc i _ h _ ((FirstSet.has_orEmpty.mp (ih hpos)).resolve_right fun h => nomatch h.2)
  | @repetition i _ _ _ _ _ _ h _ ih =>
    rw [first_rounds_zero] at ih
    exact hc i _ h _ (ih hpos)
  | undefined h =>
    rw [Task.first, Grammar.ruleSet, h]
    exact FirstSet.has_all _
  | rule h _ ih =>
    rw [Task.first, Grammar.ruleSet, h]
    exact ih hpos
  | sequenceHead _ ih => exact FirstSet.has_followedBy.mpr (Or.inl ⟨hnext hpos, ih hpos⟩)
  | @sequenceRest n ns pos mid l _ _ h _ ih =>
    have hfits := h.fits hc
    rw [Answer.Fits] at hfits
    by_cases hp : mid = pos
    · -- Nothing was read, and the others come to the rule from the same position.
      subst hp
      rw [if_pos rfl] at hfits
      exact FirstSet.has_followedBy.mpr (Or.inr ⟨hfits, ih hpos⟩)
    · rw [if_neg hp] at hfits
      exact FirstSet.has_followedBy.mpr (Or.inl ⟨hnext hpos, hfits⟩)
  | choiceHead _ _ ih => exact first_choice_cons_of_has (ih hpos)
  | choiceSkip _ _ ih | choiceFail _ _ _ ih => exact first_choice_cons_of_rest (ih hpos)
  | choiceEmpty _ _ _ _ ih =>
    have hrest := (FirstSet.has_orEmpty.mp (ih hpos)).resolve_right fun h => hnext hpos h.1
    exact FirstSet.has_orEmpty.mpr (Or.inl (FirstSet.has_union.mpr (Or.inr hrest)))
  | roundsHead hcount _ ih =>
    refine FirstSet.has_orEmpty.mpr (Or.inl ?_)
    rw [if_pos hcount]
    exact ih hpos
  | roundsNext hcount h hne _ _ =>
    have hfits := h.fits hc
    rw [Answer.Fits, if_neg hne] at hfits
    refine FirstSet.has_orEmpty.mpr (Or.inl ?_)
    rwa [if_pos hcount]

section
variable {sets : Array FirstSet} (hc : σ.grammar.Closed (Grammar.setOf sets))
include hc

/-- An alternative that comes to a rule without a definition is let through, unless it was begun at the end of the input
    and its set says that it is not empty. --/
theorem admits_of_arrives (hsize : sets.size = σ.grammar.nodes.size) {n : NodeId}
    (h : Arrives σ (.node n) pos q under) :
    admits (σ.pruned sets) pos n = true ↔ pos < σ.input.size ∨ (Grammar.setOf sets n).nullable = true := by
  have hset : sets.getD n FirstSet.all = Grammar.setOf sets n := by
    have hn : n < sets.size := hsize ▸ h.lt_size
    simp [Grammar.setOf, Array.getD_eq_getD_getElem?, hn]
  have hadmits : admits (σ.pruned sets) pos n = (sets.getD n FirstSet.all).accepts σ.input[pos]? := rfl
  rw [hadmits, hset, FirstSet.accepts_iff]
  rcases Nat.lt_or_ge pos σ.input.size with hpos | hpos
  · have hnext : ((Task.node n).first σ.grammar (Grammar.setOf sets)).Has σ.input[pos]? := h.has hc hpos
    exact iff_of_true (Or.inr hnext) (Or.inl hpos)
  · rw [getElem?_neg σ.input pos (Nat.not_lt.mpr hpos), or_self, or_iff_right (Nat.not_lt.mpr hpos)]
    rfl

/-- If all that is under way is let through, what comes before it turns out the same. --/
theorem Arrives.prune (hnone : σ.grammar.firstSets = none) (h : Arrives σ task pos q under)
    (hunder : ∀ x ∈ under, admits (σ.pruned sets) x.2 x.1 = true) : Arrives (σ.pruned sets) task pos q under := by
  have hall : ∀ pos n, admits σ pos n = true := fun pos n => by rw [admits, hnone]
  induction h with
  | sequence h _ ih => exact .sequence h (ih hunder)
  | choice h _ ih => exact .choice h (ih hunder)
  | repetition h _ ih => exact .repetition h (ih hunder)
  | ruleRef h _ ih => exact .ruleRef h (ih hunder)
  | fold h _ ih => exact .fold h (ih hunder)
  | undefined h => exact .undefined h
  | rule h _ ih => exact .rule h (ih hunder)
  | sequenceHead _ ih => exact .sequenceHead (ih hunder)
  | sequenceRest h _ ih => exact .sequenceRest (h.prune hc hnone (Answer.defined_matched _ _)) (ih hunder)
  | choiceHead _ _ ih =>
    obtain ⟨hn, hunder⟩ := List.forall_mem_cons.mp hunder
    exact .choiceHead hn (ih hunder)
  | @choiceSkip n _ _ pos _ _ hn => rw [hall pos n] at hn; cases hn
  | choiceEmpty _ h hlt _ ih =>
    exact .choiceEmpty (admits_of_matched hc h) (h.prune hc hnone (Answer.defined_matched _ _)) hlt (ih hunder)
  | @choiceFail n _ _ pos _ _ _ h _ ih =>
    cases hn : admits (σ.pruned sets) pos n with
    | true => exact .choiceFail hn (h.prune hc hnone Answer.defined_noMatch) (ih hunder)
    | false => exact .choiceSkip hn (ih hunder)
  | roundsHead hcount _ ih => exact .roundsHead hcount (ih hunder)
  | roundsNext hcount h hne _ ih =>
    exact .roundsNext hcount (h.prune hc hnone (Answer.defined_matched _ _)) hne (ih hunder)

/-- With first sets the match comes to the same rule on the same way, unless an alternative on it was begun at the end
    of the input and is not empty. --/
theorem Arrives.pruned_iff (hnone : σ.grammar.firstSets = none) (hsize : sets.size = σ.grammar.nodes.size)
    (h : Arrives σ task pos q under) : Arrives (σ.pruned sets) task pos q under ↔
      ∀ x ∈ under, x.2 < σ.input.size ∨ (Grammar.setOf sets x.1).nullable = true := by
  have hadmits : ∀ x ∈ under, admits (σ.pruned sets) x.2 x.1 = true ↔
      x.2 < σ.input.size ∨ (Grammar.setOf sets x.1).nullable = true := fun x hx => by
    obtain ⟨-, rest, hx⟩ := h.of_mem x hx
    exact admits_of_arrives hc hsize hx
  constructor
  · exact fun hp x hx => (hadmits x hx).mp (hp.of_mem x hx).1
  · exact fun hunder => h.prune hc hnone fun x hx => (hadmits x hx).mpr (hunder x hx)

end

end

/-! ### Runs -/

section
variable {σ : Setting} {r q : RuleId} {start : Nat} {under : List (NodeId × Nat)}

theorem run_of_arrives (h : Arrives σ (.rule r true) start q under) :
    run σ r start = .error (.missing (.undefined σ.grammar.name (σ.grammar.ruleName q))) := by
  have hrun := run_of_yields h.yields
  cases he : run σ r start with
  | ok found =>
    rw [he] at hrun
    cases hrun
  | error e =>
    rw [he] at hrun
    cases hrun
    rfl

theorem arrives_of_run {m : MissingRule} (h : run σ r start = .error (.missing m)) :
    ∃ q under, m = .undefined σ.grammar.name (σ.grammar.ruleName q) ∧ Arrives σ (.rule r true) start q under := by
  have hends : Terminates σ r start := by
    by_contra hne
    rw [run_endless_iff.mpr hne] at h
    cases h
  obtain ⟨a, ha⟩ := terminates_iff.mp hends
  have hrun := run_of_yields ha
  rw [h] at hrun
  cases a with
  | matched | noMatch => cases hrun
  | undefined q =>
    cases hrun
    obtain ⟨under, hq⟩ := ha.exists_arrives q rfl
    exact ⟨q, under, rfl, hq⟩

end

/-- First sets and rules without a definition. Where a match comes to an end without first sets: if it has a result, it
    has the same one with them; if with them it fails for want of a rule, it does so without them; and if without
    them it fails for want of a rule, then with them it comes to that rule on the same way exactly if each alternative
    under way was begun before the end of the input, or may be empty for all that its set tells. --/
theorem run_optimize_missing {g : Grammar} {r : RuleId} {observed : RuleId → Bool} {input : ByteArray} {start : Nat}
    (h : Terminates ⟨{ g with firstSets := none }, input, observed⟩ r start) :
    (∀ found, (run ⟨{ g with firstSets := none }, input, observed⟩ r start).map Run.found = .ok found →
      (run ⟨g.optimize, input, observed⟩ r start).map Run.found = .ok found) ∧
    (∀ m, run ⟨g.optimize, input, observed⟩ r start = .error (.missing m) →
      ∃ m', run ⟨{ g with firstSets := none }, input, observed⟩ r start = .error (.missing m')) ∧
    (∀ m, run ⟨{ g with firstSets := none }, input, observed⟩ r start = .error (.missing m) →
      ∃ q under, m = .undefined g.name (g.ruleName q) ∧
        Arrives ⟨{ g with firstSets := none }, input, observed⟩ (.rule r true) start q under ∧
        (Arrives ⟨g.optimize, input, observed⟩ (.rule r true) start q under ↔
          ∀ x ∈ under, x.2 < input.size ∨ g.nullable x.1 = true) ∧
        ((∀ x ∈ under, x.2 < input.size ∨ g.nullable x.1 = true) →
          run ⟨g.optimize, input, observed⟩ r start = .error (.missing m))) := by
  have hclosed := Grammar.closed_computeFirstSets g
  obtain ⟨a, ha⟩ := terminates_iff.mp h
  have hopt : a.Defined → Yields ⟨g.optimize, input, observed⟩ (.rule r true) start a := ha.prune hclosed rfl
  have hdefined : ∀ {a : Answer} {found}, a.found g = .ok found → a.Defined := by
    rintro (_ | _ | _) found hfound q ⟨⟩
    cases hfound
  refine ⟨fun found hfound => ?_, fun m hm => ?_, fun m hm => ?_⟩
  · have hfound : a.found g = .ok found := (run_of_yields ha).symm.trans hfound
    exact (run_of_yields (hopt (hdefined hfound))).trans hfound
  · -- Had the match a result without first sets, it would have the same with them.
    obtain ⟨q, under, -, hq⟩ := arrives_of_run hm
    cases a with
    | matched stop l => cases (hopt (Answer.defined_matched stop l)).unique hq.yields
    | noMatch => cases (hopt Answer.defined_noMatch).unique hq.yields
    | undefined p =>
      obtain ⟨under', hp⟩ := ha.exists_arrives p rfl
      exact ⟨_, run_of_arrives hp⟩
  · obtain ⟨q, under, rfl, hq⟩ := arrives_of_run hm
    have hiff := hq.pruned_iff hclosed rfl (Grammar.size_computeFirstSets g)
    exact ⟨q, under, rfl, hq, hiff, fun hunder => run_of_arrives (hiff.mpr hunder)⟩

/-- An alternative that comes to a rule without a definition, and has more behind it: `r = x "c" / "b"`. --/
def pending : Grammar :=
  ⟨"pending", #[.ruleRef 1, .literal [0x63] true, .sequence [0, 1], .literal [0x62] true, .choice [2, 3]],
    #[⟨"r", some 4⟩, ⟨"x", none⟩], none⟩

/-- At the end of the input it is passed over, and the rule is not missed. --/
theorem run_pending_empty :
    let input : ByteArray := ⟨#[]⟩
    Terminates ⟨{ pending with firstSets := none }, input, fun _ => true⟩ 0 0 ∧
      run ⟨{ pending with firstSets := none }, input, fun _ => true⟩ 0 0 =
        .error (.missing (.undefined "pending" "x")) ∧
      (run ⟨pending.optimize, input, fun _ => true⟩ 0 0).map Run.found = .ok none := by
  intro input
  refine ⟨⟨16, by decide⟩, ?_, ?_⟩
  · rfl
  · rfl

/-- In front of a byte it is not. --/
theorem run_pending :
    let input : ByteArray := ⟨#[0x62]⟩
    Terminates ⟨{ pending with firstSets := none }, input, fun _ => true⟩ 0 0 ∧
      run ⟨{ pending with firstSets := none }, input, fun _ => true⟩ 0 0 =
        .error (.missing (.undefined "pending" "x")) ∧
      run ⟨pending.optimize, input, fun _ => true⟩ 0 0 = .error (.missing (.undefined "pending" "x")) := by
  intro input
  have h : Terminates ⟨{ pending with firstSets := none }, input, fun _ => true⟩ 0 0 := ⟨16, by decide⟩
  have hmissing : run ⟨{ pending with firstSets := none }, input, fun _ => true⟩ 0 0 =
      .error (.missing (.undefined "pending" "x")) := rfl
  obtain ⟨q, under, -, hq, -, hsame⟩ := (run_optimize_missing h).2.2 _ hmissing
  -- One alternative is under way, and was begun in front of the byte.
  have hway : Arrives ⟨{ pending with firstSets := none }, input, fun _ => true⟩ (.rule 0 true) 0 1 [(2, 0)] :=
    .rule rfl (.choice rfl (.choiceHead rfl (.sequence rfl (.sequenceHead (.ruleRef rfl (.undefined rfl))))))
  cases hq.unique hway
  exact ⟨h, hmissing, hsame (by decide)⟩

end Match
end Abnf
