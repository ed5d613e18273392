import Abnf.Proofs.Match.Yields
import Mathlib.Data.Finset.Prod
import Mathlib.Order.Monotone.Basic

/-! Enough fuel. More fuel never changes an answer, and every answer that the rules of matching allow comes with
    some amount of fuel (`exists_perform`). A match stays among the positions from its start to the end of the
    input, so the nodes that it can be inside of at once are bounded: either one more unit of fuel settles
    some node at some position, or no amount of it settles anything else. This is why `run` finds every
    answer there is (`run_of_yields`) and gives up only on a match that has none (`run_endless_iff`). -/

namespace Abnf
namespace Match

/-! ### More fuel -/

/-- `c'` gives the answers of `c` at the positions of a set that matches do not leave. --/
structure Follows (Q : Nat → Prop) (c c' : Answerer) : Prop where
  answers : ∀ n pos a, Q pos → c n pos = some a → c' n pos = some a
  stays : ∀ n pos stop l, Q pos → c n pos = some (.matched stop l) → Q stop

section
variable {σ : Setting} {Q : Nat → Prop} {c c' : Answerer}

theorem Follows.sequence (h : Follows Q c c') : ∀ {ns : List NodeId} {pos : Nat} {a : Answer}, Q pos →
    c.sequence ns pos = some a → c'.sequence ns pos = some a
  | [], _, _, _, ha => ha
  | n :: ns, pos, a, hq, ha => by
    rw [Answerer.sequence] at ha ⊢
    cases hc : c n pos with
    | none => simp [hc] at ha
    | some b =>
      rw [h.answers n pos b hq hc]
      rw [hc] at ha
      cases b with
      | matched stop l =>
        obtain ⟨b, hb, rfl⟩ := Option.map_eq_some_iff.mp ha
        exact Option.map_eq_some_iff.mpr ⟨b, h.sequence (h.stays n pos stop l hq hc) hb, rfl⟩
      | noMatch | undefined => exact ha

theorem Follows.choice (h : Follows Q c c') {admits : NodeId → Bool} : ∀ {ns : List NodeId} {empty : Option Log}
    {pos : Nat} {a : Answer}, Q pos → c.choice admits empty ns pos = some a → c'.choice admits empty ns pos = some a
  | [], _, _, _, _, ha => ha
  | n :: ns, empty, pos, a, hq, ha => by
    rw [Answerer.choice] at ha ⊢
    split at ha
    · rw [if_pos ‹_›]
      cases hc : c n pos with
      | none => simp [hc] at ha
      | some b =>
        rw [h.answers n pos b hq hc]
        rw [hc] at ha
        cases b with
        | matched stop l =>
          dsimp only at ha ⊢
          split at ha
          · rw [if_pos ‹_›]
            exact ha
          · rw [if_neg ‹_›]
            exact h.choice hq ha
        | noMatch => exact h.choice hq ha
        | undefined => exact ha
    · rw [if_neg ‹_›]
      exact h.choice hq ha

theorem Follows.rounds (h : Follows Q c c') {n : NodeId} {min : Nat} {max : Option Nat} :
    ∀ {bound count pos : Nat} {a : Answer}, Q pos → Answerer.rounds (c n) min max bound count pos = some a →
      Answerer.rounds (c' n) min max bound count pos = some a
  | 0, _, _, _, _, ha => ha
  | bound + 1, count, pos, a, hq, ha => by
    rw [Answerer.rounds] at ha ⊢
    split at ha
    · rw [if_pos ‹_›]
      cases hc : c n pos with
      | none => simp [hc] at ha
      | some b =>
        rw [h.answers n pos b hq hc]
        rw [hc] at ha
        cases b with
        | matched stop l =>
          dsimp only at ha ⊢
          split at ha
          · rw [if_pos ‹_›]
            exact ha
          · rw [if_neg ‹_›]
            obtain ⟨b, hb, rfl⟩ := Option.map_eq_some_iff.mp ha
            exact Option.map_eq_some_iff.mpr ⟨b, h.rounds (h.stays n pos stop l hq hc) hb, rfl⟩
        | noMatch | undefined => exact ha
    · rw [if_neg ‹_›]
      exact ha

theorem Follows.rule (h : Follows Q c c') {wanted : Bool} {r : RuleId} {pos : Nat} {a : Answer} (hq : Q pos)
    (ha : c.rule σ wanted r pos = some a) : c'.rule σ wanted r pos = some a := by
  unfold Answerer.rule at ha ⊢
  cases hr : σ.grammar.root? r with
  | none => simpa [hr] using ha
  | some root =>
    rw [hr] at ha
    obtain ⟨b, hb, rfl⟩ := Option.map_eq_some_iff.mp ha
    exact Option.map_eq_some_iff.mpr ⟨b, h.answers root pos b hq hb, rfl⟩

theorem Follows.node (h : Follows Q c c') {n : Node} {pos : Nat} {a : Answer} (hq : Q pos)
    (ha : c.node σ n pos = some a) : c'.node σ n pos = some a := by
  cases n with
  | literal | charRange => exact ha
  | sequence ns => exact h.sequence hq ha
  | choice ns => exact h.choice hq ha
  | repetition n min max => exact h.rounds hq ha
  | ruleRef r => exact h.rule hq ha
  | fold n => exact h.answers n pos a hq ha

end

theorem answer_succ {σ : Setting} : ∀ {fuel : Nat} {i : NodeId} {pos : Nat} {a : Answer},
    answer σ fuel i pos = some a → answer σ (fuel + 1) i pos = some a
  | 0, _, _, _, ha => by cases ha
  | fuel + 1, i, pos, a, ha => by
    rw [answer] at ha ⊢
    split at ha
    · have h : Follows (fun _ => True) (answer σ fuel) (answer σ (fuel + 1)) :=
        ⟨fun _ _ _ _ => answer_succ, fun _ _ _ _ _ _ => trivial⟩
      exact h.node trivial ha
    · exact ha

theorem answer_mono {σ : Setting} {fuel fuel' : Nat} (hle : fuel ≤ fuel') {i : NodeId} {pos : Nat} {a : Answer}
    (ha : answer σ fuel i pos = some a) : answer σ fuel' i pos = some a := by
  induction hle with
  | refl => exact ha
  | step _ ih => exact answer_succ ih

theorem perform_mono {σ : Setting} {fuel fuel' : Nat} (hle : fuel ≤ fuel') {task : Task} {pos : Nat} {a : Answer}
    (ha : perform σ fuel task pos = some a) : perform σ fuel' task pos = some a := by
  have h : Follows (fun _ => True) (answer σ fuel) (answer σ fuel') :=
    ⟨fun _ _ _ _ => answer_mono hle, fun _ _ _ _ _ _ => trivial⟩
  cases task with
  | node n => exact answer_mono hle ha
  | rule r wanted => exact h.rule trivial ha
  | sequence ns => exact h.sequence trivial ha
  | choice ns empty => exact h.choice trivial ha
  | rounds n min max count => exact h.rounds trivial ha

/-! ### Some fuel -/

/-- A bound that is enough for the rounds that are left does not have to be exact. --/
theorem rounds_bound_mono {child : Nat → Option Answer} {min : Nat} {max : Option Nat} :
    ∀ {bound bound' count pos : Nat} {a : Answer}, bound ≤ bound' →
      Answerer.rounds child min max bound count pos = some a → Answerer.rounds child min max bound' count pos = some a
  | 0, _, _, _, _, _, ha => by cases ha
  | bound + 1, 0, _, _, _, hle, _ => by omega
  | bound + 1, bound' + 1, count, pos, a, hle, ha => by
    rw [Answerer.rounds] at ha ⊢
    split at ha
    · rw [if_pos ‹_›]
      cases hc : child pos with
      | none => simp [hc] at ha
      | some b =>
        rw [hc] at ha
        cases b with
        | matched stop l =>
          dsimp only at ha ⊢
          split at ha
          · rw [if_pos ‹_›]
            exact ha
          · rw [if_neg ‹_›]
            obtain ⟨b, hb, rfl⟩ := Option.map_eq_some_iff.mp ha
            exact Option.map_eq_some_iff.mpr ⟨b, rounds_bound_mono (by omega) hb, rfl⟩
        | noMatch | undefined => exact ha
    · rw [if_neg ‹_›]
      exact ha

/-- Two answers come with one amount of fuel. --/
theorem perform_both {σ : Setting} {task task' : Task} {pos pos' : Nat} {a a' : Answer}
    (h : ∃ fuel, perform σ fuel task pos = some a) (h' : ∃ fuel, perform σ fuel task' pos' = some a') :
    ∃ fuel, perform σ fuel task pos = some a ∧ perform σ fuel task' pos' = some a' := by
  obtain ⟨f, h⟩ := h
  obtain ⟨f', h'⟩ := h'
  exact ⟨max f f', perform_mono (Nat.le_max_left f f') h, perform_mono (Nat.le_max_right f f') h'⟩

theorem exists_perform {σ : Setting} {task : Task} {pos : Nat} {a : Answer} (h : Yields σ task pos a) :
    ∃ fuel, perform σ fuel task pos = some a := by
  induction h with
  | missing h => exact ⟨1, by simp [perform, answer, h]⟩
  | literal h | charRange h => exact ⟨1, by simp [perform, answer, h, Answerer.node]⟩
  | sequence h _ ih | choice h _ ih | repetition h _ ih | ruleRef h _ ih | fold h _ ih =>
    obtain ⟨fuel, ih⟩ := ih
    exact ⟨fuel + 1, by simpa only [perform, answer, h, Answerer.node] using ih⟩
  | undefined h => exact ⟨0, by simp [perform, Answerer.rule, h]⟩
  | rule h _ ih =>
    obtain ⟨fuel, ih⟩ := ih
    rw [perform] at ih
    exact ⟨fuel, by simp [perform, Answerer.rule, h, ih]⟩
  | sequenceNil => exact ⟨0, rfl⟩
  | sequenceCons _ _ ih₁ ih₂ =>
    obtain ⟨fuel, ih₁, ih₂⟩ := perform_both ih₁ ih₂
    simp only [perform] at ih₁ ih₂
    exact ⟨fuel, by simp [perform, Answerer.sequence, ih₁, ih₂]⟩
  | @sequenceStop n ns pos a _ ha ih =>
    obtain ⟨fuel, ih⟩ := ih
    rw [perform] at ih
    refine ⟨fuel, ?_⟩
    cases a with
    | matched => cases ha
    | noMatch | undefined => simp [perform, Answerer.sequence, ih]
  | choiceNil => exact ⟨0, rfl⟩
  | choiceSkip hn _ ih =>
    obtain ⟨fuel, ih⟩ := ih
    rw [perform] at ih
    exact ⟨fuel, by simp [perform, Answerer.choice, hn, ih]⟩
  | choiceTake hn _ hlt ih =>
    obtain ⟨fuel, ih⟩ := ih
    rw [perform] at ih
    exact ⟨fuel, by simp [perform, Answerer.choice, hn, ih, hlt]⟩
  | choiceEmpty hn _ hlt _ ih₁ ih₂ =>
    obtain ⟨fuel, ih₁, ih₂⟩ := perform_both ih₁ ih₂
    simp only [perform] at ih₁ ih₂
    exact ⟨fuel, by simp [perform, Answerer.choice, hn, ih₁, ih₂, hlt]⟩
  | choiceFail hn _ _ ih₁ ih₂ =>
    obtain ⟨fuel, ih₁, ih₂⟩ := perform_both ih₁ ih₂
    simp only [perform] at ih₁ ih₂
    exact ⟨fuel, by simp [perform, Answerer.choice, hn, ih₁, ih₂]⟩
  | choiceStop hn _ ih =>
    obtain ⟨fuel, ih⟩ := ih
    rw [perform] at ih
    exact ⟨fuel, by simp [perform, Answerer.choice, hn, ih]⟩
  | roundsFull hc => exact ⟨0, by rw [perform, Answerer.rounds, hc]; rfl⟩
  | roundsEmpty hc _ ih =>
    obtain ⟨fuel, ih⟩ := ih
    rw [perform] at ih
    exact ⟨fuel, by rw [perform, Answerer.rounds, if_pos hc, ih]; simp⟩
  | @roundsNext n min max count pos stop l a hc h hne _ ih₁ ih₂ =>
    obtain ⟨fuel, ih₁, ih₂⟩ := perform_both ih₁ ih₂
    simp only [perform] at ih₁ ih₂
    -- The round has read something, so it pays for itself.
    have hfwd := h.forward stop l rfl
    have hbound : σ.input.size - stop + 1 ≤ σ.input.size - pos := by
      obtain ⟨h₁, h₂⟩ := hfwd
      omega
    refine ⟨fuel, ?_⟩
    rw [perform, Answerer.rounds, if_pos hc, ih₁]
    simp [hne, rounds_bound_mono hbound ih₂]
  | roundsFail hc _ ih =>
    obtain ⟨fuel, ih⟩ := ih
    rw [perform] at ih
    exact ⟨fuel, by rw [perform, Answerer.rounds, if_pos hc, ih]⟩
  | roundsStop hc _ ih =>
    obtain ⟨fuel, ih⟩ := ih
    rw [perform] at ih
    exact ⟨fuel, by rw [perform, Answerer.rounds, if_pos hc, ih]⟩

/-- A task has at most one answer. --/
theorem Yields.unique {σ : Setting} {task : Task} {pos : Nat} {a b : Answer} (ha : Yields σ task pos a)
    (hb : Yields σ task pos b) : a = b := by
  obtain ⟨fuel, h₁, h₂⟩ := perform_both (exists_perform ha) (exists_perform hb)
  exact Option.some.inj (h₁.symm.trans h₂)

/-! ### Enough fuel -/

/-- The nodes, each with a position counted from the start, that have an answer with an amount of fuel. --/
def settled (σ : Setting) (start fuel : Nat) : Finset (Nat × Nat) :=
  (Finset.range σ.grammar.nodes.size ×ˢ Finset.range (σ.input.size - start + 1)).filter
    fun p => (answer σ fuel p.1 (start + p.2)).isSome

section
variable {σ : Setting} {start : Nat}

theorem mem_settled {fuel : Nat} {i : NodeId} {pos : Nat} {a : Answer} (hq : Forward σ.input.size start pos)
    (hi : i < σ.grammar.nodes.size) (h : answer σ fuel i pos = some a) : (i, pos - start) ∈ settled σ start fuel := by
  unfold Forward at hq
  have hpos : start + (pos - start) = pos := by omega
  simp only [settled, Finset.mem_filter, Finset.mem_product, Finset.mem_range, hpos, h, Option.isSome_some, and_true]
  exact ⟨hi, by omega⟩

theorem settled_mono (σ : Setting) (start : Nat) : Monotone (settled σ start) := by
  refine monotone_nat_of_le_succ fun fuel p hp => ?_
  simp only [settled, Finset.mem_filter, Option.isSome_iff_exists] at hp ⊢
  obtain ⟨hp, a, ha⟩ := hp
  exact ⟨hp, a, answer_succ ha⟩

theorem card_settled_le (fuel : Nat) :
    (settled σ start fuel).card ≤ σ.grammar.nodes.size * (σ.input.size - start + 1) := by
  refine Nat.le_trans (Finset.card_filter_le _ _) ?_
  simp

/-- If nothing new is settled, less fuel gives the same answers. --/
theorem follows_of_settled {fuel fuel' : Nat} (hle : fuel + 1 ≤ fuel')
    (hs : settled σ start fuel' ⊆ settled σ start (fuel + 1)) :
    Follows (Forward σ.input.size start) (answer σ fuel') (answer σ (fuel + 1)) where
  answers i pos a hq ha := by
    rcases Nat.lt_or_ge i σ.grammar.nodes.size with hi | hi
    · have hmem := hs (mem_settled hq hi ha)
      have hpos : start + (pos - start) = pos := by
        unfold Forward at hq
        omega
      simp only [settled, Finset.mem_filter, hpos, Option.isSome_iff_exists] at hmem
      obtain ⟨-, b, hb⟩ := hmem
      rw [answer_mono hle hb] at ha
      exact ha ▸ hb
    · have hnone : σ.grammar.nodes[i]? = none := getElem?_neg _ _ (by omega)
      obtain ⟨f, rfl⟩ := Nat.exists_eq_add_of_le' hle
      rw [← Nat.add_assoc, answer, hnone] at ha
      rwa [answer, hnone]
  stays _ _ _ _ hq h := hq.trans ((obeys_answer σ _ _ _ _ h).forward _ _ rfl)

/-- Once a unit of fuel settles nothing new, the next does not either. --/
theorem settled_stable {fuel : Nat} (hs : settled σ start (fuel + 1) = settled σ start (fuel + 2)) :
    settled σ start (fuel + 2) = settled σ start (fuel + 3) := by
  refine Finset.Subset.antisymm (settled_mono σ start (by omega)) fun p hp => ?_
  have hf := follows_of_settled (by omega) hs.symm.subset
  simp only [settled, Finset.mem_filter, Finset.mem_product, Finset.mem_range, Option.isSome_iff_exists] at hp ⊢
  obtain ⟨⟨hi, hk⟩, a, ha⟩ := hp
  have hq : Forward σ.input.size start (start + p.2) := by
    unfold Forward
    omega
  refine ⟨⟨hi, hk⟩, a, ?_⟩
  rw [answer] at ha ⊢
  split at ha
  · exact hf.node hq ha
  · exact ha

/-- One unit of fuel for each node at each position settles all that can be settled. --/
theorem settled_all (σ : Setting) (start fuel : Nat) :
    settled σ start fuel ⊆ settled σ start (σ.grammar.nodes.size * (σ.input.size - start + 1) + 1) := by
  set bound := σ.grammar.nodes.size * (σ.input.size - start + 1) with hbound
  -- The number of settled pairs grows with the fuel until it stays, and there are no more pairs than `bound`.
  have hmono : Monotone fun m => (settled σ start (m + 1)).card :=
    fun _ _ h => Finset.card_le_card (settled_mono σ start (by omega))
  have hstable : ∀ m, (settled σ start (m + 1)).card = (settled σ start (m + 1 + 1)).card →
      (settled σ start (m + 1 + 1)).card = (settled σ start (m + 2 + 1)).card := by
    intro m hm
    have hs := Finset.eq_of_subset_of_card_le (settled_mono σ start (by omega)) hm.ge
    rw [settled_stable hs]
  have hcard := Nat.stabilises_of_monotone hmono (fun m => card_settled_le (m + 1)) hstable
    (Nat.le_max_right fuel bound)
  have hs := Finset.eq_of_subset_of_card_le
    (settled_mono σ start (Nat.add_le_add_right (Nat.le_max_right fuel bound) 1)) hcard.le
  rw [hs]
  exact settled_mono σ start (by omega)

theorem le_fuelFor (σ : Setting) (start : Nat) :
    σ.grammar.nodes.size * (σ.input.size - start + 1) + 1 ≤ fuelFor σ.grammar σ.input start := by
  calc σ.grammar.nodes.size * (σ.input.size - start + 1) + 1
    _ ≤ σ.grammar.nodes.size * (σ.input.size - start + 1) + (σ.input.size - start + 1) := by omega
    _ = (σ.input.size - start + 1) * 1 * (σ.grammar.nodes.size + 1) := by
      rw [Nat.mul_one, Nat.mul_comm, ← Nat.mul_succ]
    _ ≤ fuelFor σ.grammar σ.input start :=
      Nat.mul_le_mul_right _ (Nat.mul_le_mul_left _ (Nat.le_add_left 1 _))

/-- The fuel of a run gives every answer there is. --/
theorem follows_fuelFor (σ : Setting) (start fuel : Nat) :
    Follows (Forward σ.input.size start) (answer σ fuel) (answer σ (fuelFor σ.grammar σ.input start)) where
  answers i pos a hq ha := by
    have hf := follows_of_settled (Nat.le_max_right fuel _)
      (settled_all σ start (Nat.max fuel (σ.grammar.nodes.size * (σ.input.size - start + 1) + 1)))
    exact answer_mono (le_fuelFor σ start) (hf.answers i pos a hq (answer_mono (Nat.le_max_left fuel _) ha))
  stays _ _ _ _ hq h := hq.trans ((obeys_answer σ _ _ _ _ h).forward _ _ rfl)

end

end Match

/-! ### What a run finds -/

/-- Where the rule matched up to and what was logged, if it matched. --/
def Run.found (run : Run) : Option (Nat × Log) := run.stop.map (·, run.trail.log)

/-- What a run makes of an answer. --/
def Answer.found (g : Grammar) : Answer → Except MatchError (Option (Nat × Log))
  | matched stop l => .ok (some (stop, l))
  | noMatch => .ok none
  | undefined r => .error (.missing (.undefined g.name (g.ruleName r)))

namespace Match

/-- Whether a match comes to an end, however long it takes. --/
def Terminates (σ : Setting) (r : RuleId) (start : Nat) : Prop := ∃ fuel, (runWith σ fuel r start).isSome

section
variable {σ : Setting} {r : RuleId} {start : Nat}

theorem shows_runWith (σ : Setting) (r : RuleId) (start fuel : Nat) :
    Shows #[] (perform σ fuel (.rule r true) start) (runWith σ fuel r start) :=
  shows_rule (shows_evaluate σ fuel) σ true r start Trail.empty

/-- A match comes to an end just if it has an answer. --/
theorem terminates_iff : Terminates σ r start ↔ ∃ a, Yields σ (.rule r true) start a := by
  constructor
  · rintro ⟨fuel, hf⟩
    have hs := shows_runWith σ r start fuel
    revert hf hs
    generalize hp : perform σ fuel (.rule r true) start = a, runWith σ fuel r start = x
    intro hf hs
    cases hs with
    | unfinished => exact absurd hf Bool.false_ne_true
    | matched | noMatch | undefined => exact ⟨_, yields_of_perform hp⟩
  · rintro ⟨a, ha⟩
    obtain ⟨fuel, hp⟩ := exists_perform ha
    have hs := shows_runWith σ r start fuel
    rw [hp] at hs
    refine ⟨fuel, ?_⟩
    generalize runWith σ fuel r start = x at hs
    cases hs <;> rfl

/-- A run finds the answer of its rule. --/
theorem run_of_yields {a : Answer} (h : Yields σ (.rule r true) start a) :
    (run σ r start).map Run.found = a.found σ.grammar := by
  obtain ⟨fuel, hp⟩ := exists_perform h
  have hs := shows_runWith σ r start (fuelFor σ.grammar σ.input start)
  rw [perform, (follows_fuelFor σ start fuel).rule (Forward.refl _ _) hp] at hs
  rw [run]
  generalize runWith σ (fuelFor σ.grammar σ.input start) r start = x at hs
  cases hs with
  | matched ht => simp [Except.map, Run.found, Answer.found, ht]
  | noMatch | undefined => rfl

/-- A run gives up only on a match that would go on forever. --/
theorem run_endless_iff : run σ r start = .error .endless ↔ ¬Terminates σ r start := by
  constructor
  · rintro h ht
    obtain ⟨a, ha⟩ := terminates_iff.mp ht
    have := run_of_yields ha
    rw [h] at this
    cases a <;> cases this
  · intro h
    have : runWith σ (fuelFor σ.grammar σ.input start) r start = none :=
      Option.not_isSome_iff_eq_none.mp fun hs => h ⟨_, hs⟩
    rw [run, this]

end

end Match
end Abnf
