import Abnf.Match.Element
import Abnf.Proofs.Except
import Abnf.Proofs.Grammar.WellFormed
import Abnf.Proofs.Match.Fuel
import Abnf.Proofs.Match.Occurrence

/-! What a match logs depends on the rules that are observed, and nothing else of it does. Two matches that differ in
    the observed rules only are followed side by side (`thins_answer`): they come to the same end, and the one that
    observes fewer rules logs what is left of the other's log without the rules it does not observe
    (`run_observed`). -/

namespace Abnf

open Occurrence

namespace Match

/-! ### Two answers side by side -/

/-- Two answers at a position that differ in what they log only: the second is without the rules outside a set. --/
inductive Thins (g : Grammar) (keep : RuleId → Bool) (pos : Nat) : Option Answer → Option Answer → Prop where
  | unfinished : Thins g keep pos none none
  | noMatch : Thins g keep pos (some .noMatch) (some .noMatch)
  | undefined (r : RuleId) : Thins g keep pos (some (.undefined r)) (some (.undefined r))
  | matched {stop : Nat} {os : List Occurrence} (hle : pos ≤ stop) (hos : LieAll g pos stop os) :
      Thins g keep pos (some (.matched stop (effectsAll os).toArray))
        (some (.matched stop (effectsAll (keepingAll keep os)).toArray))

section
variable {g : Grammar} {keep : RuleId → Bool} {pos : Nat} {a b : Option Answer}

/-- A match that logs nothing. --/
theorem Thins.silent {stop : Nat} (hle : pos ≤ stop) :
    Thins g keep pos (some (.matched stop #[])) (some (.matched stop #[])) := by
  have hos : LieAll g pos stop [] := trivial
  exact .matched hle hos

/-- What follows a match that has logged something. --/
theorem Thins.after {mid : Nat} {os : List Occurrence} (h : Thins g keep mid a b) (hle : pos ≤ mid)
    (hos : LieAll g pos mid os) :
    Thins g keep pos (a.map (.after (effectsAll os).toArray))
      (b.map (.after (effectsAll (keepingAll keep os)).toArray)) := by
  cases h with
  | unfinished => exact .unfinished
  | noMatch => exact .noMatch
  | undefined r => exact .undefined r
  | @matched stop ps hle' hps =>
    have h : Thins g keep pos _ _ := .matched (Nat.le_trans hle hle') (hos.append hps hle hle')
    simpa [keepingAll_append, effectsAll_append] using h

/-- A rule logs itself around what its root logs, if it is observed. --/
theorem Thins.leave {r : RuleId} {wanted : Bool} (h : Thins g keep pos a b) (hr : (g.root? r).isSome)
    (hw : keep r = true → wanted = true) :
    Thins g keep pos (a.map (.leave wanted r pos)) (b.map (.leave (keep r) r pos)) := by
  cases h with
  | unfinished => exact .unfinished
  | noMatch => exact .noMatch
  | undefined q => exact .undefined q
  | @matched stop os hle hos =>
    have ho : LieAll g pos stop [of r ⟨pos, stop⟩ os] := ⟨⟨hr, Nat.le_refl _, hle, Nat.le_refl _, hos⟩, trivial⟩
    have h : Thins g keep pos _ _ := .matched hle ho
    cases hk : keep r with
    | true =>
      rw [hw hk]
      simpa [Answer.leave, effectsAll, effects, keepingAll, keeping, hk] using h
    | false =>
      cases wanted with
      | true => simpa [Answer.leave, effectsAll, effects, keepingAll, keeping, hk] using h
      | false => exact .matched hle hos

theorem thins_leaf {stop : Option Nat} (h : ∀ s, stop = some s → pos ≤ s) :
    Thins g keep pos (some (Answer.leaf stop)) (some (Answer.leaf stop)) := by
  cases stop with
  | none => exact .noMatch
  | some s => exact .silent (h s rfl)

theorem thins_settle (min count pos : Nat) :
    Thins g keep pos (some (Answer.settle min count pos)) (some (Answer.settle min count pos)) := by
  unfold Answer.settle
  split
  · exact .noMatch
  · exact .silent (Nat.le_refl _)

end

/-! ### Nodes -/

/-- Children answer side by side. --/
def ThinsAll (g : Grammar) (keep : RuleId → Bool) (child child' : Answerer) : Prop :=
  ∀ n pos, Thins g keep pos (child n pos) (child' n pos)

section
variable {g : Grammar} {keep : RuleId → Bool} {child child' : Answerer}

theorem thins_sequence (h : ThinsAll g keep child child') : ∀ (ns : List NodeId) (pos : Nat),
    Thins g keep pos (child.sequence ns pos) (child'.sequence ns pos)
  | [], pos => .silent (Nat.le_refl _)
  | n :: ns, pos => by
    have hn := h n pos
    rw [Answerer.sequence, Answerer.sequence]
    generalize child n pos = a, child' n pos = b at hn
    cases hn with
    | unfinished => exact .unfinished
    | noMatch => exact .noMatch
    | undefined r => exact .undefined r
    | @matched mid os hle hos => exact (thins_sequence h ns mid).after hle hos

/-- The alternatives that are left, after one that matched empty and logged `empty` or after none. --/
theorem thins_choice (h : ThinsAll g keep child child') (admits : NodeId → Bool) (pos : Nat) :
    ∀ (ns : List NodeId) (empty : Option (List Occurrence)), (∀ os, empty = some os → LieAll g pos pos os) →
      Thins g keep pos (child.choice admits (empty.map fun os => (effectsAll os).toArray) ns pos)
        (child'.choice admits (empty.map fun os => (effectsAll (keepingAll keep os)).toArray) ns pos)
  | [], none, _ => .noMatch
  | [], some os, hempty => .matched (Nat.le_refl _) (hempty os rfl)
  | n :: ns, empty, hempty => by
    have hn := h n pos
    rw [Answerer.choice, Answerer.choice]
    split
    · generalize child n pos = a, child' n pos = b at hn
      cases hn with
      | unfinished => exact .unfinished
      | noMatch => exact thins_choice h admits pos ns empty hempty
      | undefined r => exact .undefined r
      | @matched stop os hle hos =>
        dsimp only
        split
        · exact .matched hle hos
        · obtain rfl : stop = pos := by omega
          -- Only the first alternative that matched empty is kept for later.
          cases empty with
          | none => exact thins_choice h admits stop ns (some os) fun _ ho => Option.some.inj ho ▸ hos
          | some ps => exact thins_choice h admits stop ns (some ps) hempty
    · exact thins_choice h admits pos ns empty hempty

theorem thins_rounds (h : ThinsAll g keep child child') (n : NodeId) (min : Nat) (max : Option Nat) :
    ∀ bound count pos : Nat, Thins g keep pos (Answerer.rounds (child n) min max bound count pos)
      (Answerer.rounds (child' n) min max bound count pos)
  | 0, _, _ => .unfinished
  | bound + 1, count, pos => by
    have hn := h n pos
    rw [Answerer.rounds, Answerer.rounds]
    split
    · generalize child n pos = a, child' n pos = b at hn
      cases hn with
      | unfinished => exact .unfinished
      | noMatch => exact thins_settle min count pos
      | undefined r => exact .undefined r
      | @matched stop os hle hos =>
        dsimp only
        split
        · subst stop
          exact (thins_settle min (Nat.max (count + 1) min) pos).after hle hos
        · exact (thins_rounds h n min max bound (count + 1) stop).after hle hos
    · exact thins_settle min count pos

theorem thins_rule (h : ThinsAll g keep child child') {σ σ' : Setting} (hσ : σ.grammar = g) (hσ' : σ'.grammar = g)
    {r : RuleId} {wanted : Bool} (hw : keep r = true → wanted = true) (pos : Nat) :
    Thins g keep pos (child.rule σ wanted r pos) (child'.rule σ' (keep r) r pos) := by
  rw [Answerer.rule, Answerer.rule, hσ, hσ']
  cases hr : g.root? r with
  | none => exact .undefined r
  | some root => exact (h root pos).leave (by rw [hr]; rfl) hw

theorem thins_node {A B : RuleId → Bool} (hAB : ∀ r, A r = true → B r = true) (h : ThinsAll g A child child')
    (input : ByteArray) (n : Node) (pos : Nat) :
    Thins g A pos (child.node ⟨g, input, B⟩ n pos) (child'.node ⟨g, input, A⟩ n pos) := by
  cases n with
  | literal bytes ignoreCase => exact thins_leaf fun _ hs => (literal?_forward hs).1
  | charRange lo hi => exact thins_leaf fun _ hs => (charRange?_forward hs).1
  | sequence ns => exact thins_sequence h ns pos
  | choice ns => exact thins_choice h _ pos ns none nofun
  | repetition n min max => exact thins_rounds h n _ _ _ 0 pos
  | ruleRef r => exact thins_rule h rfl rfl (hAB r) pos
  | fold n => exact h n pos

/-- With the same fuel, a match comes to the same end whatever rules are observed. --/
theorem thins_answer (g : Grammar) (input : ByteArray) {A B : RuleId → Bool} (hAB : ∀ r, A r = true → B r = true) :
    ∀ fuel, ThinsAll g A (answer ⟨g, input, B⟩ fuel) (answer ⟨g, input, A⟩ fuel)
  | 0, _, _ => .unfinished
  | fuel + 1, i, pos => by
    rw [answer, answer]
    dsimp only
    cases g.nodes[i]? with
    | none => exact .noMatch
    | some n => exact thins_node hAB (thins_answer g input hAB fuel) input n pos

end

/-! ### Runs -/

/-- Two runs that find the same, but for what an occurrence of the rule has inside it. --/
inductive Parallel (g : Grammar) (keep : RuleId → Bool) (r : RuleId) (start : Nat) :
    Except MatchError (Option (Nat × Log)) → Except MatchError (Option (Nat × Log)) → Prop where
  | error (e : MatchError) : Parallel g keep r start (.error e) (.error e)
  | noMatch : Parallel g keep r start (.ok none) (.ok none)
  | matched {stop : Nat} {inner : List Occurrence} (ho : (of r ⟨start, stop⟩ inner).Lies g start stop) :
      Parallel g keep r start (.ok (some (stop, (of r ⟨start, stop⟩ inner).effects.toArray)))
        (.ok (some (stop, ((of r ⟨start, stop⟩ inner).restrict keep).effects.toArray)))

section
variable (g : Grammar) (r : RuleId) (input : ByteArray) (start : Nat) {A B : RuleId → Bool}

/-- What is found if the fuel gives an answer or runs out. --/
def foundOf (σ : Setting) : Option Answer → Except MatchError (Option (Nat × Log))
  | some a => a.found σ.grammar
  | none => .error .endless

theorem run_found (σ : Setting) : (run σ r start).map Run.found =
    foundOf σ (perform σ (fuelFor σ.grammar σ.input start) (.rule r true) start) := by
  have hs := shows_runWith σ r start (fuelFor σ.grammar σ.input start)
  rw [run]
  generalize perform σ (fuelFor σ.grammar σ.input start) (.rule r true) start = a,
    runWith σ (fuelFor σ.grammar σ.input start) r start = x at hs
  cases hs with
  | matched ht => simp [Except.map, Run.found, foundOf, Answer.found, ht]
  | unfinished | noMatch | undefined => rfl

theorem parallel_run (hAB : ∀ r, A r = true → B r = true) :
    Parallel g A r start ((run ⟨g, input, B⟩ r start).map Run.found) ((run ⟨g, input, A⟩ r start).map Run.found) := by
  rw [run_found, run_found, perform, perform, Answerer.rule, Answerer.rule]
  dsimp only
  cases hr : g.root? r with
  | none => exact .error _
  | some root =>
    have h := thins_answer g input hAB (fuelFor g input start) root start
    dsimp only
    generalize answer ⟨g, input, B⟩ (fuelFor g input start) root start = a,
      answer ⟨g, input, A⟩ (fuelFor g input start) root start = b at h
    cases h with
    | unfinished => exact .error _
    | noMatch => exact .noMatch
    | undefined q => exact .error _
    | @matched stop inner hle hinner =>
      have ho : (of r ⟨start, stop⟩ inner).Lies g start stop :=
        ⟨by rw [hr]; rfl, Nat.le_refl _, hle, Nat.le_refl _, hinner⟩
      have h : Parallel g A r start _ _ := .matched ho
      simpa [foundOf, Answer.found, Answer.leave, effects, restrict] using h

/-- A log without the pairs of the rules not observed is the log of a match that does not observe them. --/
theorem run_keeping (hAB : ∀ r, A r = true → B r = true) : (run ⟨g, input, A⟩ r start).map Run.found =
    ((run ⟨g, input, B⟩ r start).map Run.found).map (Option.map fun found => (found.1, found.2.keeping A)) := by
  have h := parallel_run g r input start hAB
  generalize (run ⟨g, input, B⟩ r start).map Run.found = x, (run ⟨g, input, A⟩ r start).map Run.found = y at h
  cases h with
  | error | noMatch => rfl
  | matched => simp [Except.map, keeping_toArray_effects]

variable {g r input start}

/-- A match, whatever it observes, has a tree of everything that matched, and logs what is left of it. --/
theorem exists_tree {stop : Nat} {log : Log}
    (h : (run ⟨g, input, A⟩ r start).map Run.found = .ok (some (stop, log))) :
    ∃ inner, (of r ⟨start, stop⟩ inner).Lies g start stop ∧
      (run ⟨g, input, fun _ => true⟩ r start).map Run.found =
        .ok (some (stop, (of r ⟨start, stop⟩ inner).effects.toArray)) ∧
      ∀ keep, (run ⟨g, input, keep⟩ r start).map Run.found =
        .ok (some (stop, ((of r ⟨start, stop⟩ inner).restrict keep).effects.toArray)) := by
  have hp := parallel_run g r input start (A := A) (B := fun _ => true) fun _ _ => rfl
  rw [h] at hp
  generalize hall : (run ⟨g, input, fun _ => true⟩ r start).map Run.found = x at hp
  cases hp with
  | @matched _ inner ho =>
    refine ⟨inner, ho, rfl, fun keep => ?_⟩
    rw [run_keeping g r input start (B := fun _ => true) fun _ _ => rfl, hall]
    simp [Except.map, keeping_toArray_effects]

/-- A match ends in the input, or where it began. --/
theorem run_forward {σ : Setting} {stop : Nat} {log : Log}
    (h : (run σ r start).map Run.found = .ok (some (stop, log))) : Forward σ.input.size start stop := by
  rw [run_found] at h
  cases hp : perform σ (fuelFor σ.grammar σ.input start) (.rule r true) start with
  | none => simp [hp, foundOf] at h
  | some a =>
    rw [hp, foundOf] at h
    cases a with
    | matched stop' log' =>
      cases h
      exact (yields_of_perform hp).forward _ _ rfl
    | noMatch => simp [Answer.found] at h
    | undefined q => simp [Answer.found] at h

end

end Match

/-! ### Elements -/

namespace Element

mutual

/-- What stands in the place of an element if only the rules of some names are told of: the element, or its
    children. --/
def keeping (keep : String → Bool) : Element → List Element
  | of rule value children => if keep rule then [of rule value (keepingAll keep children)] else keepingAll keep children

def keepingAll (keep : String → Bool) : List Element → List Element
  | [] => []
  | e :: es => keeping keep e ++ keepingAll keep es

end

/-- An element that is told of in any case. --/
def restrict (keep : String → Bool) : Element → Element
  | of rule value children => of rule value (keepingAll keep children)

end Element

/-- In a span that does not reach past the end there is a text. --/
theorem Span.text?_of_le {s : Span} {input : ByteArray} (h : s.start ≤ s.stop) (hstop : s.stop ≤ input.size) :
    s.text? input = some (Utf8.lossy (input.extract s.start s.stop).data.toList) := if_pos ⟨h, hstop⟩

namespace Element

section
variable {g : Grammar} {input : ByteArray} {keep : RuleId → Bool} {keepName : String → Bool}

theorem ofOccurrences_append {name : RuleId → String} : ∀ {os ps : List Occurrence} {es fs : List Element},
    ofOccurrences name input os = some es → ofOccurrences name input ps = some fs →
    ofOccurrences name input (os ++ ps) = some (es ++ fs)
  | [], _, _, _, hos, hps => by
    cases hos
    exact hps
  | o :: os, ps, es, fs, hos, hps => by
    rw [ofOccurrences] at hos
    obtain ⟨e, he, hos⟩ := Option.bind_eq_some_iff.mp hos
    obtain ⟨es, hes, hos⟩ := Option.bind_eq_some_iff.mp hos
    cases hos
    rw [List.cons_append, ofOccurrences, he, ofOccurrences_append hes hps]
    rfl

mutual

/-- Elements are told of as the occurrences that they are made from are. --/
theorem ofOccurrence_keeping (hname : ∀ r, (g.root? r).isSome → keepName (g.ruleName r) = keep r) :
    ∀ {o : Occurrence} {low high : Nat}, o.Lies g low high → high ≤ input.size →
      ∃ e, ofOccurrence g.ruleName input o = some e ∧
        ofOccurrences g.ruleName input (o.keeping keep) = some (e.keeping keepName)
  | .of r span os, low, high, ⟨hr, _, hle, hstop, hinner⟩, hhigh => by
    obtain ⟨es, hes, hkept⟩ := ofOccurrences_keepingAll hname hinner (Nat.le_trans hstop hhigh)
    have htext := Span.text?_of_le hle (Nat.le_trans hstop hhigh)
    refine ⟨_, by rw [ofOccurrence, htext, hes]; rfl, ?_⟩
    rw [Occurrence.keeping, keeping, hname r hr]
    cases keep r with
    | true =>
      rw [if_pos rfl, if_pos rfl, ofOccurrences, ofOccurrence, htext, hkept]
      rfl
    | false => exact hkept

theorem ofOccurrences_keepingAll (hname : ∀ r, (g.root? r).isSome → keepName (g.ruleName r) = keep r) :
    ∀ {os : List Occurrence} {low high : Nat}, LieAll g low high os → high ≤ input.size →
      ∃ es, ofOccurrences g.ruleName input os = some es ∧
        ofOccurrences g.ruleName input (Occurrence.keepingAll keep os) = some (keepingAll keepName es)
  | [], _, _, _, _ => ⟨[], rfl, rfl⟩
  | o :: os, low, high, ⟨ho, hos⟩, hhigh => by
    obtain ⟨e, he, hkept⟩ := ofOccurrence_keeping hname ho hhigh
    obtain ⟨es, hes, hkepts⟩ := ofOccurrences_keepingAll hname hos hhigh
    exact ⟨e :: es, by rw [ofOccurrences, he, hes]; rfl, ofOccurrences_append hkept hkepts⟩

end

theorem ofOccurrence_restrict (keepName : String → Bool)
    (hname : ∀ r, (g.root? r).isSome → keepName (g.ruleName r) = keep r) {o : Occurrence} {low high : Nat}
    (ho : o.Lies g low high) :
    ofOccurrence g.ruleName input (o.restrict keep) = (ofOccurrence g.ruleName input o).map (restrict keepName) := by
  obtain ⟨r, span, inner⟩ := o
  obtain ⟨-, -, hle, -, hinner⟩ := ho
  rw [Occurrence.restrict, ofOccurrence, ofOccurrence]
  -- What lies inside is in the input if the occurrence itself is.
  by_cases hsize : span.stop ≤ input.size
  · obtain ⟨es, hes, hkept⟩ := ofOccurrences_keepingAll hname hinner hsize
    rw [Span.text?_of_le hle hsize, hes, hkept]
    rfl
  · rw [Span.text?, if_neg fun h => hsize h.2]
    rfl

/-- What is told of a run depends on what it finds. --/
def ofFound (g : Grammar) (input : ByteArray) (start : Nat) :
    Option (Nat × Log) → Except MatchError (Option ElementMatch)
  | none => .ok none
  | some (stop, log) =>
    match (Occurrence.root? log.toList).bind (ofOccurrence g.ruleName input) with
    | some element => .ok (some ⟨element, ⟨start, stop⟩⟩)
    | none => .error .beyondEnd

theorem ofRun_eq (g : Grammar) (input : ByteArray) (start : Nat) (run : Run) :
    ofRun g input start run = ofFound g input start run.found := by
  obtain ⟨stop, trail⟩ := run
  cases stop <;> rfl

theorem parse_eq (g : Grammar) (observed : RuleId → Bool) (rule : String) (input : ByteArray) (start : Nat) :
    (parse g observed rule input start).map Prod.fst =
      (Match.resolve g rule) >>= fun r => (Match.run ⟨g, input, observed⟩ r start).map Run.found >>=
        ofFound g input start := by
  unfold parse
  cases Match.resolve g rule with
  | error e => rfl
  | ok r =>
    rw [ok_bind, ok_bind]
    cases Match.run ⟨g, input, observed⟩ r start with
    | error e => rfl
    | ok run =>
      rw [ok_bind, ofRun_eq]
      show _ = ofFound g input start run.found
      cases ofFound g input start run.found <;> rfl

end

end Element

namespace Match

/-! ### Observed rules -/

/-- Which rules are observed does not show in where a match ends. The log of a match that observes fewer rules is that
    of one that observes more without the pairs of the rules not observed, and its tree is the whole tree with
    each such element below the root replaced by its children. --/
theorem run_observed (g : Grammar) {A B : RuleId → Bool} (hAB : ∀ r, A r = true → B r = true) (input : ByteArray)
    (start : Nat) :
    (∀ r, (run ⟨g, input, A⟩ r start).map Run.found =
      ((run ⟨g, input, B⟩ r start).map Run.found).map (Option.map fun found => (found.1, found.2.keeping A))) ∧
      (g.Distinct → ∀ rule, (Element.parse g A rule input start).map Prod.fst =
        ((Element.parse g (fun _ => true) rule input start).map Prod.fst).map (Option.map fun m =>
          { m with element := m.element.restrict fun name => (g.find? name).any A })) := by
  constructor
  · exact fun r => run_keeping g r input start hAB
  · intro hd rule
    have hname : ∀ r, (g.root? r).isSome → ((g.find? (g.ruleName r)).any A) = A r := by
      intro r hr
      obtain ⟨i, hi⟩ := Option.isSome_iff_exists.mp hr
      obtain ⟨s, hs, -⟩ := Grammar.root?_eq_some_iff.mp hi
      rw [Grammar.ruleName_eq hs, hd.find?_name hs, Option.any_some]
    rw [Element.parse_eq, Element.parse_eq]
    cases resolve g rule with
    | error e => rfl
    | ok r =>
      have h := parallel_run g r input start (A := A) (B := fun _ => true) fun _ _ => rfl
      rw [ok_bind, ok_bind]
      generalize (run ⟨g, input, fun _ => true⟩ r start).map Run.found = x,
        (run ⟨g, input, A⟩ r start).map Run.found = y at h
      cases h with
      | error | noMatch => rfl
      | matched ho =>
        rw [ok_bind, ok_bind, Element.ofFound, Element.ofFound]
        dsimp only
        rw [root?_effects, root?_effects, Option.bind_some, Option.bind_some,
          Element.ofOccurrence_restrict (fun name => (g.find? name).any A) hname ho]
        cases Element.ofOccurrence g.ruleName input _ <;> rfl

/-- The second rule is not observed: the match of the first one that lies in it is told of in its place. --/
theorem run_observed_turns :
    let input : ByteArray := ⟨#[0x41, 0x62, 0x61]⟩
    (∀ r : RuleId, (r == 0) = true → (fun _ => true) r = true) ∧ Grammar.turns.Distinct ∧
      (run ⟨Grammar.turns, input, (· == 0)⟩ 0 0).map Run.found =
        .ok (some (3, #[.enter 0 0, .enter 0 2, .exit 3, .exit 3])) ∧
      ((Element.parse Grammar.turns (· == 0) "s" input 0).map Prod.fst).toOption.map
        (Option.map fun m => m.element.outline 0) = some (some "s\n\ts : 'a'\n") := by
  intro input
  have hAB : ∀ r : RuleId, (r == 0) = true → (fun _ => true) r = true := fun _ _ => rfl
  have hd := Grammar.wellFormed_turns.distinct
  obtain ⟨hrun, htree⟩ := run_observed Grammar.turns hAB input 0
  refine ⟨hAB, hd, (hrun 0).trans ?_, ?_⟩
  · decide +kernel
  · rw [htree hd "s"]
    decide +kernel

end Match
end Abnf
