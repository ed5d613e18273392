import Abnf.Match.Run

/-! Answers: what a match comes to, apart from the trail that it is added to. `answer` describes the nodes of
    a grammar as `evaluate` does, but hands back what each of them logs instead of writing it behind
    what others have logged. The main statement, `shows_evaluate`, says that nothing else happens to the
    log: a match puts its own effects behind those it found, and a failure leaves them as they were. -/

namespace Abnf

/-- What came of a match, and what it logged. --/
inductive Answer where
  | matched (stop : Nat) (log : Log)
  | noMatch
  /-- The match arrived at a rule that has no definition. --/
  | undefined (rule : RuleId)
  deriving DecidableEq, Repr

namespace Answer

/-- The answer with effects in front of those it logged. --/
def after (log : Log) : Answer → Answer
  | matched stop l => matched stop (log ++ l)
  | a => a

@[simp] theorem after_matched (log : Log) (stop : Nat) (l : Log) :
    (matched stop l).after log = matched stop (log ++ l) := rfl

@[simp] theorem after_noMatch (log : Log) : noMatch.after log = noMatch := rfl

@[simp] theorem after_undefined (log : Log) (r : RuleId) : (undefined r).after log = undefined r := rfl

@[simp] theorem after_after (k l : Log) (a : Answer) : (a.after l).after k = a.after (k ++ l) := by
  cases a <;> simp [after]

@[simp] theorem after_empty (a : Answer) : a.after #[] = a := by
  cases a <;> simp [after]

@[simp] theorem map_after_empty (a : Option Answer) : a.map (after #[]) = a := by
  cases a <;> simp

/-- The answer of a node without parts. --/
def leaf : Option Nat → Answer
  | some stop => matched stop #[]
  | none => noMatch

/-- What a rule makes of the answer of its root. --/
def leave (wanted : Bool) (r : RuleId) (pos : Nat) : Answer → Answer
  | matched stop l => matched stop (if wanted then #[.enter r pos] ++ l ++ #[.exit stop] else l)
  | a => a

/-- The end of a repetition after `count` rounds. --/
def settle (min count pos : Nat) : Answer := if count < min then noMatch else matched pos #[]

end Answer

namespace Trail

theorem log_backTo_append {t : Trail} {log l : Log} (h : t.log = log ++ l) : (t.backTo log.size).log = log := by
  simp [backTo, h, Array.extract_append]

theorem since_append {t : Trail} {log l : Log} (h : t.log = log ++ l) : t.since log.size = l := by
  simp [since, h]

end Trail

namespace Match

/-- How the nodes of a grammar answer at a position; none if the fuel ran out. --/
abbrev Answerer := NodeId → Nat → Option Answer

namespace Answerer

/-! ### Nodes made of others -/

/-- Nodes one after the other. --/
def sequence (child : Answerer) : List NodeId → Nat → Option Answer
  | [], pos => some (.matched pos #[])
  | n :: ns, pos =>
    match child n pos with
    | some (.matched stop l) => (sequence child ns stop).map (.after l)
    | r => r

/-- The first alternative that reads something, else the first that matched empty, whose log `empty`
    holds once there is one. --/
def choice (child : Answerer) (admits : NodeId → Bool) (empty : Option Log) : List NodeId → Nat → Option Answer
  | [], pos => some (empty.elim .noMatch (.matched pos))
  | n :: ns, pos =>
    if admits n then
      match child n pos with
      | some (.matched stop l) =>
        if pos < stop then some (.matched stop l) else choice child admits (some (empty.getD l)) ns pos
      | some .noMatch => choice child admits empty ns pos
      | r => r
    else choice child admits empty ns pos

/-- Rounds of a repetition after `count` of them. There are at most `bound` more. --/
def rounds (child : Nat → Option Answer) (min : Nat) (max : Option Nat) : (bound count pos : Nat) → Option Answer
  | 0, _, _ => none
  | bound + 1, count, pos =>
    if max.all (count < ·) then
      match child pos with
      | some (.matched stop l) =>
        if stop = pos then some ((Answer.settle min (Nat.max (count + 1) min) pos).after l)
        else (rounds child min max bound (count + 1) stop).map (.after l)
      | some .noMatch => some (.settle min count pos)
      | r => r
    else some (.settle min count pos)

/-- A rule, logged if `wanted`. --/
def rule (σ : Setting) (child : Answerer) (wanted : Bool) (r : RuleId) (pos : Nat) : Option Answer :=
  match σ.grammar.root? r with
  | none => some (.undefined r)
  | some root => (child root pos).map (.leave wanted r pos)

/-- How a node answers, given how its parts do. --/
def node (σ : Setting) (child : Answerer) (n : Node) (pos : Nat) : Option Answer :=
  match n with
  | .literal bytes ignoreCase => some (.leaf (literal? σ.input bytes ignoreCase pos))
  | .charRange lo hi => some (.leaf (charRange? σ.input lo hi pos))
  | .sequence ns => sequence child ns pos
  | .choice ns => choice child (admits σ pos) none ns pos
  | .repetition n min max =>
    rounds (child n) min.toNat (max.map UInt32.toNat) (σ.input.size - pos + 1) 0 pos
  | .ruleRef r => rule σ child (σ.observed r) r pos
  | .fold n => child n pos

end Answerer

/-- How the nodes of a grammar answer, with no more than `fuel` of them inside one another. --/
def answer (σ : Setting) : (fuel : Nat) → Answerer
  | 0, _, _ => none
  | fuel + 1, i, pos =>
    match σ.grammar.nodes[i]? with
    | some n => Answerer.node σ (answer σ fuel) n pos
    | none => some .noMatch

/-! ### Answers on a trail -/

/-- A result says what an answer says, with its effects behind those of `log`. --/
inductive Shows (log : Log) : Option Answer → Result → Prop where
  | unfinished : Shows log none none
  | matched {stop : Nat} {l : Log} {t : Trail} (h : t.log = log ++ l) :
      Shows log (some (.matched stop l)) (some (.matched stop, t))
  | noMatch {t : Trail} (h : t.log = log) : Shows log (some .noMatch) (some (.noMatch, t))
  | undefined {r : RuleId} {t : Trail} : Shows log (some (.undefined r)) (some (.undefined r, t))

/-- Children show their answers on whatever log they find. --/
def ShowsAll (child : Answerer) (eval : Evaluator) : Prop :=
  ∀ n pos t, Shows t.log (child n pos) (eval n pos t)

theorem shows_leaf (stop : Option Nat) (t : Trail) : Shows t.log (some (Answer.leaf stop)) (leaf stop t) := by
  cases stop with
  | none => exact .noMatch rfl
  | some stop => exact .matched (by simp)

section
variable {child : Answerer} {eval : Evaluator}

/-- Part of a sequence whose earlier nodes logged `l` behind `log`. --/
theorem shows_sequence (h : ShowsAll child eval) (log : Log) : ∀ (ns : List NodeId) (pos : Nat) (l : Log) (t : Trail),
    t.log = log ++ l → Shows log ((child.sequence ns pos).map (.after l)) (sequence eval log.size ns pos t)
  | [], pos, l, t, ht => .matched (by simp [ht])
  | n :: ns, pos, l, t, ht => by
    have hn := h n pos t
    rw [Answerer.sequence, sequence]
    generalize child n pos = a, eval n pos t = r at hn
    cases hn with
    | unfinished => exact .unfinished
    | @matched stop l' u hu =>
      have := shows_sequence h log ns stop (l ++ l') u (by simp [hu, ht])
      simpa [Option.map_map, Function.comp_def] using this
    | noMatch hu => exact .noMatch (Trail.log_backTo_append (hu.trans ht))
    | undefined => exact .undefined

theorem shows_choice (h : ShowsAll child eval) (admits : NodeId → Bool) (log : Log) :
    ∀ (ns : List NodeId) (pos : Nat) (empty : Option Log) (t : Trail), t.log = log →
      Shows log (child.choice admits empty ns pos) (choice eval admits log.size empty ns pos t)
  | [], pos, empty, t, ht => by
    cases empty with
    | none => exact .noMatch ht
    | some l => exact .matched (by simp [Trail.restore, ht])
  | n :: ns, pos, empty, t, ht => by
    have hn := h n pos t
    rw [Answerer.choice, choice]
    split
    · generalize child n pos = a, eval n pos t = r at hn
      cases hn with
      | unfinished => exact .unfinished
      | @matched stop l u hu =>
        rw [ht] at hu
        dsimp only
        split
        · exact .matched hu
        · rw [Trail.since_append hu]
          exact shows_choice h admits log ns pos _ _ (Trail.log_backTo_append hu)
      | noMatch hu => exact shows_choice h admits log ns pos empty _ (hu.trans ht)
      | undefined => exact .undefined
    · exact shows_choice h admits log ns pos empty t ht

theorem shows_settle {log l : Log} {t : Trail} (ht : t.log = log ++ l) (min count pos : Nat) :
    Shows log (some ((Answer.settle min count pos).after l)) (settle min log.size count pos t) := by
  unfold Answer.settle settle
  split
  · exact .noMatch (Trail.log_backTo_append ht)
  · exact .matched (by simp [ht])

/-- Rounds of a repetition whose earlier rounds logged `l` behind `log`. --/
theorem shows_rounds (h : ShowsAll child eval) (n : NodeId) (min : Nat) (max : Option Nat) (log : Log) :
    ∀ (bound count pos : Nat) (l : Log) (t : Trail), t.log = log ++ l →
      Shows log ((Answerer.rounds (child n) min max bound count pos).map (.after l))
        (rounds (eval n) min max log.size bound count pos t)
  | 0, _, _, _, _, _ => .unfinished
  | bound + 1, count, pos, l, t, ht => by
    have hn := h n pos t
    rw [Answerer.rounds, rounds]
    split
    · generalize child n pos = a, eval n pos t = r at hn
      cases hn with
      | unfinished => exact .unfinished
      | @matched stop l' u hu =>
        have hu' : u.log = log ++ (l ++ l') := by simp [hu, ht]
        dsimp only
        split
        · simpa using shows_settle hu' min (Nat.max (count + 1) min) pos
        · have := shows_rounds h n min max log bound (count + 1) stop (l ++ l') u hu'
          simpa [Option.map_map, Function.comp_def] using this
      | noMatch hu => exact shows_settle (hu.trans ht) min count pos
      | undefined => exact .undefined
    · exact shows_settle ht min count pos

theorem shows_rule (h : ShowsAll child eval) (σ : Setting) (wanted : Bool) (r : RuleId) (pos : Nat) (t : Trail) :
    Shows t.log (child.rule σ wanted r pos) (rule σ eval wanted r pos t) := by
  rw [Answerer.rule, rule]
  cases σ.grammar.root? r with
  | none => exact .undefined
  | some root =>
    have hn := h root pos ((t.note (.enter r pos)).recordIf wanted (.enter r pos))
    dsimp only
    generalize child root pos = a, eval root pos ((t.note (.enter r pos)).recordIf wanted (.enter r pos)) = x at hn
    cases hn with
    | unfinished => exact .unfinished
    | matched hu =>
      refine .matched ?_
      cases wanted <;> simp [Trail.note, Trail.recordIf, Trail.record, hu]
    | noMatch hu =>
      refine .noMatch ?_
      have : (t.note (.enter r pos)).log = t.log := rfl
      cases wanted
      · exact Trail.log_backTo_append (l := #[]) (by simpa [Trail.recordIf, this] using hu)
      · exact Trail.log_backTo_append (l := #[.enter r pos]) (by simpa [Trail.recordIf, Trail.record, this] using hu)
    | undefined => exact .undefined

theorem shows_node (h : ShowsAll child eval) (σ : Setting) (n : Node) (pos : Nat) (t : Trail) :
    Shows t.log (child.node σ n pos) (node σ eval n pos t) := by
  cases n with
  | literal bytes ignoreCase => exact shows_leaf _ t
  | charRange lo hi => exact shows_leaf _ t
  | sequence ns =>
    have := shows_sequence h t.log ns pos #[] t (by simp)
    rwa [Answer.map_after_empty] at this
  | choice ns => exact shows_choice h _ t.log ns pos none t rfl
  | repetition n min max =>
    have := shows_rounds h n min.toNat (max.map UInt32.toNat) t.log (σ.input.size - pos + 1) 0 pos #[] t (by simp)
    rwa [Answer.map_after_empty] at this
  | ruleRef r => exact shows_rule h σ _ r pos t
  | fold n => exact h n pos t

end

/-- A match on any trail comes to its answer, with what it logs put behind the log of the trail. --/
theorem shows_evaluate (σ : Setting) : ∀ fuel, ShowsAll (answer σ fuel) (evaluate σ fuel)
  | 0, _, _, _ => .unfinished
  | fuel + 1, i, pos, t => by
    rw [answer, evaluate]
    cases σ.grammar.nodes[i]? with
    | none => exact .noMatch rfl
    | some n => exact shows_node (shows_evaluate σ fuel) σ n pos t

end Match
end Abnf
