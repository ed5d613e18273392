import Abnf.Proofs.Grammar.Pattern
import Abnf.Proofs.Match.Resemblance

/-! Alternatives among alternatives. Two answers make one as two alternatives do (`Answer.orElse`), and an alternative that
    is itself a choice may be opened: its own alternatives come to the same in its place (`yields_opens`). This is why a
    rule whose alternatives are added to one by one matches like one with a choice of all of them. -/

namespace Abnf

namespace Answer

/-- The first of two answers at a position that reads something, else the first that is a match. Nothing more is tried
    once a match has arrived at a rule that has no definition. --/
def orElse (pos : Nat) (a b : Answer) : Answer :=
  match a with
  | .matched stop _ =>
    if pos < stop then a
    else match b with
      | .matched stop' _ => if pos < stop' then b else a
      | .noMatch => a
      | .undefined _ => b
  | .noMatch => b
  | .undefined _ => a

/-- The answer that alternatives fall back on. --/
def held (pos : Nat) (empty : Option Log) : Answer := empty.elim .noMatch (.matched pos)

theorem held_or (pos : Nat) (first empty : Option Log) :
    held pos (first.or empty) = (held pos first).orElse pos (held pos empty) := by
  cases first <;> cases empty <;> simp [held, orElse]

theorem held_orElse_of_lt {pos stop : Nat} (h : pos < stop) (first : Option Log) (l : Log) :
    (held pos first).orElse pos (.matched stop l) = .matched stop l := by
  cases first <;> simp [held, orElse, h]

theorem held_orElse_undefined (pos : Nat) (first : Option Log) (r : RuleId) :
    (held pos first).orElse pos (.undefined r) = .undefined r := by
  cases first <;> simp [held, orElse]

end Answer

namespace Match

/-! ### Alternatives behind alternatives -/

namespace Answerer

variable {child : Answerer} {admits : NodeId → Bool} {pos : Nat}

/-- What comes of alternatives when an alternative before them has come to an answer. --/
def resume (child : Answerer) (admits : NodeId → Bool) (empty : Option Log) (ns : List NodeId) (pos : Nat) :
    Answer → Option Answer
  | .matched stop l =>
    if pos < stop then some (.matched stop l) else child.choice admits (some (empty.getD l)) ns pos
  | .noMatch => child.choice admits empty ns pos
  | .undefined r => some (.undefined r)

theorem choice_cons (empty : Option Log) (n : NodeId) (ns : List NodeId) : child.choice admits empty (n :: ns) pos =
    if admits n then (child n pos).bind (child.resume admits empty ns pos) else child.choice admits empty ns pos := by
  rw [choice]
  split
  · cases child n pos with
    | none => rfl
    | some a => cases a <;> rfl
  · rfl

/-- An empty match from before is what alternatives fall back on. --/
theorem choice_held (first : Option Log) : ∀ (ns : List NodeId) (empty : Option Log),
    child.choice admits (first.or empty) ns pos =
      (child.choice admits empty ns pos).map ((Answer.held pos first).orElse pos)
  | [], empty => congrArg some (Answer.held_or pos first empty)
  | n :: ns, empty => by
    rw [choice_cons, choice_cons]
    split
    · cases child n pos with
      | none => rfl
      | some a =>
        rw [Option.bind_some, Option.bind_some]
        cases a with
        | matched stop l =>
          rw [resume, resume]
          split
          · rw [Option.map_some, Answer.held_orElse_of_lt ‹_›]
          · have hfirst : some ((first.or empty).getD l) = first.or (some (empty.getD l)) := by
              cases first <;> rfl
            rw [hfirst]
            exact choice_held first ns _
        | noMatch => exact choice_held first ns empty
        | undefined r => exact congrArg some (Answer.held_orElse_undefined pos first r).symm
    · exact choice_held first ns empty

theorem resume_held (empty : Option Log) (ns : List NodeId) (l : Log) (a : Answer) :
    child.resume admits empty ns pos ((Answer.matched pos l).orElse pos a) =
      child.resume admits (some (empty.getD l)) ns pos a := by
  cases a with
  | matched stop k =>
    by_cases hlt : pos < stop
    · simp [Answer.orElse, resume, hlt]
    · simp [Answer.orElse, resume, hlt]
  | noMatch => simp [Answer.orElse, resume]
  | undefined r => simp [Answer.orElse, resume]

/-- Alternatives are tried in two parts: first come some of them, then, with the answer of these, the others. --/
theorem choice_append (ms : List NodeId) : ∀ (ns : List NodeId) (empty : Option Log),
    child.choice admits empty (ns ++ ms) pos = (child.choice admits none ns pos).bind (child.resume admits empty ms pos)
  | [], _ => rfl
  | n :: ns, empty => by
    rw [List.cons_append, choice_cons, choice_cons]
    split
    · rw [Option.bind_assoc]
      refine congrArg (Option.bind (child n pos)) (funext fun a => ?_)
      cases a with
      | matched stop l =>
        rw [resume, resume]
        split
        · rename_i hlt
          rw [Option.bind_some, resume, if_pos hlt]
        · -- The empty match is what the others of the first part fall back on, and stays so behind them.
          have hheld : child.choice admits ((some l).or none) ns pos =
              (child.choice admits none ns pos).map ((Answer.held pos (some l)).orElse pos) := choice_held (some l) ns none
          rw [choice_append ms ns, Option.getD_none, show some l = (some l).or none from rfl, hheld, Option.bind_map]
          exact congrArg (Option.bind _) (funext fun b => (resume_held empty ms l b).symm)
      | noMatch => exact choice_append ms ns empty
      | undefined r => rfl
    · exact choice_append ms ns empty

end Answerer

variable {σ : Setting} {pos : Nat}

/-- What may come of alternatives when an alternative before them has come to an answer. --/
inductive Resumes (σ : Setting) (empty : Option Log) (ns : List NodeId) (pos : Nat) : Answer → Answer → Prop where
  | take {stop : Nat} {l : Log} (hlt : pos < stop) : Resumes σ empty ns pos (.matched stop l) (.matched stop l)
  | empty {stop : Nat} {l : Log} {a : Answer} (hlt : ¬pos < stop) (h : Yields σ (.choice ns (some (empty.getD l))) pos a) :
      Resumes σ empty ns pos (.matched stop l) a
  | fail {a : Answer} (h : Yields σ (.choice ns empty) pos a) : Resumes σ empty ns pos .noMatch a
  | stop (r : RuleId) : Resumes σ empty ns pos (.undefined r) (.undefined r)

theorem resumes_of_resume {fuel : Nat} {empty : Option Log} {ns : List NodeId} {a b : Answer}
    (h : (answer σ fuel).resume (admits σ pos) empty ns pos b = some a) : Resumes σ empty ns pos b a := by
  cases b with
  | matched stop l =>
    rw [Answerer.resume] at h
    split at h
    · cases h
      exact .take ‹_›
    · exact .empty ‹_› ((obeys_answer σ fuel).choice h)
  | noMatch => exact .fail ((obeys_answer σ fuel).choice h)
  | undefined r =>
    cases h
    exact .stop r

theorem Resumes.exists_fuel {empty : Option Log} {ns : List NodeId} {a b : Answer} (h : Resumes σ empty ns pos b a) :
    ∃ fuel, ∀ more, (answer σ (fuel + more)).resume (admits σ pos) empty ns pos b = some a := by
  have hrest : ∀ {empty : Option Log}, Yields σ (.choice ns empty) pos a →
      ∃ fuel, ∀ more, (answer σ (fuel + more)).choice (admits σ pos) empty ns pos = some a := fun h => by
    obtain ⟨fuel, hf⟩ := exists_perform h
    exact ⟨fuel, fun more => perform_mono (Nat.le_add_right fuel more) hf⟩
  cases h with
  | take hlt => exact ⟨0, fun _ => if_pos hlt⟩
  | empty hlt h =>
    obtain ⟨fuel, hf⟩ := hrest h
    exact ⟨fuel, fun more => (if_neg hlt).trans (hf more)⟩
  | fail h => exact hrest h
  | stop r => exact ⟨0, fun _ => rfl⟩

/-- Alternatives come to an answer in two parts. --/
theorem yields_choice_append {ns ms : List NodeId} {empty : Option Log} {a : Answer} :
    Yields σ (.choice (ns ++ ms) empty) pos a ↔
      ∃ b, Yields σ (.choice ns none) pos b ∧ Resumes σ empty ms pos b a := by
  constructor
  · intro h
    obtain ⟨fuel, hf⟩ := exists_perform h
    rw [perform, Answerer.choice_append] at hf
    obtain ⟨b, hb, hresume⟩ := Option.bind_eq_some_iff.mp hf
    exact ⟨b, (obeys_answer σ fuel).choice hb, resumes_of_resume hresume⟩
  · rintro ⟨b, hb, hresumes⟩
    obtain ⟨fuel, hf⟩ := exists_perform hb
    obtain ⟨fuel', hf'⟩ := hresumes.exists_fuel
    have hperform : perform σ (fuel' + fuel) (.choice (ns ++ ms) empty) pos = some a := by
      rw [perform, Answerer.choice_append]
      exact Option.bind_eq_some_iff.mpr ⟨b, perform_mono (Nat.le_add_left fuel fuel') hf, hf' fuel⟩
    exact yields_of_perform hperform

/-! ### Opening choices -/

/-- Where an alternative may match, the choice that it belongs to may. --/
def Letting (σ : Setting) : Prop := ∀ pos k cs, σ.grammar.nodes[k]? = some (.choice cs) → ∀ c ∈ cs,
  admits σ pos c = true → admits σ pos k = true

theorem Yields.of_choice {k : NodeId} {cs : List NodeId} {a : Answer} (hk : σ.grammar.nodes[k]? = some (.choice cs))
    (h : Yields σ (.node k) pos a) : Yields σ (.choice cs none) pos a := by
  cases h with
  | choice hk' h =>
    cases hk.symm.trans hk'
    exact h
  | missing hk' | literal hk' | charRange hk' | sequence hk' | repetition hk' | ruleRef hk' | fold hk' =>
    cases hk.symm.trans hk'

theorem yields_choice_skip : ∀ {cs : List NodeId}, (∀ c ∈ cs, admits σ pos c = false) →
    Yields σ (.choice cs none) pos .noMatch
  | [], _ => .choiceNil
  | c :: _, h => .choiceSkip (h c List.mem_cons_self) (yields_choice_skip fun d hd => h d (List.mem_cons_of_mem c hd))

/-- A choice as the only alternative. --/
theorem yields_choice_singleton (hσ : Letting σ) {k : NodeId} {cs : List NodeId} {a : Answer}
    (hk : σ.grammar.nodes[k]? = some (.choice cs)) :
    Yields σ (.choice [k] none) pos a ↔ Yields σ (.choice cs none) pos a := by
  have hskip : admits σ pos k = false → Yields σ (.choice cs none) pos .noMatch := fun hn =>
    yields_choice_skip fun c hc => Bool.eq_false_iff.mpr fun h => Bool.eq_false_iff.mp hn (hσ pos k cs hk c hc h)
  constructor
  · intro h
    cases h with
    | choiceSkip hn hs =>
      cases hs
      exact hskip hn
    | choiceTake _ h _ => exact h.of_choice hk
    | choiceEmpty _ h hlt hs =>
      obtain ⟨hle, -⟩ := h.forward _ _ rfl
      obtain rfl := Nat.le_antisymm (Nat.le_of_not_lt hlt) hle
      cases hs
      exact h.of_choice hk
    | choiceFail _ h hs =>
      cases hs
      exact h.of_choice hk
    | choiceStop _ h => exact h.of_choice hk
  · intro h
    cases hn : admits σ pos k with
    | false =>
      rw [h.unique (hskip hn)]
      exact .choiceSkip hn .choiceNil
    | true =>
      have hnode : Yields σ (.node k) pos a := .choice hk h
      cases a with
      | matched stop l =>
        by_cases hlt : pos < stop
        · exact .choiceTake hn hnode hlt
        · obtain ⟨hle, -⟩ := h.forward _ _ rfl
          obtain rfl := Nat.le_antisymm (Nat.le_of_not_lt hlt) hle
          exact .choiceEmpty hn hnode hlt .choiceNil
      | noMatch => exact .choiceFail hn hnode .choiceNil
      | undefined r => exact .choiceStop hn hnode

end Match

/-- Some of the alternatives are choices and stand open: their own alternatives are in their place. --/
inductive Grammar.Opens (g : Grammar) : List NodeId → List NodeId → Prop where
  | nil : Opens g [] []
  | keep {ns ms : List NodeId} (n : NodeId) (h : Opens g ns ms) : Opens g (n :: ns) (n :: ms)
  | choice {ns ms cs : List NodeId} {k : NodeId} (hk : g.nodes[k]? = some (.choice cs)) (h : Opens g ns ms) :
    Opens g (k :: ns) (cs ++ ms)

theorem Grammar.Opens.grow {g g' : Grammar} (hg : ∀ (i : NodeId) (n : Node), g.nodes[i]? = some n → g'.nodes[i]? = some n)
    {ns ms : List NodeId} (h : g.Opens ns ms) : g'.Opens ns ms := by
  induction h with
  | nil => exact .nil
  | keep n _ ih => exact .keep n ih
  | choice hk _ ih => exact .choice (hg _ _ hk) ih

theorem Grammar.Opens.append {g : Grammar} {ns ms ns' ms' : List NodeId} (h : g.Opens ns ms) (h' : g.Opens ns' ms') :
    g.Opens (ns ++ ns') (ms ++ ms') := by
  induction h with
  | nil => exact h'
  | keep n _ ih => exact .keep n ih
  | choice hk _ ih =>
    rw [List.append_assoc]
    exact .choice hk ih

namespace Match

variable {σ : Setting} {pos : Nat}

theorem Resumes.congr {ns ms : List NodeId} {empty : Option Log} {a b : Answer}
    (h : ∀ empty a, Yields σ (.choice ns empty) pos a → Yields σ (.choice ms empty) pos a)
    (hr : Resumes σ empty ns pos b a) : Resumes σ empty ms pos b a := by
  cases hr with
  | take hlt => exact .take hlt
  | empty hlt hs => exact .empty hlt (h _ _ hs)
  | fail hs => exact .fail (h _ _ hs)
  | stop r => exact .stop r

/-- Alternatives come to the same as those of them that stand open. --/
theorem yields_opens (hσ : Letting σ) {ns ms : List NodeId} (h : σ.grammar.Opens ns ms) : ∀ empty a,
    Yields σ (.choice ns empty) pos a ↔ Yields σ (.choice ms empty) pos a := by
  induction h with
  | nil => exact fun _ _ => .rfl
  | @keep ns ms n _ ih =>
    intro empty a
    rw [← List.singleton_append, ← List.singleton_append (l := ms), yields_choice_append, yields_choice_append]
    refine exists_congr fun b => and_congr_right fun _ => ⟨?_, ?_⟩
    · exact Resumes.congr fun empty a => (ih empty a).mp
    · exact Resumes.congr fun empty a => (ih empty a).mpr
  | @choice ns ms cs k hk _ ih =>
    intro empty a
    rw [← List.singleton_append, yields_choice_append, yields_choice_append]
    refine exists_congr fun b => and_congr (yields_choice_singleton hσ hk) ⟨?_, ?_⟩
    · exact Resumes.congr fun empty a => (ih empty a).mp
    · exact Resumes.congr fun empty a => (ih empty a).mpr

/-- The last alternative comes to its answer, or to what alternatives fall back on. --/
theorem yields_choice_last (hall : ∀ n, admits σ pos n = true) {j : NodeId} {b : Answer} (hj : Yields σ (.node j) pos b)
    (empty : Option Log) : Yields σ (.choice [j] empty) pos ((Answer.held pos empty).orElse pos b) := by
  cases b with
  | matched stop l =>
    by_cases hlt : pos < stop
    · rw [Answer.held_orElse_of_lt hlt]
      exact .choiceTake (hall j) hj hlt
    · obtain ⟨hle, -⟩ := hj.forward _ _ rfl
      obtain rfl := Nat.le_antisymm (Nat.le_of_not_lt hlt) hle
      have hlast : Yields σ (.choice [j] empty) stop (Answer.held stop (some (empty.getD l))) :=
        .choiceEmpty (hall j) hj hlt .choiceNil
      have heq : some (empty.getD l) = empty.or (some l) := by cases empty <;> rfl
      rwa [heq, Answer.held_or] at hlast
  | noMatch =>
    have hlast : Yields σ (.choice [j] empty) pos (Answer.held pos (empty.or none)) := by
      rw [Option.or_none]
      exact .choiceFail (hall j) hj .choiceNil
    rwa [Answer.held_or] at hlast
  | undefined r =>
    rw [Answer.held_orElse_undefined]
    exact .choiceStop (hall j) hj

/-- Two alternatives come to what their answers make together. --/
theorem yields_choice_pair (hall : ∀ n, admits σ pos n = true) {i j : NodeId} {a b : Answer}
    (hi : Yields σ (.node i) pos a) (hj : Yields σ (.node j) pos b) :
    Yields σ (.choice [i, j] none) pos (a.orElse pos b) := by
  have hlast := yields_choice_last hall hj
  cases a with
  | matched stop l =>
    by_cases hlt : pos < stop
    · have htake : (Answer.matched stop l).orElse pos b = .matched stop l := if_pos hlt
      rw [htake]
      exact .choiceTake (hall i) hi hlt
    · obtain ⟨hle, -⟩ := hi.forward _ _ rfl
      obtain rfl := Nat.le_antisymm (Nat.le_of_not_lt hlt) hle
      exact .choiceEmpty (hall i) hi hlt (hlast (some l))
  | noMatch => exact .choiceFail (hall i) hi (hlast none)
  | undefined r => exact .choiceStop (hall i) hi

end Match

/-! ### Adding alternatives to a rule -/

namespace Grammar

/-- A rule that is added to tries what it was and what is added. Its alternatives are put first if it has some. --/
theorem exists_extended (g : Grammar) (root alternative : NodeId) :
    ∃ ns, g.extended root alternative = .choice ns ∧ g.Opens [root, alternative] ns := by
  unfold extended
  split
  · exact ⟨_, rfl, .choice ‹_› (.keep _ .nil)⟩
  · exact ⟨_, rfl, .keep _ (.keep _ .nil)⟩

/-- A defined rule is given a new root, which tries the old one and then what is added. All else stays. --/
structure Extends (g : Grammar) (r : RuleId) (old alternative : NodeId) (g' : Grammar) (root : NodeId) : Prop where
  defined : g'.root? r = some root
  others : ∀ q, q ≠ r → g'.root? q = g.root? q
  names : g'.slots.map Slot.name = g.slots.map Slot.name
  nodes : ∀ (i : NodeId) (n : Node), g.nodes[i]? = some n → g'.nodes[i]? = some n
  firstSets : g'.firstSets = none
  choice : ∃ ns, g'.nodes[root]? = some (.choice ns) ∧ g'.Opens [old, alternative] ns

section
variable {g : Grammar} {name : String} {r : RuleId} {old : NodeId} (alternative : NodeId)

theorem extend_eq_setRoot (hr : g.find? name = some r) (hold : g.root? r = some old) : g.extend name alternative =
    .ok (r, (g.addNode (g.extended old alternative)).2.setRoot r g.nodes.size) := by
  rw [extend, hr]
  dsimp only
  rw [hold]
  exact rfl

theorem extend_of_root (hr : g.find? name = some r) (hold : g.root? r = some old) :
    ∃ g', g.extend name alternative = .ok (r, g') ∧ g.Extends r old alternative g' g.nodes.size := by
  obtain ⟨ns, hns, hopens⟩ := exists_extended g old alternative
  let g' := (g.addNode (g.extended old alternative)).2.setRoot r g.nodes.size
  have hnodes : ∀ (i : NodeId) (n : Node), g.nodes[i]? = some n → g'.nodes[i]? = some n := (grows_addNode g _).nodes
  refine ⟨g', extend_eq_setRoot alternative hr hold,
    ⟨?_, fun q hq => ?_, names_setRoot _ r _, hnodes, rfl, ns, ?_, hopens.grow hnodes⟩⟩
  · rw [root?_setRoot]
    exact if_pos ⟨rfl, lt_size_of_find? hr⟩
  · rw [root?_setRoot]
    exact if_neg fun h => hq h.1.symm
  · rw [← hns]
    exact getElem?_addNode_self g _

theorem extend_of_none (hr : ∀ r, g.find? name = some r → g.root? r = none) :
    g.extend name alternative = .error (.unknown name) := by
  rw [extend]
  cases hfind : g.find? name with
  | none => rfl
  | some r =>
    dsimp only
    rw [hr r hfind]

end
end Grammar

namespace Match

theorem letting_of_none {σ : Setting} (h : σ.grammar.firstSets = none) : Letting σ := fun pos k _ _ _ _ _ => by
  rw [admits, h]

/-- The new root of a rule comes to what its old root and what was added make together. --/
theorem yields_extend {g g' : Grammar} {r : RuleId} {old alternative root : NodeId}
    (h : g.Extends r old alternative g' root) {input : ByteArray} {observed : RuleId → Bool} {pos : Nat} {a b : Answer}
    (ha : Yields ⟨g', input, observed⟩ (.node old) pos a) (hb : Yields ⟨g', input, observed⟩ (.node alternative) pos b) :
    Yields ⟨g', input, observed⟩ (.node root) pos (a.orElse pos b) := by
  obtain ⟨ns, hns, hopens⟩ := h.choice
  have hall : ∀ n, admits ⟨g', input, observed⟩ pos n = true := fun n => by rw [admits, h.firstSets]
  exact .choice hns ((yields_opens (letting_of_none h.firstSets) hopens none _).mp (yields_choice_pair hall ha hb))

/-! ### Answers and results -/

theorem Shows.unique {log : Log} {a b : Answer} {r : Result} (ha : Shows log (some a) r) (hb : Shows log (some b) r) :
    a = b := by
  cases ha with
  | matched ha =>
    cases hb with
    | matched hb => rw [(Array.append_right_inj log).mp (ha.symm.trans hb)]
  | noMatch =>
    cases hb
    rfl
  | undefined =>
    cases hb
    rfl

/-- The answers of a node are what its evaluation shows with enough fuel. --/
theorem yields_node_iff {σ : Setting} {i : NodeId} {pos : Nat} {a : Answer} (t : Trail) :
    Yields σ (.node i) pos a ↔ ∃ fuel, Shows t.log (some a) (evaluate σ fuel i pos t) := by
  constructor
  · intro h
    obtain ⟨fuel, hf⟩ := exists_perform h
    have hshows := shows_evaluate σ fuel i pos t
    rw [show answer σ fuel i pos = some a from hf] at hshows
    exact ⟨fuel, hshows⟩
  · rintro ⟨fuel, hf⟩
    have hshows := shows_evaluate σ fuel i pos t
    cases hanswer : answer σ fuel i pos with
    | none =>
      rw [hanswer] at hshows
      generalize evaluate σ fuel i pos t = x at hf hshows
      cases hshows
      cases hf
    | some b =>
      rw [hanswer] at hshows
      exact hf.unique hshows ▸ obeys_answer σ fuel i pos b hanswer

end Match
end Abnf
