import Abnf.Match.Trace
import Abnf.Proofs.Match.Frame
import Abnf.Proofs.Match.Fuel

/-! Traces are well nested and tell of a match as it was. Every rule that is entered is left or given up before the rule
    around it, so the events of a match that comes to an end close all that they open (`Trace.Balanced`), whatever became of
    the attempts in between. From this alone it follows that each line stands two blanks further in for every rule that is
    open around it, and that it has just one line that it belongs with (`Trace.nested_of_opened`). What stands
    in the lines is told character by character (`Trace.spelled`). Evaluations that observe different rules are
    followed side by side (`tells_evaluate`): both traces get the same events, and what is logged is made of these
    events in their order, although a choice logs what it took back before. -/

namespace Abnf

/-- The event ends an attempt of a rule from a position on. --/
inductive Event.Closes (r : RuleId) (start : Nat) : Event → Prop where
  | exit (stop : Nat) : Closes r start (.exit r start stop)
  | fail : Closes r start (.fail r start)

/-- What is logged of an event if its rule is logged. --/
def Event.effect? : Event → Option Effect
  | enter r start => some (.enter r start)
  | exit _ _ stop => some (.exit stop)
  | fail .. => none

namespace Trace

/-! ### Open rules -/

/-- The rules that are open behind an event, the innermost first, each with the position where it began. An event that
    closes a rule has to close the innermost one. --/
def after (rules : List (RuleId × Nat)) : Event → Option (List (RuleId × Nat))
  | .enter r start => some ((r, start) :: rules)
  | .exit r start _ | .fail r start => if rules.head? = some (r, start) then some rules.tail else none

/-- The rules that are open behind events. --/
def opened (rules : List (RuleId × Nat)) (es : List Event) : Option (List (RuleId × Nat)) := es.foldlM after rules

section
variable {rules rules' inner inner' outer : List (RuleId × Nat)} {r : RuleId} {start : Nat} {e c : Event}
  {es fs : List Event}

theorem after_close (hc : c.Closes r start) : after ((r, start) :: rules) c = some rules := by
  cases hc <;> exact if_pos rfl

/-- What closes a rule closes the innermost one. --/
theorem eq_of_after_close (hc : c.Closes r start) (h : after rules c = some rules') : rules = (r, start) :: rules' := by
  have hhead : rules.head? = some (r, start) ∧ rules.tail = rules' := by
    cases hc <;> simpa [after] using h
  obtain ⟨tail, rfl⟩ := List.head?_eq_some_iff.mp hhead.1
  rw [← hhead.2, List.tail_cons]

theorem opened_cons : opened rules (e :: es) = (after rules e).bind (opened · es) := rfl

theorem opened_append : opened rules (es ++ fs) = (opened rules es).bind (opened · fs) := List.foldlM_append

theorem opened_enter : opened rules (.enter r start :: es) = opened ((r, start) :: rules) es := rfl

/-- An event enters a rule, or it closes one. --/
theorem enters_or_closes (e : Event) : ∃ r start, e = .enter r start ∨ e.Closes r start := by
  cases e with
  | enter r start => exact ⟨r, start, .inl rfl⟩
  | exit r start stop => exact ⟨r, start, .inr (.exit stop)⟩
  | fail r start => exact ⟨r, start, .inr .fail⟩

/-- Rules further out than those that are closed stay open. --/
theorem opened_outer (outer : List (RuleId × Nat)) : ∀ {es : List Event} {inner inner' : List (RuleId × Nat)},
    opened inner es = some inner' → opened (inner ++ outer) es = some (inner' ++ outer)
  | [], _, _, h => by
    cases h
    rfl
  | e :: es, inner, inner', h => by
    rw [opened_cons] at h ⊢
    obtain ⟨between, hafter, h⟩ := Option.bind_eq_some_iff.mp h
    refine Option.bind_eq_some_iff.mpr ⟨between ++ outer, ?_, opened_outer outer h⟩
    obtain ⟨r, start, rfl | hc⟩ := enters_or_closes e
    · cases hafter
      rfl
    · rw [eq_of_after_close hc hafter]
      exact after_close hc

/-- Events that close all that they open, and nothing else. --/
def Balanced (es : List Event) : Prop := ∀ rules, opened rules es = some rules

theorem balanced_nil : Balanced [] := fun _ => rfl

theorem Balanced.append (hes : Balanced es) (hfs : Balanced fs) : Balanced (es ++ fs) := fun rules => by
  rw [opened_append, hes rules, Option.bind_some, hfs rules]

/-- An attempt of a rule, with all that happens in it. --/
theorem Balanced.wrap (hes : Balanced es) (hc : c.Closes r start) : Balanced (.enter r start :: (es ++ [c])) :=
  fun rules => by
    rw [opened_enter, opened_append, hes, Option.bind_some, opened_cons, after_close hc]
    rfl

/-! ### Where a rule is closed -/

/-- A rule that is not open in the end is closed by one of the events, in front of which all that was entered in it is
    closed. --/
theorem exists_close {o : RuleId × Nat} : ∀ {es : List Event} (inner : List (RuleId × Nat))
    {rules : List (RuleId × Nat)}, opened (inner ++ o :: outer) es = some rules → rules.length ≤ outer.length →
      ∃ n c, es[n]? = some c ∧ c.Closes o.1 o.2 ∧ opened inner (es.take n) = some []
  | [], inner, rules, h, hlen => by
    cases h
    simp only [List.length_append, List.length_cons] at hlen
    omega
  | e :: es, inner, rules, h, hlen => by
    rw [opened_cons] at h
    obtain ⟨between, hafter, h⟩ := Option.bind_eq_some_iff.mp h
    obtain ⟨r, start, rfl | hc⟩ := enters_or_closes e
    · cases hafter
      obtain ⟨n, c, hn, hc, hinner⟩ := exists_close ((r, start) :: inner) h hlen
      exact ⟨n + 1, c, hn, hc, hinner⟩
    · have hopen := eq_of_after_close hc hafter
      cases inner with
      | nil =>
        cases hopen
        exact ⟨0, e, rfl, hc, rfl⟩
      | cons i inner =>
        obtain ⟨rfl, rfl⟩ := List.cons.inj hopen
        obtain ⟨n, c, hn, hclose, hinner⟩ := exists_close inner h hlen
        refine ⟨n + 1, c, hn, hclose, ?_⟩
        rw [List.take_succ_cons, opened_cons, after_close hc]
        exact hinner

/-- There is no more than one such event, as no rule is left open that another one could close. --/
theorem close_unique {m n : Nat} {r' : RuleId} {start' : Nat} {c' : Event} (hm : es[m]? = some c)
    (hc : c.Closes r start) (hcm : opened [] (es.take m) = some []) (hn : es[n]? = some c') (hc' : c'.Closes r' start')
    (hcn : opened [] (es.take n) = some []) : m = n := by
  have hlt : ∀ {m n : Nat} {r : RuleId} {start : Nat} {c : Event}, es[m]? = some c → c.Closes r start →
      opened [] (es.take m) = some [] → opened [] (es.take n) = some [] → ¬m < n := by
    intro m n r start c hm hc hcm hcn hmn
    obtain ⟨k, rfl⟩ := Nat.exists_eq_add_of_lt hmn
    have hdrop : es.drop m = c :: es.drop (m + 1) := (List.drop_eq_getElem?_toList_append).trans (by rw [hm]; rfl)
    rw [Nat.add_assoc, List.take_add, opened_append, hcm, Option.bind_some, hdrop, List.take_succ_cons, opened_cons] at hcn
    obtain ⟨between, hafter, -⟩ := Option.bind_eq_some_iff.mp hcn
    cases eq_of_after_close hc hafter
  rcases Nat.lt_trichotomy m n with h | h | h
  · exact absurd h (hlt hm hc hcm hcn)
  · exact h
  · exact absurd h (hlt hn hc' hcn hcm)

/-! ### Lines -/

variable (name : RuleId → String)

/-- What is written of an event: a sign, the name of its rule, and where it begins or, if it matched, from where to where it
    goes. --/
def spelled : Event → List Char
  | .enter r start => ['>', ' '] ++ (name r).toList ++ [' ', '@'] ++ Nat.toDigits 10 start
  | .exit r start stop =>
    ['<', ' '] ++ (name r).toList ++ [' '] ++ Nat.toDigits 10 start ++ ['.', '.'] ++ Nat.toDigits 10 stop
  | .fail r start => ['x', ' '] ++ (name r).toList ++ [' ', '@'] ++ Nat.toDigits 10 start

theorem toList_label (e : Event) : (label name e).toList = spelled name e := by
  cases e <;> simp [label, spelled, toString]

theorem toList_indent (depth : Nat) (line : String) :
    (indent depth line).toList = List.replicate (2 * depth) ' ' ++ line.toList := by
  rw [indent, String.toList_append, String.toList_ofList]

theorem linesFrom_enter (depth : Nat) (r : RuleId) (start : Nat) (es : List Event) :
    linesFrom name depth (.enter r start :: es) =
      indent depth (label name (.enter r start)) :: linesFrom name (depth + 1) es := rfl

theorem linesFrom_close (hc : c.Closes r start) (depth : Nat) (es : List Event) :
    linesFrom name (depth + 1) (c :: es) = indent depth (label name c) :: linesFrom name depth es := by
  cases hc <;> rfl

theorem length_linesFrom : ∀ (es : List Event) (depth : Nat), (linesFrom name depth es).length = es.length
  | [], _ => rfl
  | e :: es, depth => by
    cases e <;> exact congrArg (· + 1) (length_linesFrom es _)

/-- Lines stand as deep as there are rules open in front of them. --/
theorem linesFrom_append : ∀ {es : List Event} {rules rules' : List (RuleId × Nat)}, opened rules es = some rules' →
    ∀ more, linesFrom name rules.length (es ++ more) =
      linesFrom name rules.length es ++ linesFrom name rules'.length more
  | [], _, _, h, _ => by
    cases h
    rfl
  | e :: es, rules, rules', h, more => by
    rw [opened_cons] at h
    obtain ⟨between, hafter, h⟩ := Option.bind_eq_some_iff.mp h
    have hrest := linesFrom_append h more
    obtain ⟨r, start, rfl | hc⟩ := enters_or_closes e
    · cases hafter
      exact congrArg (_ :: ·) hrest
    · rw [eq_of_after_close hc hafter, List.length_cons, List.cons_append, linesFrom_close name hc,
        linesFrom_close name hc, hrest, List.cons_append]

/-- The line of an event. --/
theorem getElem?_lines (h : opened [] es = some rules) (e : Event) (fs : List Event) :
    (lines name (es ++ e :: fs))[es.length]? = (linesFrom name rules.length (e :: fs)).head? := by
  have hlines : lines name (es ++ e :: fs) = lines name es ++ linesFrom name rules.length (e :: fs) :=
    linesFrom_append name h (e :: fs)
  have hlength : (lines name es).length = es.length := length_linesFrom name es 0
  rw [hlines, ← hlength, List.getElem?_append_right (Nat.le_refl _), Nat.sub_self, List.head?_eq_getElem?]

theorem getElem?_lines_enter (h : opened [] es = some rules) (r : RuleId) (start : Nat) (fs : List Event) :
    (lines name (es ++ .enter r start :: fs))[es.length]?.map String.toList =
      some (List.replicate (2 * rules.length) ' ' ++ spelled name (.enter r start)) := by
  rw [getElem?_lines name h, linesFrom_enter, List.head?_cons, Option.map_some, toList_indent, toList_label]

theorem getElem?_lines_close (h : opened [] es = some ((r, start) :: rules)) (hc : c.Closes r start) (fs : List Event) :
    (lines name (es ++ c :: fs))[es.length]?.map String.toList =
      some (List.replicate (2 * rules.length) ' ' ++ spelled name c) := by
  rw [getElem?_lines name h, List.length_cons, linesFrom_close name hc, List.head?_cons, Option.map_some, toList_indent,
    toList_label]

end

/-- Events whose lines are well nested. --/
structure Nested (name : RuleId → String) (es : List Event) : Prop where
  /-- Every event has a line, and there are no others. --/
  length : (lines name es).length = es.length
  /-- The line of a rule that is entered stands two blanks further in for every rule that is open around it. Just one line
      belongs with it: it leaves or gives up the same rule from the same position on, stands as deep, and all that
      is entered between the two is closed between them. --/
  entered : ∀ before r start rest, es = before ++ .enter r start :: rest → ∃ rules, opened [] before = some rules ∧
    (lines name es)[before.length]?.map String.toList =
      some (List.replicate (2 * rules.length) ' ' ++ spelled name (.enter r start)) ∧
    ∃! n, ∃ c, rest[n]? = some c ∧ c.Closes r start ∧ opened [] (rest.take n) = some [] ∧
      (lines name es)[before.length + (n + 1)]?.map String.toList =
        some (List.replicate (2 * rules.length) ' ' ++ spelled name c)
  /-- The line of a rule that is closed stands two blanks further in for every rule that is open behind it. The rule is open
      in front of it, so there is a rule less, and the depth is not zero when it goes down. --/
  closed : ∀ before c rest r start, es = before ++ c :: rest → c.Closes r start → ∃ rules,
    opened [] before = some ((r, start) :: rules) ∧
    (lines name es)[before.length]?.map String.toList =
      some (List.replicate (2 * rules.length) ' ' ++ spelled name c)
  /-- The depth is in the end what it was in the beginning, so that more lines would not be moved. --/
  level : ∀ more, lines name (es ++ more) = lines name es ++ lines name more

/-- Events that leave no rule open have well-nested lines. --/
theorem nested_of_opened (name : RuleId → String) {es : List Event} (h : opened [] es = some []) : Nested name es where
  length := length_linesFrom name es 0
  entered := by
    rintro before r start rest rfl
    rw [opened_append] at h
    obtain ⟨rules, hbefore, hrest⟩ := Option.bind_eq_some_iff.mp h
    rw [opened_enter] at hrest
    refine ⟨rules, hbefore, getElem?_lines_enter name hbefore r start rest, ?_⟩
    obtain ⟨n, c, hn, hc, hinner⟩ := exists_close [] hrest (Nat.zero_le _)
    refine ⟨n, ⟨c, hn, hc, hinner, ?_⟩, fun m ⟨d, hm, hd, hinner', _⟩ => close_unique hm hd hinner' hn hc hinner⟩
    -- In front of the line that closes the rule just this rule is open besides those around it.
    have hfront : opened [] (before ++ .enter r start :: rest.take n) = some ((r, start) :: rules) := by
      rw [opened_append, hbefore, Option.bind_some, opened_enter]
      exact opened_outer ((r, start) :: rules) hinner
    have hsplit : before ++ .enter r start :: rest =
        (before ++ .enter r start :: rest.take n) ++ c :: rest.drop (n + 1) := by
      have hdrop : rest.drop n = c :: rest.drop (n + 1) := List.drop_eq_getElem?_toList_append.trans (by rw [hn]; rfl)
      rw [List.append_assoc, List.cons_append, ← hdrop, List.take_append_drop]
    have hlength : (before ++ .enter r start :: rest.take n).length = before.length + (n + 1) := by
      have hlt := (List.getElem?_eq_some_iff.mp hn).1
      rw [List.length_append, List.length_cons, List.length_take, Nat.min_eq_left (Nat.le_of_lt hlt)]
    rw [hsplit, ← hlength]
    exact getElem?_lines_close name hfront hc _
  closed := by
    rintro before c rest r start rfl hc
    rw [opened_append] at h
    obtain ⟨rules, hbefore, hrest⟩ := Option.bind_eq_some_iff.mp h
    obtain ⟨outer, hafter, -⟩ := Option.bind_eq_some_iff.mp hrest
    rw [eq_of_after_close hc hafter] at hbefore
    exact ⟨outer, hbefore, getElem?_lines_close name hbefore hc rest⟩
  level := linesFrom_append name h

end Trace

/-! ### What a match traces -/

namespace Trail

/-- A trail goes on where another one stopped, with these events in its trace. --/
def Adds (t : Trail) (es : List Event) (u : Trail) : Prop := u.trace.toList = t.trace.toList ++ es

section
variable {t u v : Trail} {es fs : List Event}

theorem Adds.refl (t : Trail) : t.Adds [] t := (List.append_nil _).symm

theorem Adds.trans (h : t.Adds es u) (h' : u.Adds fs v) : t.Adds (es ++ fs) v := by
  rw [Adds, h', h, List.append_assoc]

theorem Adds.backTo (h : t.Adds es u) (mark : Nat) : t.Adds es (u.backTo mark) := h

theorem Adds.restore (h : t.Adds es u) (effects : Log) : t.Adds es (u.restore effects) := h

theorem Adds.recordIf (h : t.Adds es u) (wanted : Bool) (e : Effect) : t.Adds es (u.recordIf wanted e) := by
  cases wanted <;> exact h

theorem adds_note (e : Event) (t : Trail) : t.Adds [e] (t.note e) := Array.toList_push

end
end Trail

namespace Match

open Trace (Balanced balanced_nil)

/-- An answer, and two results of evaluations that observe different rules, each with its own trail. Both traces get the
    same events, which close all that they open, and the log of the answer is made of them. --/
inductive Tells (t t' : Trail) : Option Answer → Result → Result → Prop where
  | unfinished : Tells t t' none none none
  | matched {stop : Nat} {l : Log} {u u' : Trail} (es : List Event) (hes : Balanced es)
      (hl : l.toList.Sublist (es.filterMap Event.effect?)) (hu : t.Adds es u) (hu' : t'.Adds es u') :
      Tells t t' (some (.matched stop l)) (some (.matched stop, u)) (some (.matched stop, u'))
  | noMatch {u u' : Trail} (es : List Event) (hes : Balanced es) (hu : t.Adds es u) (hu' : t'.Adds es u') :
      Tells t t' (some .noMatch) (some (.noMatch, u)) (some (.noMatch, u'))
  | undefined {r : RuleId} {u u' : Trail} : Tells t t' (some (.undefined r)) (some (.undefined r, u)) (some (.undefined r, u'))

def TellsAll (child : Answerer) (eval eval' : Evaluator) : Prop :=
  ∀ n pos t t', Tells t t' (child n pos) (eval n pos t) (eval' n pos t')

section
variable {t t' u u' : Trail} {child : Answerer} {eval eval' : Evaluator}

/-- What is told behind other events, of which a log is made. --/
theorem Tells.after {es : List Event} {l : Log} {a : Option Answer} {x x' : Result} (hes : Balanced es)
    (hl : l.toList.Sublist (es.filterMap Event.effect?)) (hu : t.Adds es u) (hu' : t'.Adds es u')
    (h : Tells u u' a x x') : Tells t t' (a.map (.after l)) x x' := by
  cases h with
  | unfinished => exact .unfinished
  | @matched stop k v v' fs hfs hk hv hv' =>
    refine .matched (es ++ fs) (hes.append hfs) ?_ (hu.trans hv) (hu'.trans hv')
    rw [Array.toList_append, List.filterMap_append]
    exact hl.append hk
  | noMatch fs hfs hv hv' => exact .noMatch (es ++ fs) (hes.append hfs) (hu.trans hv) (hu'.trans hv')
  | undefined => exact .undefined

/-- What is told behind other events, of which nothing is logged. --/
theorem Tells.behind {es : List Event} {a : Option Answer} {x x' : Result} (hes : Balanced es) (hu : t.Adds es u)
    (hu' : t'.Adds es u') (h : Tells u u' a x x') : Tells t t' a x x' := by
  have hafter := h.after (l := #[]) hes (List.nil_sublist _) hu hu'
  rwa [Answer.map_after_empty] at hafter

theorem tells_leaf (stop : Option Nat) (t t' : Trail) :
    Tells t t' (some (.leaf stop)) (leaf stop t) (leaf stop t') := by
  cases stop with
  | none => exact .noMatch [] balanced_nil (.refl t) (.refl t')
  | some stop => exact .matched [] balanced_nil (List.Sublist.refl _) (.refl t) (.refl t')

theorem tells_sequence (h : TellsAll child eval eval') (mark mark' : Nat) : ∀ (ns : List NodeId) (pos : Nat)
    (t t' : Trail), Tells t t' (child.sequence ns pos) (sequence eval mark ns pos t) (sequence eval' mark' ns pos t')
  | [], _, t, t' => .matched [] balanced_nil (List.Sublist.refl _) (.refl t) (.refl t')
  | n :: ns, pos, t, t' => by
    have hn := h n pos t t'
    rw [Answerer.sequence, sequence, sequence]
    generalize child n pos = a, eval n pos t = x, eval' n pos t' = x' at hn
    cases hn with
    | unfinished => exact .unfinished
    | matched es hes hl hu hu' => exact (tells_sequence h mark mark' ns _ _ _).after hes hl hu hu'
    | noMatch es hes hu hu' => exact .noMatch es hes (hu.backTo mark) (hu'.backTo mark')
    | undefined => exact .undefined

/-- Alternatives behind others, which matched empty or not at all. What the first of them logged that matched empty is made of
    the events so far, so it can be logged behind those of the alternatives that follow. --/
theorem tells_choice (h : TellsAll child eval eval') (admits : NodeId → Bool) (mark mark' : Nat) {t₀ t₀' : Trail} :
    ∀ (ns : List NodeId) (pos : Nat) (l empty empty' : Option Log) (es : List Event) (t t' : Trail), Balanced es →
      t₀.Adds es t → t₀'.Adds es t' → (∀ k ∈ l, k.toList.Sublist (es.filterMap Event.effect?)) →
      empty.isSome = l.isSome → empty'.isSome = l.isSome →
      Tells t₀ t₀' (child.choice admits l ns pos) (choice eval admits mark empty ns pos t)
        (choice eval' admits mark' empty' ns pos t')
  | [], pos, some l, some k, some k', es, t, t', hes, ht, ht', hl, _, _ =>
    .matched es hes (hl l rfl) (ht.restore k) (ht'.restore k')
  | [], pos, none, none, none, es, t, t', hes, ht, ht', _, _, _ => .noMatch es hes ht ht'
  | n :: ns, pos, l, empty, empty', es, t, t', hes, ht, ht', hl, hempty, hempty' => by
    have hn := h n pos t t'
    rw [Answerer.choice, choice, choice]
    split
    · generalize child n pos = a, eval n pos t = x, eval' n pos t' = x' at hn
      cases hn with
      | unfinished => exact .unfinished
      | @matched stop k u u' fs hfs hk hu hu' =>
        have hlater : ∀ {k : Log}, k.toList.Sublist (fs.filterMap Event.effect?) →
            k.toList.Sublist ((es ++ fs).filterMap Event.effect?) := fun hk => by
          rw [List.filterMap_append]
          exact hk.trans (List.sublist_append_right _ _)
        dsimp only
        split
        · exact .matched (es ++ fs) (hes.append hfs) (hlater hk) (ht.trans hu) (ht'.trans hu')
        · refine tells_choice h admits mark mark' ns pos _ _ _ (es ++ fs) _ _ (hes.append hfs)
            ((ht.trans hu).backTo mark) ((ht'.trans hu').backTo mark') ?_ rfl rfl
          rintro _ ⟨⟩
          cases l with
          | none => exact hlater hk
          | some l =>
            rw [List.filterMap_append]
            exact (hl l rfl).trans (List.sublist_append_left _ _)
      | noMatch fs hfs hu hu' =>
        refine tells_choice h admits mark mark' ns pos l empty empty' (es ++ fs) _ _ (hes.append hfs) (ht.trans hu)
          (ht'.trans hu') (fun k hk => ?_) hempty hempty'
        rw [List.filterMap_append]
        exact (hl k hk).trans (List.sublist_append_left _ _)
      | undefined => exact .undefined
    · exact tells_choice h admits mark mark' ns pos l empty empty' es t t' hes ht ht' hl hempty hempty'

theorem tells_settle (min mark mark' count pos : Nat) (t t' : Trail) :
    Tells t t' (some (Answer.settle min count pos)) (settle min mark count pos t) (settle min mark' count pos t') := by
  unfold Answer.settle settle
  split
  · exact .noMatch [] balanced_nil ((Trail.Adds.refl t).backTo mark) ((Trail.Adds.refl t').backTo mark')
  · exact .matched [] balanced_nil (List.Sublist.refl _) (.refl t) (.refl t')

theorem tells_rounds (h : TellsAll child eval eval') (n : NodeId) (min : Nat) (max : Option Nat) (mark mark' : Nat) :
    ∀ (bound count pos : Nat) (t t' : Trail), Tells t t' (Answerer.rounds (child n) min max bound count pos)
      (rounds (eval n) min max mark bound count pos t) (rounds (eval' n) min max mark' bound count pos t')
  | 0, _, _, _, _ => .unfinished
  | bound + 1, count, pos, t, t' => by
    have hn := h n pos t t'
    rw [Answerer.rounds, rounds, rounds]
    split
    · generalize child n pos = a, eval n pos t = x, eval' n pos t' = x' at hn
      cases hn with
      | unfinished => exact .unfinished
      | @matched stop k u u' es hes hk hu hu' =>
        dsimp only
        split
        · exact (tells_settle min mark mark' _ pos u u').after hes hk hu hu'
        · exact (tells_rounds h n min max mark mark' bound (count + 1) stop u u').after hes hk hu hu'
      | noMatch es hes hu hu' => exact (tells_settle min mark mark' count pos _ _).behind hes hu hu'
      | undefined => exact .undefined
    · exact tells_settle min mark mark' count pos t t'

theorem tells_rule (h : TellsAll child eval eval') {g : Grammar} {σ₀ σ σ' : Setting} (hσ₀ : σ₀.grammar = g)
    (hσ : σ.grammar = g) (hσ' : σ'.grammar = g) (wanted₀ wanted wanted' : Bool) (r : RuleId) (pos : Nat) (t t' : Trail) :
    Tells t t' (child.rule σ₀ wanted₀ r pos) (rule σ eval wanted r pos t) (rule σ' eval' wanted' r pos t') := by
  rw [Answerer.rule, rule, rule, hσ₀, hσ, hσ']
  cases g.root? r with
  | none => exact .undefined
  | some root =>
    have hn := h root pos ((t.note (.enter r pos)).recordIf wanted (.enter r pos))
      ((t'.note (.enter r pos)).recordIf wanted' (.enter r pos))
    have ht := (Trail.adds_note (.enter r pos) t).recordIf wanted (.enter r pos)
    have ht' := (Trail.adds_note (.enter r pos) t').recordIf wanted' (.enter r pos)
    dsimp only
    generalize child root pos = a, eval root pos _ = x, eval' root pos _ = x' at hn
    cases hn with
    | unfinished => exact .unfinished
    | @matched stop l u u' es hes hl hu hu' =>
      refine .matched (.enter r pos :: (es ++ [.exit r pos stop])) (hes.wrap (.exit stop)) ?_ ?_ ?_
      · have hall : (.enter r pos :: (l.toList ++ [.exit stop])).Sublist
            ((Event.enter r pos :: (es ++ [.exit r pos stop])).filterMap Event.effect?) := by
          simp only [List.filterMap_cons, List.filterMap_append, List.filterMap_nil, Event.effect?]
          exact (hl.append_right _).cons_cons _
        cases wanted₀ with
        | true => simpa using hall
        | false => exact ((List.sublist_append_left _ _).cons _).trans hall
      · exact ht.trans ((hu.recordIf wanted (.exit stop)).trans (Trail.adds_note _ _))
      · exact ht'.trans ((hu'.recordIf wanted' (.exit stop)).trans (Trail.adds_note _ _))
    | noMatch es hes hu hu' =>
      refine .noMatch (.enter r pos :: (es ++ [.fail r pos])) (hes.wrap .fail) ?_ ?_
      · exact ht.trans ((hu.backTo t.mark).trans (Trail.adds_note _ _))
      · exact ht'.trans ((hu'.backTo t'.mark).trans (Trail.adds_note _ _))
    | undefined => exact .undefined

section
variable (g : Grammar) (input : ByteArray) (observed₀ observed observed' : RuleId → Bool)

theorem tells_node (h : TellsAll child eval eval') (n : Node) (pos : Nat) (t t' : Trail) :
    Tells t t' (child.node ⟨g, input, observed₀⟩ n pos) (node ⟨g, input, observed⟩ eval n pos t)
      (node ⟨g, input, observed'⟩ eval' n pos t') := by
  cases n with
  | literal bytes ignoreCase => exact tells_leaf _ t t'
  | charRange lo hi => exact tells_leaf _ t t'
  | sequence ns => exact tells_sequence h t.mark t'.mark ns pos t t'
  | choice ns =>
    exact tells_choice h _ t.mark t'.mark ns pos none none none [] t t' balanced_nil (.refl t) (.refl t') nofun rfl rfl
  | repetition n min max => exact tells_rounds h n _ _ t.mark t'.mark _ 0 pos t t'
  | ruleRef r => exact tells_rule h rfl rfl rfl _ _ _ r pos t t'
  | fold n => exact h n pos t t'

/-- Evaluations with the same fuel tell of the same, whatever rules they observe. --/
theorem tells_evaluate : ∀ fuel, TellsAll (answer ⟨g, input, observed₀⟩ fuel) (evaluate ⟨g, input, observed⟩ fuel)
    (evaluate ⟨g, input, observed'⟩ fuel)
  | 0, _, _, _, _ => .unfinished
  | fuel + 1, i, pos, t, t' => by
    rw [answer, evaluate, evaluate]
    dsimp only
    cases g.nodes[i]? with
    | none => exact .noMatch [] balanced_nil (.refl t) (.refl t')
    | some n => exact tells_node g input observed₀ observed observed' (tells_evaluate fuel) n pos t t'

end

end

/-- Runs that observe different rules come to the same end with the same trace, which closes all that it opens. --/
theorem exists_balanced {g : Grammar} {input : ByteArray} {observed : RuleId → Bool} {r : RuleId} {start : Nat}
    {found : Run} (h : run ⟨g, input, observed⟩ r start = .ok found) (observed' : RuleId → Bool) :
    Balanced found.trail.trace.toList ∧
    (∃ t, run ⟨g, input, observed'⟩ r start = .ok ⟨found.stop, t⟩ ∧ t.trace = found.trail.trace) ∧
    found.trail.log.toList.Sublist (found.trail.trace.toList.filterMap Event.effect?) := by
  have hshows := shows_runWith ⟨g, input, observed⟩ r start (fuelFor g input start)
  have htells : Tells .empty .empty (perform ⟨g, input, observed⟩ (fuelFor g input start) (.rule r true) start)
      (runWith ⟨g, input, observed⟩ (fuelFor g input start) r start)
      (runWith ⟨g, input, observed'⟩ (fuelFor g input start) r start) :=
    tells_rule (tells_evaluate g input observed observed observed' _) rfl rfl rfl true true true r start .empty .empty
  rw [run] at h ⊢
  generalize perform ⟨g, input, observed⟩ (fuelFor g input start) (.rule r true) start = a,
    runWith ⟨g, input, observed⟩ (fuelFor g input start) r start = x,
    runWith ⟨g, input, observed'⟩ (fuelFor g input start) r start = x' at h hshows htells
  cases htells with
  | unfinished | undefined => cases h
  | @matched stop l u u' es hes hl hu hu' =>
    cases h
    cases hshows with
    | matched hlog =>
      have htrace : u.trace.toList = es := hu
      rw [← htrace] at hes hl hu'
      refine ⟨hes, ⟨u', rfl, Array.toList_inj.mp hu'⟩, ?_⟩
      rw [hlog, Array.empty_append]
      exact hl
  | @noMatch u u' es hes hu hu' =>
    cases h
    cases hshows with
    | noMatch hlog =>
      have htrace : u.trace.toList = es := hu
      rw [← htrace] at hes hu'
      refine ⟨hes, ⟨u', rfl, Array.toList_inj.mp hu'⟩, ?_⟩
      rw [hlog]
      exact List.nil_sublist _

/-- The trace of a match that comes to an end is well nested: each rule that is entered is closed by one line of its own, which
    stands as deep, each line stands as deep as there are rules open there, and the depth is back where it began. Which rules
    are observed does not show in it, and what is logged of them is found in it in the same order. --/
theorem run_traced {σ : Setting} {r : RuleId} {start : Nat} {found : Run} (h : run σ r start = .ok found) :
    Trace.Nested σ.grammar.ruleName found.trail.trace.toList ∧
    (∀ observed, ∃ t, run { σ with observed } r start = .ok ⟨found.stop, t⟩ ∧ t.trace = found.trail.trace) ∧
    found.trail.log.toList.Sublist (found.trail.trace.toList.filterMap Event.effect?) := by
  obtain ⟨hbalanced, -, hlog⟩ := exists_balanced h σ.observed
  exact ⟨Trace.nested_of_opened _ (hbalanced []), fun observed => (exists_balanced h observed).2.1, hlog⟩

/-- The first alternative is given up behind its rule, which the second one enters again from the same position on. Only the
    second of the two is logged, and each of the two is closed by its own line. --/
theorem run_traced_twice :
    let t : Trail := ⟨#[.enter 0 0, .enter 1 0, .exit 1, .exit 2],
      #[.enter 0 0, .enter 1 0, .exit 1 0 1, .enter 1 0, .exit 1 0 1, .exit 0 0 2]⟩
    run ⟨twice, ⟨#[0x61, 0x79]⟩, fun _ => true⟩ 0 0 = .ok ⟨some 2, t⟩ ∧
      Trace.lines twice.ruleName t.trace.toList =
        ["> r @0", "  > a @0", "  < a 0..1", "  > a @0", "  < a 0..1", "< r 0..2"] ∧
      Trace.Nested twice.ruleName t.trace.toList ∧
      (∃ u, run ⟨twice, ⟨#[0x61, 0x79]⟩, fun _ => false⟩ 0 0 = .ok ⟨some 2, u⟩ ∧ u.trace = t.trace) ∧
      t.log.toList.Sublist (t.trace.toList.filterMap Event.effect?) := by
  intro t
  have hrun : run ⟨twice, ⟨#[0x61, 0x79]⟩, fun _ => true⟩ 0 0 = .ok ⟨some 2, t⟩ := by decide +kernel
  obtain ⟨hnested, hobserved, hlog⟩ := run_traced hrun
  exact ⟨hrun, by decide +kernel, hnested, hobserved fun _ => false, hlog⟩

end Match
end Abnf
