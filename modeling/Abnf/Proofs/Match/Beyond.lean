import Abnf.Proofs.Match.Missing
import Abnf.Proofs.Match.Nesting
import Abnf.Proofs.Match.Termination

/-! Matching beyond the end of the input. Nothing can be read there, and not even an empty literal matches, but a rule that is
    made of repetitions that need no rounds, or of nothing at all, still does. Which rules these are is told from the
    grammar alone (`Grammar.Idle`), and they match empty beyond the end of every input (`Yields.decides`).

    The text of such a match cannot be taken from the input. In a complete grammar without left recursion this is the one
    reason why a parse of a defined rule fails (`parse_beyond`): a tree is made of text in any case, a value only if a
    rule with a handler has matched. Where a parse comes to an answer, what it found lies in the input, unless it is a
    match beyond the end without any such rule. -/

namespace Abnf

namespace Grammar

variable {g : Grammar}

/-! ### Nodes that need no text -/

/-- A node that matches empty where there is no input to read, not even an empty one. --/
inductive Idle (g : Grammar) : NodeId → Prop where
  | sequence {i : NodeId} {ns : List NodeId} (h : g.nodes[i]? = some (.sequence ns)) (hns : ∀ n ∈ ns, g.Idle n) : g.Idle i
  | choice {i n : NodeId} {ns : List NodeId} (h : g.nodes[i]? = some (.choice ns)) (hn : n ∈ ns) (hidle : g.Idle n) :
      g.Idle i
  /-- No round is needed. --/
  | optional {i n : NodeId} {max : Option UInt32} (h : g.nodes[i]? = some (.repetition n 0 max)) : g.Idle i
  /-- One round that reads nothing stands for all that are needed. --/
  | repetition {i n : NodeId} {min : UInt32} {max : Option UInt32} (h : g.nodes[i]? = some (.repetition n min max))
      (hmax : max ≠ some 0) (hidle : g.Idle n) : g.Idle i
  | ruleRef {i root : NodeId} {r : RuleId} (h : g.nodes[i]? = some (.ruleRef r)) (hroot : g.root? r = some root)
      (hidle : g.Idle root) : g.Idle i
  | fold {i n : NodeId} (h : g.nodes[i]? = some (.fold n)) (hidle : g.Idle n) : g.Idle i

/-- A rule that matches empty where there is no input to read. --/
def Idles (g : Grammar) (r : RuleId) : Prop := ∃ root, g.root? r = some root ∧ g.Idle root

/-- What the parts of a node that needs no text have to be. --/
def IdleParts (g : Grammar) : Node → Prop
  | .literal .. | .charRange .. => False
  | .sequence ns => ∀ n ∈ ns, g.Idle n
  | .choice ns => ∃ n ∈ ns, g.Idle n
  | .repetition n min max => min = 0 ∨ (max ≠ some 0 ∧ g.Idle n)
  | .ruleRef r => g.Idles r
  | .fold n => g.Idle n

theorem idle_iff {i : NodeId} {n : Node} (h : g.nodes[i]? = some n) : g.Idle i ↔ g.IdleParts n := by
  constructor
  · intro hi
    cases hi with
    | sequence h' hns =>
      cases h.symm.trans h'
      exact hns
    | choice h' hn hidle =>
      cases h.symm.trans h'
      exact ⟨_, hn, hidle⟩
    | optional h' =>
      cases h.symm.trans h'
      exact Or.inl rfl
    | repetition h' hmax hidle =>
      cases h.symm.trans h'
      exact Or.inr ⟨hmax, hidle⟩
    | ruleRef h' hroot hidle =>
      cases h.symm.trans h'
      exact ⟨_, hroot, hidle⟩
    | fold h' hidle =>
      cases h.symm.trans h'
      exact hidle
  · intro hn
    cases n with
    | literal | charRange => exact hn.elim
    | sequence ns => exact .sequence h hn
    | choice ns =>
      obtain ⟨n, hn, hidle⟩ := hn
      exact .choice h hn hidle
    | repetition n min max =>
      obtain rfl | ⟨hmax, hidle⟩ := hn
      · exact .optional h
      · exact .repetition h hmax hidle
    | ruleRef r =>
      obtain ⟨root, hroot, hidle⟩ := hn
      exact .ruleRef h hroot hidle
    | fold n => exact .fold h hn

theorem not_idle_of_missing {i : NodeId} (h : g.nodes[i]? = none) : ¬g.Idle i := by
  intro hi
  cases hi with
  | sequence h' | choice h' | optional h' | repetition h' | ruleRef h' | fold h' => cases h.symm.trans h'

/-- A node that needs no text has a first set that says that it may match empty. --/
theorem Idle.nullable {i : NodeId} (h : g.Idle i) : g.nullable i = true := by
  have hclosed := closed_computeFirstSets g
  induction h with
  | @sequence i ns h hns ih =>
    refine hclosed i _ h none ?_
    clear h hns
    rw [FirstSet.ofNode]
    induction ns with
    | nil => exact FirstSet.has_onlyEmpty.mpr rfl
    | cons n ns ihs =>
      obtain ⟨hn, hns⟩ := List.forall_mem_cons.mp ih
      exact FirstSet.has_followedBy.mpr (Or.inr ⟨hn, ihs hns⟩)
  | @choice i n ns h hn _ ih =>
    refine hclosed i _ h none ?_
    clear h
    rw [FirstSet.ofNode]
    induction hn with
    | head => exact FirstSet.has_union.mpr (Or.inl ih)
    | tail _ _ ihs => exact FirstSet.has_union.mpr (Or.inr ihs)
  | @optional i n max h => exact hclosed i _ h none (FirstSet.has_orEmpty.mpr (Or.inr ⟨rfl, rfl⟩))
  | @repetition i n min max h hmax _ ih =>
    refine hclosed i _ h none (FirstSet.has_orEmpty.mpr (Or.inl ?_))
    rwa [if_neg hmax]
  | @ruleRef i root r h hroot _ ih =>
    refine hclosed i _ h none ?_
    rw [FirstSet.ofNode, ruleSet, hroot]
    exact ih
  | @fold i n h _ ih => exact hclosed i _ h none ih

end Grammar

/-! ### Answers beyond the end -/

namespace Answer

/-- An empty match just if something holds, unless a rule is missing. --/
def Decides (pos : Nat) (P : Prop) : Answer → Prop
  | matched stop _ => stop = pos ∧ P
  | noMatch => ¬P
  | undefined _ => True

section
variable {a : Answer} {pos : Nat} {P Q : Prop}

theorem Decides.congr (h : a.Decides pos P) (hPQ : P ↔ Q) : a.Decides pos Q := by
  rwa [← propext hPQ]

theorem Decides.after (h : a.Decides pos P) (l : Log) : (a.after l).Decides pos P := by
  cases a <;> exact h

theorem Decides.leave (h : a.Decides pos P) (wanted : Bool) (r : RuleId) (start : Nat) :
    (a.leave wanted r start).Decides pos P := by
  cases a <;> exact h

theorem decides_settle (min count pos : Nat) : (settle min count pos).Decides pos (min ≤ count) := by
  unfold settle
  split
  · exact Nat.not_le_of_lt ‹_›
  · exact ⟨rfl, Nat.le_of_not_lt ‹_›⟩

end

end Answer

namespace Match

/-- A task that matches empty where there is no input to read. --/
def Task.Idles (g : Grammar) : Task → Prop
  | .node i => g.Idle i
  | .rule r _ => g.Idles r
  | .sequence ns => ∀ n ∈ ns, g.Idle n
  | .choice ns empty => empty.isSome = true ∨ ∃ n ∈ ns, g.Idle n
  | .rounds n min max count => min ≤ count ∨ (max.all (count < ·) = true ∧ g.Idle n)

section
variable {σ : Setting} {pos : Nat}

theorem literal?_beyond {input : ByteArray} (hpos : input.size < pos) (bytes : List UInt8) (ignoreCase : Bool) :
    literal? input bytes ignoreCase pos = none :=
  if_neg fun h => Nat.not_le_of_lt hpos h.1

theorem charRange?_beyond {input : ByteArray} (hpos : input.size < pos) (lo hi : UInt32) :
    charRange? input lo hi pos = none := by
  cases h : charRange? input lo hi pos with
  | none => rfl
  | some stop =>
    -- A code point takes a byte of the input at least.
    unfold charRange? at h
    split at h <;> split at h
    · have hlt := (getElem?_eq_some_iff.mp ‹input[pos]? = _›).1
      omega
    · cases h
    · have hle := ByteArray.le_size_of_utf8DecodeChar?_eq_some ‹_›
      omega
    · cases h

/-- First sets do not shut out an alternative that needs no text. --/
theorem admits_of_idle (hw : σ.grammar.WellFormed) {n : NodeId} (hn : σ.grammar.Idle n) : admits σ pos n = true := by
  unfold admits
  split
  · rfl
  · rename_i sets hsets
    have hnull := hn.nullable
    rw [Grammar.nullable, ← hw.sets sets hsets, Grammar.setOf, Array.getD_eq_getD_getElem?] at hnull
    rw [FirstSet.accepts, Array.getD_eq_getD_getElem?]
    cases hset : sets[n]? with
    | none => rfl
    | some s =>
      rw [hset] at hnull
      rw [Option.getD_some, show s.nullable = true from hnull, Bool.true_or]

/-- Beyond the end of the input a task matches empty if it needs no text, and else it does not match. --/
theorem Yields.decides (hw : σ.grammar.WellFormed) {task : Task} {a : Answer} (h : Yields σ task pos a)
    (hpos : σ.input.size < pos) : a.Decides pos (task.Idles σ.grammar) := by
  induction h with
  | missing h => exact Grammar.not_idle_of_missing h
  | literal h =>
    rw [literal?_beyond hpos]
    exact (Grammar.idle_iff h).mp
  | charRange h =>
    rw [charRange?_beyond hpos]
    exact (Grammar.idle_iff h).mp
  | sequence h _ ih | ruleRef h _ ih | fold h _ ih => exact (ih hpos).congr (Grammar.idle_iff h).symm
  | choice h _ ih =>
    refine (ih hpos).congr (Iff.trans ?_ (Grammar.idle_iff h).symm)
    exact or_iff_right Bool.false_ne_true
  | @repetition i n min max pos a h _ ih =>
    have hmin : min.toNat ≤ 0 ↔ min = 0 := by
      rw [Nat.le_zero, ← UInt32.toNat_inj]
      rfl
    refine (ih hpos).congr (Iff.trans ?_ (Grammar.idle_iff h).symm)
    exact or_congr hmin (and_congr_left' Node.all_pos_iff)
  | undefined | choiceStop | roundsStop => trivial
  | @rule r root wanted pos a h _ ih =>
    refine ((ih hpos).congr ⟨fun hi => ⟨root, h, hi⟩, ?_⟩).leave wanted r pos
    rintro ⟨_, hroot, hi⟩
    cases h.symm.trans hroot
    exact hi
  | sequenceNil => exact ⟨rfl, List.forall_mem_nil _⟩
  | @sequenceCons n _ _ _ _ _ _ _ ih₁ ih₂ =>
    obtain ⟨rfl, hn⟩ := ih₁ hpos
    have hidle : σ.grammar.Idle n := hn
    refine ((ih₂ hpos).congr ?_).after _
    rw [Task.Idles, Task.Idles, List.forall_mem_cons, and_iff_right hidle]
  | @sequenceStop _ _ _ a _ ha ih =>
    cases a with
    | matched => cases ha
    | noMatch => exact fun hns => ih hpos (hns _ List.mem_cons_self)
    | undefined => trivial
  | @choiceNil empty pos =>
    cases empty with
    | none => simp [Answer.Decides, Task.Idles]
    | some l => exact ⟨rfl, Or.inl rfl⟩
  | choiceSkip hn _ ih =>
    refine (ih hpos).congr ?_
    have hidle := fun hi => Bool.eq_false_iff.mp hn (admits_of_idle hw hi)
    rw [Task.Idles, Task.Idles, List.exists_mem_cons_iff, or_iff_right hidle]
  | choiceTake _ _ hlt ih => exact absurd (ih hpos).1 (Nat.ne_of_gt hlt)
  | @choiceEmpty n ns _ _ _ _ _ _ _ _ _ ih₁ ih₂ =>
    refine (ih₂ hpos).congr (iff_of_true (Or.inl rfl) ?_)
    exact Or.inr ⟨n, List.mem_cons_self, (ih₁ hpos).2⟩
  | @choiceFail n _ _ _ _ _ _ _ ih₁ ih₂ =>
    have hidle : ¬σ.grammar.Idle n := ih₁ hpos
    refine (ih₂ hpos).congr ?_
    rw [Task.Idles, Task.Idles, List.exists_mem_cons_iff, or_iff_right hidle]
  | @roundsFull n min max count pos hc =>
    refine (Answer.decides_settle min count pos).congr ?_
    rw [Task.Idles, hc]
    simp
  | @roundsEmpty n min max count pos l hc _ ih =>
    refine ((Answer.decides_settle min _ pos).congr (iff_of_true ?_ ?_)).after l
    · exact Nat.le_max_right _ _
    · exact Or.inr ⟨hc, (ih hpos).2⟩
  | roundsNext _ _ hne _ ih => exact absurd (ih hpos).1 hne
  | @roundsFail n min max count pos hc _ ih =>
    refine (Answer.decides_settle min count pos).congr ?_
    rw [Task.Idles, or_iff_left]
    exact fun hn => ih hpos hn.2

/-! ### Runs -/

variable {r : RuleId} {start : Nat}

/-- In a complete grammar without left recursion a match of a rule comes to an answer. --/
theorem exists_run (hw : σ.grammar.WellFormed) (hc : σ.grammar.isComplete = true) (hrec : σ.grammar.NoLeftRecursion)
    (hr : r < σ.grammar.slots.size) (start : Nat) : ∃ run, Match.run σ r start = .ok run := by
  cases h : run σ r start with
  | ok run => exact ⟨run, rfl⟩
  | error e =>
    cases e with
    | missing m => exact absurd h (run_ne_missing hw hc hr m)
    | beyondEnd =>
      rw [run] at h
      split at h <;> cases h
    | endless =>
      have hends : Terminates σ r start :=
        terminates_iff.mpr (ends_rule hw.parts hrec (endsLater hw.parts hrec start) r true)
      exact absurd hends (run_endless_iff.mp h)

/-- A run beyond the end of the input. --/
theorem run_beyond (hw : σ.grammar.WellFormed) (hstart : σ.input.size < start) {run : Run}
    (h : Match.run σ r start = .ok run) :
    (run.stop = some start ∧ σ.grammar.Idles r) ∨ (run.stop = none ∧ ¬σ.grammar.Idles r) := by
  have hends : Terminates σ r start := not_not.mp fun hends => by
    rw [run_endless_iff.mpr hends] at h
    cases h
  obtain ⟨a, ha⟩ := terminates_iff.mp hends
  have hidles := ha.decides hw hstart
  have hfound := run_of_yields ha
  rw [h] at hfound
  obtain ⟨stop, trail⟩ := run
  cases a with
  | matched stop' l =>
    obtain ⟨rfl, hidles⟩ := hidles
    cases stop <;> cases hfound
    exact Or.inl ⟨rfl, hidles⟩
  | noMatch =>
    cases stop <;> cases hfound
    exact Or.inr ⟨rfl, hidles⟩
  | undefined q => cases hfound

/-- The log of a match that has been found is that of an occurrence of the rule. --/
theorem exists_log {stop : Nat} {t : Trail} (h : run σ r start = .ok ⟨some stop, t⟩) :
    Forward σ.input.size start stop ∧ ∃ inner, Occurrence.LieAll σ.grammar start stop inner ∧
      t.log.toList = (Occurrence.of r ⟨start, stop⟩ inner).effects := by
  obtain ⟨g, input, observed⟩ := σ
  have hfound : (run ⟨g, input, observed⟩ r start).map Run.found = .ok (some (stop, t.log)) := by rw [h]; rfl
  obtain ⟨whole, ⟨-, -, -, -, hwhole⟩, -, hkeep⟩ := exists_tree hfound
  have hlog := hfound.symm.trans (hkeep observed)
  simp only [Except.ok.injEq, Option.some.injEq, Prod.mk.injEq, true_and] at hlog
  exact ⟨run_forward hfound, _, hwhole.keepingAll observed, by rw [hlog, Occurrence.restrict]⟩

end

end Match

open Occurrence (LieAll effects effectsAll root?_effects)

theorem Span.text?_beyond {s : Span} {input : ByteArray} (h : input.size < s.stop) : s.text? input = none :=
  if_neg fun hs => Nat.not_le_of_lt h hs.2

/-- There is no element of an occurrence that reaches past the end. --/
theorem Element.ofOccurrence_beyond {name : RuleId → String} {input : ByteArray} {r : RuleId} {span : Span}
    {inner : List Occurrence} (h : input.size < span.stop) :
    Element.ofOccurrence name input (.of r span inner) = none := by
  rw [Element.ofOccurrence, Span.text?_beyond h]
  rfl

namespace Binding

variable {α : Type}

/-- A log tells of a rule with a handler. --/
def Handles (b : Binding α) (log : List Effect) : Prop := ∃ q pos, .enter q pos ∈ log ∧ (b.handler? q).isSome = true

section
variable {b : Binding α}

theorem handles_append {es fs : List Effect} : b.Handles (es ++ fs) ↔ b.Handles es ∨ b.Handles fs := by
  simp only [Handles, List.mem_append, or_and_right, exists_or]

theorem not_handles_nil : ¬b.Handles [] := by
  rintro ⟨q, pos, h, -⟩
  exact List.not_mem_nil h

theorem handles_effects {r : RuleId} {span : Span} {inner : List Occurrence} :
    b.Handles (effects (.of r span inner)) ↔ (b.handler? r).isSome = true ∨ b.Handles (effectsAll inner) := by
  rw [effects, ← List.singleton_append, handles_append, handles_append]
  have hexit : ¬b.Handles [.exit span.stop] := by
    rintro ⟨q, pos, h, -⟩
    cases List.mem_singleton.mp h
  rw [or_iff_left hexit]
  refine or_congr_left ⟨?_, fun h => ⟨r, span.start, List.mem_singleton_self _, h⟩⟩
  rintro ⟨q, pos, h, hq⟩
  cases List.mem_singleton.mp h
  exact hq

/-- What is delivered beyond the end of the input, where some rule has a handler just if `P` holds: the handler asks for
    text that is not there, and without one there are only rules without a value. --/
inductive Vain (P : Prop) : Except MatchError (List (Delivery α)) → Prop where
  | beyondEnd (h : P) : Vain P (.error .beyondEnd)
  | silent {ds : List (Delivery α)} (h : ¬P) (hds : ∀ d ∈ ds, d.value = none) : Vain P (.ok ds)

theorem vain_deliver {input : ByteArray} {r : RuleId} {span : Span} {inner : List Occurrence}
    (hinner : Vain (b.Handles (effectsAll inner)) (deliverAll b input inner)) (hspan : input.size < span.stop) :
    Vain (b.Handles (effects (.of r span inner))) (deliver b input (.of r span inner)) := by
  rw [deliver, handles_effects]
  generalize deliverAll b input inner = x at hinner
  cases hinner with
  | beyondEnd h => exact .beyondEnd (Or.inr h)
  | @silent ds h hds =>
    rw [ok_bind]
    cases b.handler? r with
    | none => exact .silent (not_or.mpr ⟨Bool.false_ne_true, h⟩) (List.forall_mem_cons.mpr ⟨rfl, hds⟩)
    | some handler =>
      dsimp only
      rw [text, Span.text?_beyond hspan]
      exact .beyondEnd (Or.inl rfl)

theorem vain_deliverAll {input : ByteArray} : ∀ {os : List Occurrence} {g : Grammar} {low high : Nat},
    LieAll g low high os → input.size < low → Vain (b.Handles (effectsAll os)) (deliverAll b input os)
  | [], _, _, _, _, _ => .silent not_handles_nil (List.forall_mem_nil _)
  | .of r span inner :: os, g, low, high, ⟨⟨_, hlow, hle, _, hinner⟩, hos⟩, hsize => by
    have hstart : input.size < span.start := Nat.lt_of_lt_of_le hsize hlow
    have hstop : input.size < span.stop := Nat.lt_of_lt_of_le hstart hle
    have ho := vain_deliver (r := r) (vain_deliverAll hinner hstart) hstop
    have hrest := vain_deliverAll hos hstop
    rw [deliverAll, effectsAll, handles_append]
    generalize deliver b input (.of r span inner) = x at ho
    generalize deliverAll b input os = y at hrest
    cases ho with
    | beyondEnd h => exact .beyondEnd (Or.inl h)
    | silent h hds =>
      cases hrest with
      | beyondEnd h' => exact .beyondEnd (Or.inr h')
      | silent h' hds' => exact .silent (not_or.mpr ⟨h, h'⟩) (List.forall_mem_append.mpr ⟨hds, hds'⟩)

/-- The value of a match beyond the end of the input. --/
theorem valueOf_beyond (b : Binding α) {input : ByteArray} (r : RuleId) (span : Span) {inner : List Occurrence} {g : Grammar}
    (hinner : LieAll g span.start span.stop inner) (hle : span.start ≤ span.stop) (hstart : input.size < span.start) :
    (b.Handles (effects (.of r span inner)) → b.valueOf input (effects (.of r span inner)) = .error .beyondEnd) ∧
      (¬b.Handles (effects (.of r span inner)) → b.valueOf input (effects (.of r span inner)) = .ok none) := by
  have hv := vain_deliver (r := r) (vain_deliverAll (b := b) hinner hstart) (Nat.lt_of_lt_of_le hstart hle)
  rw [valueOf, root?_effects]
  dsimp only
  generalize deliver b input (.of r span inner) = x at hv
  cases hv with
  | beyondEnd h => exact ⟨fun _ => rfl, fun hnot => absurd h hnot⟩
  | @silent ds h hds =>
    refine ⟨fun h' => absurd h' h, fun _ => ?_⟩
    cases ds with
    | nil => rfl
    | cons d ds =>
      have hd : d.value = none := hds d List.mem_cons_self
      show Except.ok d.value = _
      rw [hd]

end

end Binding

namespace Match

/-- A match of a rule that needs no text lies beyond the end of the input. --/
def Overruns (g : Grammar) (input : ByteArray) (r : RuleId) (start : Nat) : Prop := input.size < start ∧ g.Idles r

theorem lt_size_of_resolve {g : Grammar} {rule : String} {r : RuleId} (h : resolve g rule = .ok r) :
    r < g.slots.size := by
  unfold resolve Grammar.demandRule at h
  cases hr : g.rule rule with
  | error e =>
    rw [hr] at h
    cases h
  | ok q =>
    rw [hr] at h
    cases h
    unfold Grammar.rule at hr
    split at hr
    · split at hr
      · cases hr
        exact Grammar.lt_size_of_find? ‹_›
      · cases hr
    · cases hr

/-- A match that does not overrun the input lies in it, if there is one. --/
theorem within_of_run {σ : Setting} (hw : σ.grammar.WellFormed) {r : RuleId} {start stop : Nat} {t : Trail}
    (hrun : run σ r start = .ok ⟨some stop, t⟩) (h : ¬Overruns σ.grammar σ.input r start) :
    Span.Within ⟨start, stop⟩ σ.input := by
  obtain ⟨⟨hle, hstop⟩, -⟩ := exists_log hrun
  refine ⟨hle, hstop.elim (fun hstop => hstop.trans_le (Nat.le_of_not_lt fun hlt => ?_)) id⟩
  rcases run_beyond hw hlt hrun with ⟨-, hidles⟩ | ⟨hnone, -⟩
  · exact h ⟨hlt, hidles⟩
  · cases hnone

/-- A match that overruns the input is found, and ends where it begins. --/
theorem stop_of_overruns {σ : Setting} (hw : σ.grammar.WellFormed) {r : RuleId} {start : Nat} {run : Run}
    (hrun : Match.run σ r start = .ok run) (h : Overruns σ.grammar σ.input r start) : run.stop = some start := by
  rcases run_beyond hw h.1 hrun with ⟨hstop, -⟩ | ⟨-, hidles⟩
  · exact hstop
  · exact absurd h.2 hidles

end Match

open Match (Overruns)

section
variable {g : Grammar} {rule : String} {r : RuleId} {input : ByteArray} {start : Nat} {run : Run}

/-- What is told of a run as a tree. --/
theorem Element.parse_run (hw : g.WellFormed) {observed : RuleId → Bool} (hr : Match.resolve g rule = .ok r)
    (hrun : Match.run ⟨g, input, observed⟩ r start = .ok run) :
    (Overruns g input r start → Element.parse g observed rule input start = .error .beyondEnd) ∧
      (¬Overruns g input r start → ∃ found, Element.parse g observed rule input start = .ok (found, run) ∧
        ∀ m ∈ found, m.span.start = start ∧ m.span.Within input) := by
  have hparse : Element.parse g observed rule input start = (Element.ofRun g input start run).map (·, run) := by
    rw [Element.parse, hr, ok_bind, hrun, ok_bind]
    cases Element.ofRun g input start run <;> rfl
  rw [hparse]
  obtain ⟨stop, t⟩ := run
  constructor
  · intro h
    obtain rfl : stop = some start := Match.stop_of_overruns hw hrun h
    obtain ⟨-, inner, -, hlog⟩ := Match.exists_log hrun
    have hnone : Element.ofOccurrence g.ruleName input (.of r ⟨start, start⟩ inner) = none :=
      Element.ofOccurrence_beyond h.1
    rw [Element.ofRun]
    dsimp only
    rw [hlog, root?_effects, Option.bind_some, hnone]
    rfl
  · intro h
    cases stop with
    | none => exact ⟨none, rfl, fun m hm => absurd hm (Option.not_mem_none m)⟩
    | some stop =>
      have hspan := Match.within_of_run hw hrun h
      obtain ⟨-, inner, hinner, hlog⟩ := Match.exists_log hrun
      obtain ⟨es, hes⟩ := Element.exists_ofOccurrences hinner hspan.2
      rw [Element.ofRun]
      dsimp only
      rw [hlog, root?_effects, Option.bind_some, Element.ofOccurrence, Span.text?_of_le hspan.1 hspan.2, hes]
      refine ⟨_, rfl, fun m hm => ?_⟩
      cases hm
      exact ⟨rfl, hspan⟩

/-- What a binding makes of a run. --/
theorem Binding.parse_run {α : Type} {b : Binding α} (hw : b.grammar.WellFormed)
    (hr : Match.resolve b.grammar rule = .ok r) (hrun : Match.run ⟨b.grammar, input, b.observes⟩ r start = .ok run) :
    (Overruns b.grammar input r start →
      (b.Handles run.trail.log.toList → b.parse rule input start = .error .beyondEnd) ∧
      (¬b.Handles run.trail.log.toList → b.parse rule input start = .ok (some ⟨none, Span.empty start⟩, run))) ∧
    (¬Overruns b.grammar input r start → ∃ found, b.parse rule input start = .ok (found, run) ∧
      ∀ m ∈ found, m.span.start = start ∧ m.span.Within input) := by
  rw [Binding.parse, hr, ok_bind, hrun, ok_bind]
  obtain ⟨stop, t⟩ := run
  constructor
  · intro h
    obtain rfl : stop = some start := Match.stop_of_overruns hw hrun h
    obtain ⟨-, inner, hinner, hlog⟩ := Match.exists_log hrun
    obtain ⟨hvalue, hnone⟩ := b.valueOf_beyond r ⟨start, start⟩ hinner (Nat.le_refl start) h.1
    rw [← hlog] at hvalue hnone
    constructor
    · intro hhandles
      dsimp only
      rw [hvalue hhandles]
      rfl
    · intro hhandles
      dsimp only
      rw [hnone hhandles]
      rfl
  · intro h
    cases stop with
    | none => exact ⟨none, rfl, fun m hm => absurd hm (Option.not_mem_none m)⟩
    | some stop =>
      have hspan := Match.within_of_run hw hrun h
      obtain ⟨-, inner, hinner, hlog⟩ := Match.exists_log hrun
      obtain ⟨ds, hds, hin⟩ := b.exists_deliverAll hinner hspan.2
      obtain ⟨value, passed, hdeliver, -⟩ := b.exists_deliver (r := r) hds hin hspan
      dsimp only
      rw [hlog, Binding.valueOf, root?_effects]
      dsimp only
      rw [hdeliver]
      refine ⟨_, rfl, fun m hm => ?_⟩
      cases hm
      exact ⟨rfl, hspan⟩

end

namespace Match

/-- A parse of a defined rule fails for one reason, if the grammar is complete and has no left recursion: the rule matches
    beyond the end of the input. A tree asks for the text of the match, so then there is none. A binding asks for
    text if a rule with a handler has matched, and else tells of the place where there is nothing. In every other
    case there is an answer, and what is found lies in the input. --/
theorem parse_beyond {g : Grammar} (hw : g.WellFormed) (hc : g.isComplete = true) (hrec : g.NoLeftRecursion)
    {rule : String} {r : RuleId} (hr : resolve g rule = .ok r) (input : ByteArray) (start : Nat) :
    (∀ observed, (Overruns g input r start → Element.parse g observed rule input start = .error .beyondEnd) ∧
      (¬Overruns g input r start → ∃ found run, Element.parse g observed rule input start = .ok (found, run) ∧
        ∀ m ∈ found, m.span.start = start ∧ m.span.Within input)) ∧
    ∀ (α : Type) (b : Binding α), b.grammar = g →
      (Overruns g input r start → ∃ run, Match.run ⟨g, input, b.observes⟩ r start = .ok run ∧ run.stop = some start ∧
        (b.Handles run.trail.log.toList → b.parse rule input start = .error .beyondEnd) ∧
        (¬b.Handles run.trail.log.toList → b.parse rule input start = .ok (some ⟨none, Span.empty start⟩, run))) ∧
      (¬Overruns g input r start → ∃ found run, b.parse rule input start = .ok (found, run) ∧
        ∀ m ∈ found, m.span.start = start ∧ m.span.Within input) := by
  have hlt := lt_size_of_resolve hr
  constructor
  · intro observed
    obtain ⟨run, hrun⟩ := exists_run (σ := ⟨g, input, observed⟩) hw hc hrec hlt start
    obtain ⟨hover, hfound⟩ := Element.parse_run hw hr hrun
    refine ⟨hover, fun h => ?_⟩
    obtain ⟨found, hparse, hin⟩ := hfound h
    exact ⟨found, run, hparse, hin⟩
  · rintro α b rfl
    obtain ⟨run, hrun⟩ := exists_run (σ := ⟨b.grammar, input, b.observes⟩) hw hc hrec hlt start
    obtain ⟨hover, hfound⟩ := Binding.parse_run hw hr hrun
    refine ⟨fun h => ⟨run, hrun, stop_of_overruns hw hrun h, hover h⟩, fun h => ?_⟩
    obtain ⟨found, hparse, hin⟩ := hfound h
    exact ⟨found, run, hparse, hin⟩

/-- The first rule of `turns` is made of rounds that are not needed. Beyond the end it fails as a tree, and where it has a
    handler; a handler of the other rule alone gets a place behind the input. --/
theorem parse_beyond_turns :
    let input : ByteArray := ⟨#[0x41]⟩
    let handler : Handler String := ⟨fun _ text => text, [], none⟩
    Grammar.turns.WellFormed ∧ Grammar.turns.isComplete = true ∧ Grammar.turns.NoLeftRecursion ∧
      resolve Grammar.turns "S" = .ok 0 ∧ Overruns Grammar.turns input 0 2 ∧
      Element.parse Grammar.turns (fun _ => true) "S" input 2 = .error .beyondEnd ∧
      Binding.parse ⟨Grammar.turns, [(0, handler)]⟩ "S" input 2 = .error .beyondEnd ∧
      (Binding.parse ⟨Grammar.turns, [(1, handler)]⟩ "S" input 2).map Prod.fst = .ok (some ⟨none, ⟨2, 2⟩⟩) := by
  intro input handler
  have hw := Grammar.wellFormed_turns
  have hc : Grammar.turns.isComplete = true := by decide +kernel
  have hover : Overruns Grammar.turns input 0 2 := ⟨by decide, 3, rfl, .optional rfl⟩
  obtain ⟨htree, hvalue⟩ := parse_beyond hw hc noLeftRecursion_turns Binding.resolve_turns input 2
  -- What is observed does not show in the run, as nothing matches inside the rule.
  let t : Trail := ⟨#[.enter 0 2, .exit 2], #[.enter 0 2, .enter 1 2, .fail 1 2, .exit 0 2 2]⟩
  refine ⟨hw, hc, noLeftRecursion_turns, Binding.resolve_turns, hover, (htree _).1 hover, ?_, ?_⟩
  · let b : Binding String := ⟨Grammar.turns, [(0, handler)]⟩
    obtain ⟨run, hrun, -, hhandles, -⟩ := (hvalue String b rfl).1 hover
    have ht : Match.run ⟨Grammar.turns, input, b.observes⟩ 0 2 = .ok ⟨some 2, t⟩ := by decide +kernel
    cases hrun.symm.trans ht
    exact hhandles ⟨0, 2, .head _, rfl⟩
  · let b : Binding String := ⟨Grammar.turns, [(1, handler)]⟩
    obtain ⟨run, hrun, -, -, hnone⟩ := (hvalue String b rfl).1 hover
    have ht : Match.run ⟨Grammar.turns, input, b.observes⟩ 0 2 = .ok ⟨some 2, t⟩ := by decide +kernel
    cases hrun.symm.trans ht
    have hhandles : ¬b.Handles t.log.toList := by
      rintro ⟨q, pos, hq, hsome⟩
      simp only [t, List.mem_cons, Effect.enter.injEq, reduceCtorEq, List.not_mem_nil, or_false] at hq
      obtain ⟨rfl, -⟩ := hq
      cases hsome
    rw [hnone hhandles]
    rfl

end Match
end Abnf
