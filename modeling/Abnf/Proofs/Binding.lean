import Abnf.Binding
import Abnf.Proofs.Match.Observation

/-! What a binding makes of a match, said on the tree of everything that matched. The binding itself never has that tree:
    it goes by a log of the rules that are handled or collected, and what an occurrence passes on is gathered on the way
    out of it. The log is that of the whole tree with the other rules left out (`Match.parallel_run`), so what is gathered
    is what the tree says (`deliverAll_keepingAll`), and a parse makes the value of the tree (`parse_value`). -/

namespace Abnf

open Occurrence (LieAll keeping keepingAll restrict root?_effects)

/-! ### Texts and deliveries -/

namespace Span

/-- Whether a span lies in the input. --/
def Within (s : Span) (input : ByteArray) : Prop := s.start ≤ s.stop ∧ s.stop ≤ input.size

/-- The text of a span that lies in the input. --/
def textOf (input : ByteArray) (s : Span) : String := Utf8.lossy (input.extract s.start s.stop).data.toList

theorem Within.text {s : Span} {input : ByteArray} (h : s.Within input) :
    Binding.text input s = .ok (s.textOf input) := by
  rw [Binding.text, Span.text?_of_le h.1 h.2, textOf]

end Span

namespace Handler

variable {α : Type} (h : Handler α) (input : ByteArray)

/-- What a handler makes of a value and a delivery: the collector of the rule takes it up, or the collector of any child
    if there is none, and no collector takes up a value that is not there. --/
def apply (value : α) (d : Delivery α) : α :=
  match h.collectors.lookup d.rule, d.value, h.anyChild with
  | some (.text take), _, _ => take value (d.span.textOf input)
  | some (.int take), _, _ => take value (leadingInt (d.span.textOf input))
  | some (.child take), some child, _ => take value child
  | none, some child, some take => take value child
  | some (.child _), none, _ | none, some _, none | none, none, _ => value

/-- The value that a handler makes, with all deliveries applied to it in order. --/
def valueFrom (name text : String) (ds : List (Delivery α)) : α := ds.foldl (h.apply input) (h.create name text)

variable {h input}

theorem take_eq (value : α) {d : Delivery α} (hd : d.span.Within input) :
    Binding.take h input value d = .ok (h.apply input value d) := by
  unfold Binding.take apply
  cases h.collectors.lookup d.rule with
  | none => cases d.value <;> cases h.anyChild <;> rfl
  | some c =>
    cases c with
    | text take =>
      dsimp only
      rw [hd.text]
      rfl
    | int take =>
      dsimp only
      rw [hd.text]
      rfl
    | child take => cases d.value <;> rfl

theorem build_eq (name text : String) {ds : List (Delivery α)} (hds : ∀ d ∈ ds, d.span.Within input) :
    Binding.build h input name text ds = .ok (h.valueFrom input name text ds) := by
  rw [Binding.build, valueFrom]
  generalize h.create name text = value
  induction ds generalizing value with
  | nil => rfl
  | cons d ds ih =>
    rw [List.foldlM_cons, take_eq value (hds d (.head _)), ok_bind, List.foldl_cons]
    exact ih (fun d' hd' => hds d' (.tail _ hd')) _

end Handler

namespace Binding

variable {α : Type}

/-! ### The value of a tree -/

/-- Whether some handler has a collector for a rule. --/
def collects (b : Binding α) (r : RuleId) : Bool := b.handlers.any fun p => p.2.collectors.any fun c => c.1 == r

mutual

/-- The value of an occurrence, if its rule has a handler. --/
def valueAt (b : Binding α) (input : ByteArray) : Occurrence → Option α
  | .of r span inner => (b.handler? r).map fun h =>
    h.valueFrom input (b.grammar.ruleName r) (span.textOf input) (deliveries b input inner)

/-- What is delivered to the rule that occurrences lie in: each of them that is handled or collected, and after each
    that is not handled what is delivered to it. --/
def deliveries (b : Binding α) (input : ByteArray) : List Occurrence → List (Delivery α)
  | [] => []
  | .of r span inner :: os =>
    (if (b.handler? r).isSome || b.collects r then [⟨r, span, valueAt b input (.of r span inner)⟩] else []) ++
      (if (b.handler? r).isSome then [] else deliveries b input inner) ++ deliveries b input os

end

theorem isSome_valueAt (b : Binding α) (input : ByteArray) (o : Occurrence) :
    (b.valueAt input o).isSome = (b.handler? o.rule).isSome := by
  obtain ⟨r, span, inner⟩ := o
  rw [valueAt, Option.isSome_map, Occurrence.rule]

/-! ### The binding makes it -/

section
variable {b : Binding α} {input : ByteArray}

theorem handler?_isSome (r : RuleId) : (b.handler? r).isSome = b.handlers.any fun p => p.1 == r := by
  rw [handler?]
  induction b.handlers with
  | nil => rfl
  | cons p ps ih =>
    obtain ⟨q, h⟩ := p
    rw [List.lookup_cons, List.any_cons, Bool.beq_comm]
    split <;> simp_all

/-- What is observed is what is handled or collected. --/
theorem observes_eq (r : RuleId) : b.observes r = ((b.handler? r).isSome || b.collects r) := by
  rw [observes, handler?_isSome, collects]
  induction b.handlers with
  | nil => rfl
  | cons p ps ih =>
    rw [List.any_cons, List.any_cons, List.any_cons, ih]
    ac_rfl

theorem within_deliveries : ∀ {os : List Occurrence} {low high : Nat}, LieAll b.grammar low high os →
    high ≤ input.size → ∀ d ∈ deliveries b input os, d.span.Within input
  | [], _, _, _, _, d, hd => by
    rw [deliveries] at hd
    exact absurd hd List.not_mem_nil
  | .of r span inner :: os, low, high, ⟨ho, hos⟩, hhigh, d, hd => by
    rw [deliveries, List.mem_append, List.mem_append] at hd
    obtain ⟨-, -, hle, hstop, hinner⟩ := ho
    obtain (hd | hd) | hd := hd
    · split at hd
      · obtain rfl := List.mem_singleton.mp hd
        exact ⟨hle, Nat.le_trans hstop hhigh⟩
      · exact absurd hd List.not_mem_nil
    · split at hd
      · exact absurd hd List.not_mem_nil
      · exact within_deliveries hinner (Nat.le_trans hstop hhigh) d hd
    · exact within_deliveries hos hhigh d hd

theorem deliverAll_append : ∀ {os ps : List Occurrence} {ds es : List (Delivery α)},
    deliverAll b input os = .ok ds → deliverAll b input ps = .ok es → deliverAll b input (os ++ ps) = .ok (ds ++ es)
  | [], _, _, _, hos, hps => by
    cases hos
    exact hps
  | o :: os, ps, ds, es, hos, hps => by
    rw [deliverAll] at hos
    obtain ⟨d, hd, hos⟩ := bind_eq_ok.mp hos
    obtain ⟨ds, hds, hos⟩ := bind_eq_ok.mp hos
    cases hos
    rw [List.cons_append, deliverAll, hd, deliverAll_append hds hps, List.append_assoc]
    rfl

/-- An occurrence that has been given what is delivered to it. --/
theorem deliver_of {r : RuleId} {span : Span} {inner kept : List Occurrence}
    (hinner : deliverAll b input kept = .ok (deliveries b input inner)) (hspan : span.Within input)
    (hds : ∀ d ∈ deliveries b input inner, d.span.Within input) :
    deliver b input (.of r span kept) = .ok (⟨r, span, valueAt b input (.of r span inner)⟩ ::
      if (b.handler? r).isSome then [] else deliveries b input inner) := by
  rw [deliver, hinner, ok_bind, valueAt]
  cases b.handler? r with
  | none => rfl
  | some h =>
    dsimp only
    rw [hspan.text, ok_bind, Handler.build_eq _ _ hds]
    rfl

/-- Of neighbours in a tree, those that are observed deliver what the neighbours do. --/
theorem deliverAll_keepingAll : ∀ {os : List Occurrence} {low high : Nat}, LieAll b.grammar low high os →
    high ≤ input.size → deliverAll b input (keepingAll b.observes os) = .ok (deliveries b input os)
  | [], _, _, _, _ => by rw [keepingAll, deliverAll, deliveries]
  | .of r span inner :: os, low, high, ⟨ho, hos⟩, hhigh => by
    obtain ⟨-, -, hle, hstop, hlie⟩ := ho
    have hhigh' := Nat.le_trans hstop hhigh
    have hinner := deliverAll_keepingAll hlie hhigh'
    rw [keepingAll, deliveries]
    refine deliverAll_append ?_ (deliverAll_keepingAll hos hhigh)
    rw [keeping, observes_eq]
    cases hr : (b.handler? r).isSome || b.collects r with
    | true =>
      rw [if_pos rfl, if_pos rfl, deliverAll, deliver_of hinner ⟨hle, hhigh'⟩ (within_deliveries hlie hhigh')]
      simp [deliverAll, bind, Except.bind, pure, Except.pure]
    | false =>
      -- A rule that is not observed has no handler: it passes on all that is delivered to it.
      rw [Bool.or_eq_false_iff] at hr
      rw [hr.1]
      simpa using hinner

/-- What is left of the root of a match delivers the value of the whole root. --/
theorem valueOf_restrict {o : Occurrence} {low high : Nat} (ho : o.Lies b.grammar low high) (hhigh : high ≤ input.size) :
    b.valueOf input (o.restrict b.observes).effects.toArray.toList = .ok (b.valueAt input o) := by
  obtain ⟨r, span, inner⟩ := o
  obtain ⟨-, -, hle, hstop, hinner⟩ := ho
  have hhigh' := Nat.le_trans hstop hhigh
  rw [valueOf, root?_effects]
  dsimp only
  rw [restrict, deliver_of (deliverAll_keepingAll hinner hhigh') ⟨hle, hhigh'⟩ (within_deliveries hinner hhigh'), ok_bind]
  rfl

theorem parse_eq_found (rule : String) (start : Nat) : (b.parse rule input start).map Prod.fst =
    (Match.resolve b.grammar rule) >>= fun r => (Match.run ⟨b.grammar, input, b.observes⟩ r start).map Run.found >>=
      fun
        | none => .ok none
        | some (stop, log) => (b.valueOf input log.toList).map fun value => some ⟨value, ⟨start, stop⟩⟩ := by
  unfold parse
  cases Match.resolve b.grammar rule with
  | error e => rfl
  | ok r =>
    rw [ok_bind, ok_bind]
    cases Match.run ⟨b.grammar, input, b.observes⟩ r start with
    | error e => rfl
    | ok run =>
      obtain ⟨stop, trail⟩ := run
      cases stop with
      | none => rfl
      | some stop =>
        show (b.valueOf input trail.log.toList >>= _).map Prod.fst = (b.valueOf input trail.log.toList).map _
        cases b.valueOf input trail.log.toList <;> rfl

end

/-- Where a rule matches, whatever is observed, the binding makes the value of the tree of everything that matched. --/
theorem parse_value (b : Binding α) {rule : String} {r : RuleId} (hr : Match.resolve b.grammar rule = .ok r)
    {input : ByteArray} {start stop : Nat} (hstart : start ≤ input.size) {seen : RuleId → Bool}
    (hmatch : (Match.run ⟨b.grammar, input, seen⟩ r start).map Run.stop = .ok (some stop)) :
    ∃ log root, (Match.run ⟨b.grammar, input, fun _ => true⟩ r start).map Run.found = .ok (some (stop, log)) ∧
      Occurrence.root? log.toList = some root ∧ root.rule = r ∧ root.span = ⟨start, stop⟩ ∧
      (b.parse rule input start).map Prod.fst = .ok (some ⟨b.valueAt input root, ⟨start, stop⟩⟩) ∧
      ((b.valueAt input root).isSome ↔ (b.handler? r).isSome) := by
  obtain ⟨log, hfound⟩ : ∃ log, (Match.run ⟨b.grammar, input, seen⟩ r start).map Run.found = .ok (some (stop, log)) := by
    cases hrun : Match.run ⟨b.grammar, input, seen⟩ r start with
    | error e => simp [hrun, Except.map] at hmatch
    | ok run =>
      rw [hrun] at hmatch
      have hstop : run.stop = some stop := Except.ok.inj hmatch
      exact ⟨run.trail.log, by rw [Except.map, Run.found, hstop]; rfl⟩
  have hstop : stop ≤ input.size := by
    obtain ⟨-, rfl | h⟩ := Match.run_forward hfound
    · exact hstart
    · exact h
  obtain ⟨inner, ho, hall, hkeep⟩ := Match.exists_tree hfound
  refine ⟨_, _, hall, root?_effects _, rfl, rfl, ?_, by rw [isSome_valueAt, Occurrence.rule]⟩
  rw [parse_eq_found, hr, ok_bind, hkeep, ok_bind]
  dsimp only
  rw [valueOf_restrict ho hstop]
  rfl

theorem resolve_turns : Match.resolve Grammar.turns "S" = .ok 0 := by
  have hsame : sameName "s" "S" = true := by
    rw [sameName_iff, foldCase, foldCase, ← String.toList_inj]
    simp
  have hslot : Grammar.turns.slots[0]? = some ⟨"s", some 3⟩ := rfl
  have hfind : Grammar.turns.find? "S" = some 0 :=
    (Grammar.find?_sameName hsame).symm.trans (Grammar.wellFormed_turns.distinct.find?_name hslot)
  rw [Match.resolve, Grammar.demandRule, Grammar.rule, hfind]
  rfl

/-- One rule has a handler that takes the texts of the other, which has none, and its own values from inside that. --/
theorem parse_value_turns :
    let b : Binding String := ⟨Grammar.turns,
      [(0, ⟨fun name text => name ++ text, [(1, .text fun v text => v ++ "[" ++ text ++ "]")],
        some fun v child => v ++ "<" ++ child ++ ">"⟩)]⟩
    let input : ByteArray := ⟨#[0x41, 0x62, 0x61]⟩
    Match.resolve b.grammar "S" = .ok 0 ∧ 0 ≤ input.size ∧
      (Match.run ⟨b.grammar, input, fun _ => true⟩ 0 0).map Run.stop = .ok (some 3) ∧
      (b.parse "S" input 0).map Prod.fst = .ok (some ⟨some "sAba[ba]<sa>", ⟨0, 3⟩⟩) := by
  intro b input
  have hstart : 0 ≤ input.size := Nat.zero_le _
  have hmatch : (Match.run ⟨b.grammar, input, fun _ => true⟩ 0 0).map Run.stop = .ok (some 3) := by decide +kernel
  refine ⟨resolve_turns, hstart, hmatch, ?_⟩
  obtain ⟨log, root, hrun, hroot, -, -, hparse, -⟩ := b.parse_value resolve_turns hstart hmatch
  have hlog : (Match.run ⟨b.grammar, input, fun _ => true⟩ 0 0).map Run.found =
      .ok (some (3, #[.enter 0 0, .enter 1 1, .enter 0 2, .exit 3, .exit 3, .exit 3])) := by decide +kernel
  cases hrun.symm.trans hlog
  have htree : Occurrence.root? [.enter 0 0, .enter 1 1, .enter 0 2, .exit 3, .exit 3, .exit 3] =
      some (.of 0 ⟨0, 3⟩ [.of 1 ⟨1, 3⟩ [.of 0 ⟨2, 3⟩ []]]) := rfl
  cases hroot.symm.trans htree
  have hvalue : b.valueAt input (.of 0 ⟨0, 3⟩ [.of 1 ⟨1, 3⟩ [.of 0 ⟨2, 3⟩ []]]) = some "sAba[ba]<sa>" := by
    decide +kernel
  rw [hparse, hvalue]

end Binding
end Abnf
