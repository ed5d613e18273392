import Abnf.Proofs.Binding

/-! The log of a match is well formed. The tree of everything that matched is known to be nested (`Match.exists_tree`), and
    what is left of it when rules that are not observed are left out is nested as well (`Occurrence.LieAll.keepingAll`).
    So the log enters the rule, tells of matches that lie one after the other inside it, each with others in turn
    inside it, and leaves the rule (`run_nested`). Elements and the values of bindings can be made of any such log. -/

namespace Abnf

open Occurrence (LieAll effects effectsAll keepingAll restrict keep_of_mem_keepingAll replay_effects root?_effects)

theorem Element.exists_ofOccurrences {g : Grammar} {input : ByteArray} {os : List Occurrence} {low high : Nat}
    (hos : LieAll g low high os) (hhigh : high ≤ input.size) :
    ∃ es, Element.ofOccurrences g.ruleName input os = some es := by
  obtain ⟨es, hes, -⟩ := @Element.ofOccurrences_keepingAll g input (fun _ => true) (fun _ => true) (fun _ _ => rfl)
    os low high hos hhigh
  exact ⟨es, hes⟩

namespace Binding

section
variable {α : Type} (b : Binding α) {input : ByteArray}

/-- An occurrence delivers itself first, with a value just if its rule has a handler. --/
theorem exists_deliver {r : RuleId} {span : Span} {inner : List Occurrence} {ds : List (Delivery α)}
    (hds : deliverAll b input inner = .ok ds) (hin : ∀ d ∈ ds, d.span.Within input) (hspan : span.Within input) :
    ∃ value passed, deliver b input (.of r span inner) = .ok (⟨r, span, value⟩ :: passed) ∧
      (value.isSome ↔ (b.handler? r).isSome) ∧ ∀ d ∈ passed, d.span.Within input := by
  rw [deliver, hds, ok_bind]
  cases b.handler? r with
  | none => exact ⟨none, ds, rfl, Iff.rfl, hin⟩
  | some h =>
    dsimp only
    rw [hspan.text, ok_bind, Handler.build_eq _ _ hin]
    exact ⟨_, [], rfl, Iff.rfl, List.forall_mem_nil _⟩

/-- Whatever rules a log tells of, there is a delivery of each occurrence that lies in the input. --/
theorem exists_deliverAll : ∀ {os : List Occurrence} {g : Grammar} {low high : Nat}, LieAll g low high os →
    high ≤ input.size → ∃ ds, deliverAll b input os = .ok ds ∧ ∀ d ∈ ds, d.span.Within input
  | [], _, _, _, _, _ => ⟨[], rfl, List.forall_mem_nil _⟩
  | .of r span inner :: os, g, low, high, ⟨⟨_, _, hle, hstop, hinner⟩, hos⟩, hhigh => by
    have hhigh' := Nat.le_trans hstop hhigh
    obtain ⟨ds, hds, hin⟩ := exists_deliverAll hinner hhigh'
    obtain ⟨value, passed, hdeliver, -, hpassed⟩ := b.exists_deliver (r := r) hds hin ⟨hle, hhigh'⟩
    obtain ⟨es, hes, hin'⟩ := exists_deliverAll hos hhigh
    refine ⟨⟨r, span, value⟩ :: passed ++ es, by rw [deliverAll, hdeliver, hes]; rfl, ?_⟩
    exact List.forall_mem_append.mpr ⟨List.forall_mem_cons.mpr ⟨⟨hle, hhigh'⟩, hpassed⟩, hin'⟩

end

end Binding

namespace Match

/-- A match that is found lies in the input, and its log is well formed. It enters the rule and leaves it, and in
    between are matches of observed rules that lie one after the other in the rule's span, each with others in its own
    span. Replaying it finds one root, of which an element can be made, and a value by any binding. --/
theorem run_nested {σ : Setting} {r : RuleId} {start stop : Nat} {t : Trail} (hstart : start ≤ σ.input.size)
    (h : run σ r start = .ok ⟨some stop, t⟩) :
    start ≤ stop ∧ stop ≤ σ.input.size ∧ ∃ inner,
      t.log.toList = .enter r start :: (effectsAll inner ++ [.exit stop]) ∧
      Occurrence.replay t.log.toList = some [.of r ⟨start, stop⟩ inner] ∧
      LieAll σ.grammar start stop inner ∧ (∀ q pos, .enter q pos ∈ effectsAll inner → σ.observed q = true) ∧
      (∃ children, Element.ofRun σ.grammar σ.input start ⟨some stop, t⟩ = .ok (some
        ⟨.of (σ.grammar.ruleName r) (Span.textOf σ.input ⟨start, stop⟩) children, ⟨start, stop⟩⟩)) ∧
      ∀ (α : Type) (b : Binding α), ∃ value, b.valueOf σ.input t.log.toList = .ok value ∧
        (value.isSome ↔ (b.handler? r).isSome) := by
  obtain ⟨g, input, observed⟩ := σ
  have hfound : (run ⟨g, input, observed⟩ r start).map Run.found = .ok (some (stop, t.log)) := by rw [h]; rfl
  obtain ⟨hle, hend⟩ := run_forward hfound
  have hstop : stop ≤ input.size := hend.elim (· ▸ hstart) id
  obtain ⟨whole, ⟨-, -, -, -, hwhole⟩, -, hkeep⟩ := exists_tree hfound
  have hinner := hwhole.keepingAll observed
  -- What is logged is what is left of the tree of everything that matched.
  have hlog : t.log.toList = (Occurrence.of r ⟨start, stop⟩ (keepingAll observed whole)).effects := by
    have hlog := hfound.symm.trans (hkeep observed)
    simp only [Except.ok.injEq, Option.some.injEq, Prod.mk.injEq, true_and] at hlog
    rw [hlog, restrict]
  refine ⟨hle, hstop, keepingAll observed whole, by rw [hlog, effects], by rw [hlog, replay_effects], hinner,
    fun q pos => keep_of_mem_keepingAll, ?_, fun α b => ?_⟩
  · obtain ⟨es, hes⟩ := Element.exists_ofOccurrences hinner hstop
    refine ⟨es, ?_⟩
    rw [Element.ofRun]
    dsimp only
    rw [hlog, root?_effects, Option.bind_some, Element.ofOccurrence, Span.text?_of_le hle hstop, hes]
    rfl
  · obtain ⟨ds, hds, hin⟩ := b.exists_deliverAll hinner hstop
    have hspan : Span.Within ⟨start, stop⟩ input := ⟨hle, hstop⟩
    obtain ⟨value, passed, hdeliver, hvalue, -⟩ := b.exists_deliver (r := r) hds hin hspan
    refine ⟨value, ?_, hvalue⟩
    rw [hlog, Binding.valueOf, root?_effects]
    dsimp only
    rw [hdeliver]
    rfl

/-- Two matches of an observed rule, one after the other in a match of a rule that is not observed. --/
theorem run_nested_list :
    let g : Grammar := ⟨"list", #[.literal [0x61] false, .ruleRef 1, .repetition 1 0 none],
      #[⟨"s", some 2⟩, ⟨"t", some 0⟩], none⟩
    let σ : Setting := ⟨g, ⟨#[0x61, 0x61]⟩, (· == 1)⟩
    let t : Trail := ⟨#[.enter 0 0, .enter 1 0, .exit 1, .enter 1 1, .exit 2, .exit 2],
      #[.enter 0 0, .enter 1 0, .exit 1 0 1, .enter 1 1, .exit 1 1 2, .enter 1 2, .fail 1 2, .exit 0 0 2]⟩
    0 ≤ σ.input.size ∧ run σ 0 0 = .ok ⟨some 2, t⟩ ∧
      Occurrence.replay t.log.toList = some [.of 0 ⟨0, 2⟩ [.of 1 ⟨0, 1⟩ [], .of 1 ⟨1, 2⟩ []]] ∧
      LieAll g 0 2 [.of 1 ⟨0, 1⟩ [], .of 1 ⟨1, 2⟩ []] := by
  intro g σ t
  have hstart : 0 ≤ σ.input.size := Nat.zero_le _
  have hrun : run σ 0 0 = .ok ⟨some 2, t⟩ := by decide +kernel
  obtain ⟨-, -, inner, -, hreplay, hinner, -⟩ := run_nested hstart hrun
  have htree : Occurrence.replay t.log.toList = some [.of 0 ⟨0, 2⟩ [.of 1 ⟨0, 1⟩ [], .of 1 ⟨1, 2⟩ []]] := rfl
  cases hreplay.symm.trans htree
  exact ⟨hstart, hrun, hreplay, hinner⟩

end Match
end Abnf
