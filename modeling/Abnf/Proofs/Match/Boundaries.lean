import Abnf.Proofs.Match.Language
import Abnf.Proofs.Match.Nesting
import Abnf.Proofs.Text.Boundary

/-! Matches of grammars that speak of text. A grammar can be told by its nodes to read whole characters only: its literals
    are text, and no range of it holds single bytes that begin or go on a longer character (`Grammar.isTextual`). Where
    such a grammar matches a source from a place between two characters, every place that it comes to is one
    (`Yields.onBoundaries`). Whatever is made of the match, an element or the value of a binding, quotes the source
    as it stands: in none of its texts anything is replaced (`run_textual`). -/

namespace Abnf

/-! ### Grammars of text -/

/-- Whether a node reads whole characters. A range below 0x100 is one of bytes, and beyond ASCII these are parts of
    characters. --/
def Node.isTextual : Node → Bool
  | .literal bytes _ => (Utf8.text? bytes).isSome
  | .charRange _ hi => hi < 0x80 || byteLimit ≤ hi
  | _ => true

/-- Whether all nodes read whole characters. --/
def Grammar.isTextual (g : Grammar) : Bool := g.nodes.all Node.isTextual

theorem Grammar.isTextual_node {g : Grammar} (hg : g.isTextual = true) {i : NodeId} {n : Node}
    (hi : g.nodes[i]? = some n) : n.isTextual = true :=
  Array.all_eq_true_iff_forall_mem.mp hg n (Array.mem_of_getElem? hi)

/-! ### Places of a log -/

/-- The place that an entry of a log tells of. --/
def Effect.place : Effect → Nat
  | enter _ start => start
  | exit stop => stop

/-- A log of places between characters. --/
def Log.OnBoundaries (source : String) (log : Log) : Prop := ∀ e ∈ log.toList, Boundary source e.place

/-- An answer that ends between characters, with a log of such places. --/
def Answer.OnBoundaries (source : String) : Answer → Prop
  | matched stop l => Boundary source stop ∧ l.OnBoundaries source
  | _ => True

section
variable {source : String}

theorem Log.onBoundaries_empty : Log.OnBoundaries source #[] := fun _ he => absurd he List.not_mem_nil

theorem Log.OnBoundaries.append {k l : Log} (hk : k.OnBoundaries source) (hl : l.OnBoundaries source) :
    Log.OnBoundaries source (k ++ l) := by
  intro e he
  rw [Array.toList_append, List.mem_append] at he
  exact he.elim (hk e) (hl e)

theorem Answer.OnBoundaries.after {a : Answer} {l : Log} (hl : l.OnBoundaries source) (ha : a.OnBoundaries source) :
    (a.after l).OnBoundaries source := by
  cases a with
  | matched stop k => exact ⟨ha.1, hl.append ha.2⟩
  | noMatch | undefined => trivial

theorem Answer.OnBoundaries.leave {a : Answer} {wanted : Bool} {r : RuleId} {pos : Nat} (hpos : Boundary source pos)
    (ha : a.OnBoundaries source) : (a.leave wanted r pos).OnBoundaries source := by
  cases a with
  | matched stop l =>
    have henter : Log.OnBoundaries source #[.enter r pos] := List.forall_mem_singleton.mpr hpos
    have hexit : Log.OnBoundaries source #[.exit stop] := List.forall_mem_singleton.mpr ha.1
    refine ⟨ha.1, ?_⟩
    split
    · exact (henter.append ha.2).append hexit
    · exact ha.2
  | noMatch | undefined => trivial

theorem Answer.onBoundaries_settle {min count pos : Nat} (hpos : Boundary source pos) :
    (settle min count pos).OnBoundaries source := by
  unfold settle
  split
  · trivial
  · exact ⟨hpos, Log.onBoundaries_empty⟩

theorem Answer.onBoundaries_leaf {stop? : Option Nat} (h : ∀ stop ∈ stop?, Boundary source stop) :
    (leaf stop?).OnBoundaries source := by
  cases stop? with
  | none => trivial
  | some stop => exact ⟨h stop rfl, Log.onBoundaries_empty⟩

end

/-! ### From place to place -/

namespace Match

section
variable {source : String} {pos stop : Nat}

/-- Text that is read from a place between characters ends at another. --/
theorem boundary_of_spells (h : Boundary source pos) (hforward : Forward source.toByteArray.size pos stop)
    (htext : Spells (stretch source.toByteArray pos stop)) : Boundary source stop := by
  obtain ⟨hle, rfl | hstop⟩ := hforward
  · exact h
  · exact h.stop hle hstop htext

theorem boundary_of_literal? {bytes : List UInt8} {ignoreCase : Bool} (hn : (Node.literal bytes ignoreCase).isTextual = true)
    (h : Boundary source pos) (hread : literal? source.toByteArray bytes ignoreCase pos = some stop) :
    Boundary source stop := by
  refine boundary_of_spells h (literal?_forward hread) ?_
  have hstretch := stretch_of_literal? hread
  obtain ⟨cs, rfl⟩ := spells_of_isSome_text? hn
  cases ignoreCase with
  | true =>
    rw [← Byte.lower_eq_small] at hstretch
    exact spells_of_map_lower_eq hstretch
  | false => exact ⟨cs, by simpa using hstretch⟩

theorem boundary_of_charRange? {lo hi : UInt32} (hn : (Node.charRange lo hi).isTextual = true) (h : Boundary source pos)
    (hread : charRange? source.toByteArray lo hi pos = some stop) : Boundary source stop := by
  refine boundary_of_spells h (charRange?_forward hread) ?_
  unfold charRange? at hread
  split at hread
  · rename_i hlim
    have hhi : hi.toNat < 0x80 := by
      simp only [Node.isTextual, Bool.or_eq_true, decide_eq_true_eq] at hn
      exact UInt32.lt_iff_toNat_lt.mp (hn.resolve_right (UInt32.not_le.mpr hlim))
    split at hread
    · rename_i b hb
      simp only [Option.ite_none_right_eq_some, Option.some.injEq] at hread
      obtain ⟨⟨-, hbhi⟩, rfl⟩ := hread
      rw [stretch_byte hb]
      exact spells_byte (Nat.lt_of_le_of_lt (UInt32.le_iff_toNat_le.mp hbhi) hhi)
    · cases hread
  · split at hread
    · rename_i c hc
      simp only [Option.ite_none_right_eq_some, Option.some.injEq] at hread
      obtain ⟨-, rfl⟩ := hread
      rw [stretch, toList_extract_of_utf8DecodeChar? hc]
      exact spells_char c
    · cases hread

end

/-- Alternatives already passed over come in as the empty match that was kept from them. --/
def Task.OnBoundaries (source : String) : Task → Prop
  | .choice _ empty => ∀ l ∈ empty, l.OnBoundaries source
  | _ => True

/-- From a place between characters a grammar of text comes only to others. --/
theorem Yields.onBoundaries {σ : Setting} (hg : σ.grammar.isTextual = true) {source : String}
    (hinput : σ.input = source.toByteArray) {task : Task} {pos : Nat} {a : Answer} (h : Yields σ task pos a) :
    Boundary source pos → task.OnBoundaries source → a.OnBoundaries source := by
  induction h with
  | missing | undefined | choiceStop | roundsStop => exact fun _ _ => trivial
  | literal hi =>
    exact fun hpos _ => Answer.onBoundaries_leaf fun stop hread =>
      boundary_of_literal? (Grammar.isTextual_node hg hi) hpos (hinput ▸ hread)
  | charRange hi =>
    exact fun hpos _ => Answer.onBoundaries_leaf fun stop hread =>
      boundary_of_charRange? (Grammar.isTextual_node hg hi) hpos (hinput ▸ hread)
  | choice _ _ ih => exact fun hpos _ => ih hpos nofun
  | sequence _ _ ih | repetition _ _ ih | ruleRef _ _ ih | fold _ _ ih => exact fun hpos _ => ih hpos trivial
  | rule _ _ ih => exact fun hpos _ => (ih hpos trivial).leave hpos
  | sequenceNil => exact fun hpos _ => ⟨hpos, Log.onBoundaries_empty⟩
  | sequenceCons _ _ ih₁ ih₂ =>
    intro hpos _
    obtain ⟨hmid, hl⟩ := ih₁ hpos trivial
    exact (ih₂ hmid trivial).after hl
  | sequenceStop _ _ ih => exact fun hpos _ => ih hpos trivial
  | @choiceNil empty pos =>
    intro hpos hempty
    cases empty with
    | none => trivial
    | some l => exact ⟨hpos, hempty l rfl⟩
  | choiceSkip _ _ ih | choiceFail _ _ _ _ ih => exact fun hpos hempty => ih hpos hempty
  | choiceTake _ _ _ ih => exact fun hpos _ => ih hpos trivial
  | @choiceEmpty n ns empty pos stop l a _ _ _ _ ih₁ ih₂ =>
    intro hpos hempty
    refine ih₂ hpos fun k hk => ?_
    cases empty with
    | none => exact Option.some.inj hk ▸ (ih₁ hpos trivial).2
    | some j => exact hempty k hk
  | roundsFull | roundsFail => exact fun hpos _ => Answer.onBoundaries_settle hpos
  | roundsEmpty _ _ ih => exact fun hpos _ => (Answer.onBoundaries_settle hpos).after (ih hpos trivial).2
  | roundsNext _ _ _ _ ih₁ ih₂ =>
    intro hpos _
    obtain ⟨hstop, hl⟩ := ih₁ hpos trivial
    exact (ih₂ hstop trivial).after hl

end Match

/-! ### Occurrences that quote the source -/

namespace Occurrence

mutual

/-- An occurrence and all that lie in it. --/
def all : Occurrence → List Occurrence
  | of r span inner => of r span inner :: allIn inner

def allIn : List Occurrence → List Occurrence
  | [] => []
  | o :: os => all o ++ allIn os

end

mutual

/-- What lies in an occurrence that lies in another lies in that as well. --/
theorem mem_all_trans : ∀ {o p q : Occurrence}, q ∈ p.all → p ∈ o.all → q ∈ o.all
  | of r span inner, p, q, hq, hp => by
    rw [all, List.mem_cons] at hp
    obtain rfl | hp := hp
    · exact hq
    · rw [all]
      exact .tail _ (mem_allIn_trans hq hp)

theorem mem_allIn_trans : ∀ {os : List Occurrence} {p q : Occurrence}, q ∈ p.all → p ∈ allIn os → q ∈ allIn os
  | [], _, _, _, hp => absurd hp List.not_mem_nil
  | o :: os, p, q, hq, hp => by
    rw [allIn, List.mem_append] at hp ⊢
    exact hp.imp (mem_all_trans hq) (mem_allIn_trans hq)

end

/-- Occurrences that cover a text of the source each. --/
def AllCover (source : String) (os : List Occurrence) : Prop := ∀ o ∈ os, ∃ text, o.span.Covers source text

section
variable {g : Grammar} {source : String}

mutual

theorem Lies.allCover : ∀ {o : Occurrence} {low high : Nat}, o.Lies g low high →
    (∀ e ∈ o.effects, Boundary source e.place) → AllCover source o.all
  | of r span inner, _, _, ⟨_, _, hle, _, hinner⟩, hplaces => by
    rw [effects, List.forall_mem_cons, List.forall_mem_append, List.forall_mem_singleton] at hplaces
    obtain ⟨hstart, hplaces, hstop⟩ := hplaces
    rw [all, AllCover, List.forall_mem_cons]
    exact ⟨Boundary.covers hstart hstop hle, hinner.allCover hplaces⟩

theorem LieAll.allCover : ∀ {os : List Occurrence} {low high : Nat}, LieAll g low high os →
    (∀ e ∈ effectsAll os, Boundary source e.place) → AllCover source (allIn os)
  | [], _, _, _, _ => List.forall_mem_nil _
  | o :: os, _, _, ⟨ho, hos⟩, hplaces => by
    rw [effectsAll, List.forall_mem_append] at hplaces
    rw [allIn, AllCover, List.forall_mem_append]
    exact ⟨ho.allCover hplaces.1, hos.allCover hplaces.2⟩

end

end
end Occurrence

open Occurrence (all allIn AllCover)

namespace Element

mutual

/-- An element with the text of the source that an occurrence covers, and so on inside it. --/
def Quotes (source : String) : Element → Occurrence → Prop
  | of _ value children, .of _ span inner => span.Covers source value ∧ QuotesAll source children inner

def QuotesAll (source : String) : List Element → List Occurrence → Prop
  | [], [] => True
  | e :: es, o :: os => Quotes source e o ∧ QuotesAll source es os
  | _, _ => False

end

section
variable {source : String} (name : RuleId → String)

mutual

theorem exists_quotes : ∀ {o : Occurrence}, AllCover source o.all →
    ∃ e, ofOccurrence name source.toByteArray o = some e ∧ e.Quotes source o
  | .of r span inner, h => by
    rw [all, AllCover, List.forall_mem_cons] at h
    obtain ⟨⟨text, htext⟩, hinner⟩ := h
    obtain ⟨es, hes, hquotes⟩ := exists_quotesAll hinner
    have hread : span.text? source.toByteArray = some text := htext.text?
    refine ⟨of (name r) text es, ?_, htext, hquotes⟩
    rw [ofOccurrence, hread, hes]
    rfl

theorem exists_quotesAll : ∀ {os : List Occurrence}, AllCover source (allIn os) →
    ∃ es, ofOccurrences name source.toByteArray os = some es ∧ QuotesAll source es os
  | [], _ => ⟨[], rfl, trivial⟩
  | o :: os, h => by
    rw [allIn, AllCover, List.forall_mem_append] at h
    obtain ⟨e, he, hquotes⟩ := exists_quotes h.1
    obtain ⟨es, hes, hquotesAll⟩ := exists_quotesAll h.2
    refine ⟨e :: es, ?_, hquotes, hquotesAll⟩
    rw [ofOccurrences, he, hes]
    rfl

end

end
end Element

theorem Span.Covers.within {source : String} {s : Span} {text : String} (h : s.Covers source text) :
    s.Within source.toByteArray ∧ s.textOf source.toByteArray = text := by
  have htext := h.text?
  rw [Span.text?, Option.ite_none_right_eq_some] at htext
  exact ⟨htext.1, Option.some.inj htext.2⟩

namespace Binding

variable {α : Type}

/-- The values that handlers and collectors make when every text that they are given is one of the source, as it stands
    there. --/
inductive Quoted (b : Binding α) (source : String) : α → Prop where
  | create {r : RuleId} {h : Handler α} {s : Span} {text : String} (hr : b.handler? r = some h)
      (ht : s.Covers source text) : b.Quoted source (h.create (b.grammar.ruleName r) text)
  | text {r q : RuleId} {h : Handler α} {take : α → String → α} {v : α} {s : Span} {text : String}
      (hr : b.handler? r = some h) (hq : h.collectors.lookup q = some (.text take)) (hv : b.Quoted source v)
      (ht : s.Covers source text) : b.Quoted source (take v text)
  | int {r q : RuleId} {h : Handler α} {take : α → Int → α} {v : α} {s : Span} {text : String}
      (hr : b.handler? r = some h) (hq : h.collectors.lookup q = some (.int take)) (hv : b.Quoted source v)
      (ht : s.Covers source text) : b.Quoted source (take v (leadingInt text))
  | child {r q : RuleId} {h : Handler α} {take : α → α → α} {v w : α} (hr : b.handler? r = some h)
      (hq : h.collectors.lookup q = some (.child take)) (hv : b.Quoted source v) (hw : b.Quoted source w) :
      b.Quoted source (take v w)
  | anyChild {r : RuleId} {h : Handler α} {take : α → α → α} {v w : α} (hr : b.handler? r = some h)
      (hany : h.anyChild = some take) (hv : b.Quoted source v) (hw : b.Quoted source w) : b.Quoted source (take v w)

/-- A delivery of an occurrence that covers a text of the source, with a value made of such texts. --/
def Quotes (b : Binding α) (source : String) (d : Delivery α) : Prop :=
  (∃ text, d.span.Covers source text) ∧ ∀ v ∈ d.value, b.Quoted source v

section
variable {b : Binding α} {source : String} {r : RuleId} {h : Handler α}

theorem Quoted.apply (hr : b.handler? r = some h) {v : α} (hv : b.Quoted source v) {d : Delivery α}
    (hd : b.Quotes source d) : b.Quoted source (h.apply source.toByteArray v d) := by
  obtain ⟨⟨text, htext⟩, hvalue⟩ := hd
  unfold Handler.apply
  rw [htext.within.2]
  split
  · exact .text hr ‹_› hv htext
  · exact .int hr ‹_› hv htext
  · rename_i w hq hw
    exact .child hr hq hv (hvalue w hw)
  · rename_i w _ _ hw hany
    exact .anyChild hr hany hv (hvalue w hw)
  all_goals exact hv

/-- A value is quoted if all that is delivered to it is. --/
theorem Quoted.valueFrom (hr : b.handler? r = some h) {s : Span} {text : String} (htext : s.Covers source text)
    {ds : List (Delivery α)} (hds : ∀ d ∈ ds, b.Quotes source d) :
    b.Quoted source (h.valueFrom source.toByteArray (b.grammar.ruleName r) text ds) := by
  rw [Handler.valueFrom]
  have hv : b.Quoted source (h.create (b.grammar.ruleName r) text) := .create hr htext
  generalize h.create (b.grammar.ruleName r) text = v at hv ⊢
  induction ds generalizing v with
  | nil => exact hv
  | cons d ds ih =>
    obtain ⟨hd, hds⟩ := List.forall_mem_cons.mp hds
    exact ih hds _ (hv.apply hr hd)

mutual

theorem exists_deliver_quotes (b : Binding α) : ∀ {o : Occurrence}, AllCover source o.all →
    ∃ ds, b.deliver source.toByteArray o = .ok ds ∧ ∀ d ∈ ds, b.Quotes source d
  | .of r span inner, hcover => by
    rw [all, AllCover, List.forall_mem_cons] at hcover
    obtain ⟨⟨text, htext⟩, hinner⟩ := hcover
    have hspan : span.Covers source text := htext
    obtain ⟨ds, hds, hquotes⟩ := exists_deliverAll_quotes b hinner
    rw [deliver, hds, ok_bind]
    cases hr : b.handler? r with
    | none => exact ⟨⟨r, span, none⟩ :: ds, rfl, List.forall_mem_cons.mpr ⟨⟨⟨text, hspan⟩, nofun⟩, hquotes⟩⟩
    | some h =>
      have hwithin : ∀ d ∈ ds, d.span.Within source.toByteArray := fun d hd => (hquotes d hd).1.elim fun _ h => h.within.1
      refine ⟨[⟨r, span, some (h.valueFrom source.toByteArray (b.grammar.ruleName r) text ds)⟩], ?_, ?_⟩
      · dsimp only
        rw [hspan.within.1.text, hspan.within.2, ok_bind, Handler.build_eq _ _ hwithin]
        rfl
      · refine List.forall_mem_singleton.mpr ⟨⟨text, hspan⟩, fun v hv => ?_⟩
        exact Option.some.inj hv ▸ Quoted.valueFrom hr hspan hquotes

theorem exists_deliverAll_quotes (b : Binding α) : ∀ {os : List Occurrence}, AllCover source (allIn os) →
    ∃ ds, b.deliverAll source.toByteArray os = .ok ds ∧ ∀ d ∈ ds, b.Quotes source d
  | [], _ => ⟨[], rfl, List.forall_mem_nil _⟩
  | o :: os, hcover => by
    rw [allIn, AllCover, List.forall_mem_append] at hcover
    obtain ⟨ds, hds, hquotes⟩ := exists_deliver_quotes b hcover.1
    obtain ⟨es, hes, hquotesAll⟩ := exists_deliverAll_quotes b hcover.2
    refine ⟨ds ++ es, ?_, List.forall_mem_append.mpr ⟨hquotes, hquotesAll⟩⟩
    rw [deliverAll, hds, hes]
    rfl

end

end
end Binding

namespace Match

/-- A match that a run finds is the answer of its rule. --/
theorem yields_of_run {σ : Setting} {r : RuleId} {start stop : Nat} {t : Trail}
    (h : run σ r start = .ok ⟨some stop, t⟩) : Yields σ (.rule r true) start (.matched stop t.log) := by
  have hends : Terminates σ r start := by
    by_contra hnot
    rw [run_endless_iff.mpr hnot] at h
    cases h
  obtain ⟨a, ha⟩ := terminates_iff.mp hends
  have hfound := run_of_yields ha
  rw [h] at hfound
  cases a <;> cases hfound
  exact ha

/-- Matches of a grammar of text do not cut through characters. From a place between characters of the source, a match
    ends at such a place, and its log tells of no others. What is read of every occurrence is the text of the source that it
    covers: elements have these texts, and every occurrence can be delivered to any handlers, which together with their
    collectors are given only such texts on the way. --/
theorem run_textual {g : Grammar} (hg : g.isTextual = true) {source : String} {observed : RuleId → Bool} {r : RuleId}
    {start stop : Nat} {t : Trail} (hstart : Boundary source start)
    (h : run ⟨g, source.toByteArray, observed⟩ r start = .ok ⟨some stop, t⟩) :
    Boundary source stop ∧ t.log.OnBoundaries source ∧
      ∃ root, Occurrence.root? t.log.toList = some root ∧
        (∀ o ∈ root.all, ∃ text, o.span.Covers source text ∧ o.span.text? source.toByteArray = some text) ∧
        (∃ m, Element.ofRun g source.toByteArray start ⟨some stop, t⟩ = .ok (some m) ∧ m.element.Quotes source root) ∧
        ∀ (α : Type) (b : Binding α), ∀ o ∈ root.all, ∃ ds,
          b.deliver source.toByteArray o = .ok ds ∧ ∀ d ∈ ds, b.Quotes source d := by
  obtain ⟨hstop, hlog⟩ := (yields_of_run h).onBoundaries hg rfl hstart trivial
  obtain ⟨hle, -, inner, heffects, -, hinner, -⟩ := run_nested hstart.le h
  have hroot : t.log.toList = (Occurrence.of r ⟨start, stop⟩ inner).effects := by rw [heffects, Occurrence.effects]
  have hcover : AllCover source (Occurrence.of r ⟨start, stop⟩ inner).all := by
    have hplaces : ∀ e ∈ Occurrence.effectsAll inner, Boundary source e.place := by
      intro e he
      refine hlog e ?_
      rw [heffects]
      exact .tail _ (List.mem_append_left _ he)
    rw [all, AllCover, List.forall_mem_cons]
    exact ⟨Boundary.covers hstart hstop hle, hinner.allCover hplaces⟩
  refine ⟨hstop, hlog, _, by rw [hroot, Occurrence.root?_effects], fun o ho => ?_, ?_, fun α b o ho => ?_⟩
  · obtain ⟨text, htext⟩ := hcover o ho
    exact ⟨text, htext, htext.text?⟩
  · obtain ⟨e, he, hquotes⟩ := Element.exists_quotes g.ruleName hcover
    refine ⟨⟨e, ⟨start, stop⟩⟩, ?_, hquotes⟩
    rw [Element.ofRun]
    dsimp only
    rw [hroot, Occurrence.root?_effects, Option.bind_some, he]
  · exact Binding.exists_deliver_quotes b fun p hp => hcover p (Occurrence.mem_all_trans hp ho)

/-- A capital letter before an accented one stands for a small one, and any longer character comes next. --/
theorem run_textual_accents :
    let g : Grammar := ⟨"accents",
      #[.literal [0x41, 0xC3, 0xA9] true, .charRange 0x80 0x10FFFF, .ruleRef 1, .sequence [0, 2]],
      #[⟨"r", some 3⟩, ⟨"x", some 1⟩], none⟩
    let source := "(aéü)"
    let t : Trail := ⟨#[.enter 0 1, .enter 1 4, .exit 6, .exit 6], #[.enter 0 1, .enter 1 4, .exit 1 4 6, .exit 0 1 6]⟩
    g.isTextual = true ∧ Boundary source 1 ∧ run ⟨g, source.toByteArray, fun _ => true⟩ 0 1 = .ok ⟨some 6, t⟩ ∧
      Boundary source 6 ∧ t.log.OnBoundaries source ∧ ∃ m,
        Element.ofRun g source.toByteArray 1 ⟨some 6, t⟩ = .ok (some m) ∧
        m.element.Quotes source (.of 0 ⟨1, 6⟩ [.of 1 ⟨4, 6⟩ []]) := by
  intro g source t
  have hg : g.isTextual = true := by decide +kernel
  have hstart : Boundary source 1 := boundary_iff.mpr ⟨"(", "aéü)", rfl, rfl⟩
  have hrun : run ⟨g, source.toByteArray, fun _ => true⟩ 0 1 = .ok ⟨some 6, t⟩ := by decide +kernel
  obtain ⟨hstop, hlog, root, hroot, -, ⟨m, hm, hquotes⟩, -⟩ := run_textual hg hstart hrun
  have htree : Occurrence.root? t.log.toList = some (.of 0 ⟨1, 6⟩ [.of 1 ⟨4, 6⟩ []]) := rfl
  cases hroot.symm.trans htree
  exact ⟨hg, hstart, hrun, hstop, hlog, m, hm, hquotes⟩

end Match
end Abnf
