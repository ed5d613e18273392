import Abnf.Proofs.Document.Likeness
import Abnf.Proofs.Document.Parallel

/-! What is told of documents that are like one another. If the places of the one are the same in the other, and the same
    tokens touch, the same is told of both, fault by fault and place by place, however many faults there are
    (`parse_told`): readers never look at how a name is spelled. -/

namespace Abnf

variable (κ : Likeness)

structure Diagnostic.Related.Like (r r' : Diagnostic.Related) : Prop where
  message : r.message = r'.message
  span : r.span.Like κ r'.span

/-- The same is told of related places, perhaps worded with another name. --/
structure Diagnostic.Like (d d' : Diagnostic) : Prop where
  kind : d.kind = d'.kind
  severity : d.severity = d'.severity
  span : d.span.Like κ d'.span
  fix : d.fix = d'.fix
  related : List.Forall₂ (Related.Like κ) d.related d'.related
  hints : d.hints = d'.hints

variable {κ}

namespace Diagnostic.Like

variable {d d' : Diagnostic}

theorem of (kind : Kind) {s s' : Span} (h : s.Like κ s') : (Diagnostic.of kind s).Like κ (.of kind s') :=
  ⟨rfl, rfl, h, rfl, .nil, rfl⟩

theorem detailed (h : d.Like κ d') (detail detail' : String) : (d.detailed detail).Like κ (d'.detailed detail') :=
  ⟨h.kind, h.severity, h.span, h.fix, h.related, h.hints⟩

theorem withSeverity (h : d.Like κ d') (severity : Severity) : (d.withSeverity severity).Like κ (d'.withSeverity severity) :=
  ⟨h.kind, rfl, h.span, h.fix, h.related, h.hints⟩

theorem relatedTo (h : d.Like κ d') (message : String) {s s' : Span} (hs : s.Like κ s') :
    (d.relatedTo message s).Like κ (d'.relatedTo message s') :=
  ⟨h.kind, h.severity, h.span, h.fix, List.rel_append h.related (.cons ⟨rfl, hs⟩ .nil), h.hints⟩

theorem withFix (h : d.Like κ d') (description replacement : String) :
    (d.withFix description replacement).Like κ (d'.withFix description replacement) :=
  ⟨h.kind, h.severity, h.span, rfl, h.related, h.hints⟩

theorem isError (h : d.Like κ d') : d.isError = d'.isError := congrArg (· == Severity.error) h.severity

theorem hasErrors {ds ds' : List Diagnostic} (h : List.Forall₂ (Diagnostic.Like κ) ds ds') :
    hasErrors ds = hasErrors ds' := by
  induction h with
  | nil => rfl
  | cons hd _ ih => exact congrArg₂ (· || ·) hd.isError ih

end Diagnostic.Like

/-! ### Lexemes that touch -/

/-- Lexemes that are like one another, with trivia before both of them or before none. --/
structure Lexeme.Beside (κ : Likeness) (l l' : Lexeme) : Prop extends Lexeme.Like κ l l' where
  touching : l.leading.isEmpty = l'.leading.isEmpty

/-- What touches in the one document touches in the other. --/
theorem Tiles.along : ∀ {ls ls' : List Lexeme} {pos stop : Nat}, Tiles pos ls stop →
    List.Forall₂ (Lexeme.Beside κ) ls ls' → Along κ ls ls'
  | [], _, _, _, _, .nil => .nil
  | [_], _, _, _, _, .cons h .nil => .single h.toLike
  | l :: m :: ls, _, _, _, ⟨_, _, htiles⟩, .cons h (.cons (b := m') hm hs) => by
    refine .cons h.toLike (htiles.1 ▸ Nat.le_add_right _ _) (fun _ hnil => ?_) (htiles.along (.cons hm hs))
    have htouching := hm.touching
    rw [hnil] at htouching
    exact List.isEmpty_iff.mp htouching.symm

namespace Parser

/-- Nothing is asked of trees but that both are there. --/
theorem treewise_isEmpty : Treewise fun ts ts' => ts.isEmpty = ts'.isEmpty where
  nil := rfl
  append {ts ts' _ _} h hs := by
    cases ts <;> cases ts'
    · exact hs
    · cases h
    · cases h
    · rfl
  node _ _ := rfl
  isEmpty h := h

/-- Two runs that have the same ahead and have told the same. --/
structure State.Like (κ : Likeness) (s s' : State) : Prop where
  rest : List.Forall₂ (Lexeme.Beside κ) s.rest s'.rest
  lastStop : κ.placed s.lastStop s'.lastStop
  tooDeep : s.tooDeep = s'.tooDeep
  reported : s.reported = s'.reported
  diagnostics : List.Forall₂ (Diagnostic.Like κ) s.diagnostics s'.diagnostics

theorem Marks.like {f : Span → Diagnostic} (hf : Marks f) {p p' : Span} (h : p.Like κ p') : (f p).Like κ (f p') := by
  have hmoved := hf.moved p p'
  have hrelated : List.Forall₂ (Diagnostic.Related.Like κ) (f p).related (f p').related := by
    rw [hf.alone, hf.alone]
    exact .nil
  refine ⟨?_, ?_, ?_, ?_, hrelated, ?_⟩
  · rw [hmoved]
  · rw [hmoved]
  · rwa [hf.span, hf.span]
  · rw [hmoved]
  · rw [hmoved]

namespace State.Like

variable {s s' : State}

theorem report (h : s.Like κ s') (offset : Nat) {d d' : Diagnostic} (hd : d.Like κ d') :
    (s.report offset d).Like κ (s'.report offset d') := by
  rw [State.report, State.report, h.reported]
  split
  · exact h
  · exact ⟨h.rest, h.lastStop, h.tooDeep, rfl, List.rel_append h.diagnostics (.cons hd .nil)⟩

theorem take (h : s.Like κ s') : s.take.2.Like κ s'.take.2 := by
  have hrest := h.rest
  rw [State.take, State.take]
  rcases hs : s.rest with _ | ⟨l, ls⟩ <;> rcases hs' : s'.rest with _ | ⟨l', ls'⟩ <;> rw [hs, hs'] at hrest
  · exact h
  · cases hrest
  · cases hrest
  · cases hrest with
    | cons hl hls => exact ⟨hls, hl.span.stop, h.tooDeep, h.reported, h.diagnostics⟩

theorem blanks (h : s.Like κ s') : s.blanks.2.Like κ s'.blanks.2 := by
  have hrest := h.rest
  rw [State.blanks, State.blanks]
  rcases hs : s.rest with _ | ⟨l, ls⟩ <;> rcases hs' : s'.rest with _ | ⟨l', ls'⟩ <;> rw [hs, hs'] at hrest
  · exact h
  · cases hrest
  · cases hrest
  · cases hrest with
    | cons hl hls =>
      exact ⟨.cons ⟨⟨hl.kind, hl.text, hl.name, hl.span, hl.opensLine⟩, rfl⟩ hls, h.lastStop, h.tooDeep, h.reported,
        h.diagnostics⟩

theorem takeAll (h : s.Like κ s') : s.takeAll.2.Like κ s'.takeAll.2 := by
  have hlast : ∀ {ls ls' : List Lexeme} {n n' : Nat}, List.Forall₂ (Lexeme.Beside κ) ls ls' → κ.placed n n' →
      κ.placed ((ls.getLast?.map fun l => l.span.stop).getD n) ((ls'.getLast?.map fun l => l.span.stop).getD n') := by
    intro ls ls' n n' hls hn
    induction hls with
    | nil => exact hn
    | cons hl hls ih =>
      cases hls with
      | nil => exact hl.span.stop
      | cons => rwa [List.getLast?_cons_cons, List.getLast?_cons_cons]
  exact ⟨.nil, hlast h.rest h.lastStop, h.tooDeep, h.reported, h.diagnostics⟩

end State.Like

variable (hκ : ∀ {n n' : Nat}, κ.placed n n' → n = n')
include hκ

theorem unclosed_like (b : Bracket) {l l' : Lexeme} (hl : l.span.Like κ l'.span) {n n' : Nat} (hn : κ.placed n n') :
    (unclosed b l n).Like κ (unclosed b l' n') := by
  have hstop : κ.placed (max n l.span.stop) (max n' l'.span.stop) := by
    rw [← hκ hn, ← hκ hl.stop]
    rcases Nat.le_total n l.span.stop with hle | hle
    · rw [Nat.max_eq_right hle]
      exact hκ hl.stop ▸ hl.stop
    · rw [Nat.max_eq_left hle]
      exact hκ hn ▸ hn
  have hspan : Span.Like κ ⟨l.start, max n l.span.stop⟩ ⟨l'.start, max n' l'.span.stop⟩ :=
    ⟨hl.start, hstop, Nat.le_trans hl.order (Nat.le_max_right _ _)⟩
  exact (Diagnostic.Like.of b.unclosed hspan).relatedTo b.openedHere hl

theorem parallel_like {σ σ' : Scope} (hlimit : σ.limit = σ'.limit) (hnext : σ.next = σ'.next) :
    Parallel σ σ' (Lexeme.Beside κ) (fun ts ts' => ts.isEmpty = ts'.isEmpty) (State.Like κ) (State.Like κ) where
  limit := hlimit
  trees := treewise_isEmpty
  kind h := h.kind
  touching h := h.touching
  leaf _ := rfl
  leading h := by rw [Lexeme.blanks, Lexeme.blanks, List.isEmpty_map, List.isEmpty_map, h.touching]
  rest h := h.rest
  tooDeep h := h.tooDeep
  weaken h := h
  ahead h _ := h
  take h := h.take
  blanks h := h.blanks
  takeAll h := h.takeAll
  deepen h := ⟨h.rest, h.lastStop, rfl, h.reported, h.diagnostics⟩
  missing {s s' f} hf h := by
    have hspan : (Span.empty s.lastStop).Like κ (.empty s'.lastStop) := ⟨h.lastStop, h.lastStop, Nat.le_refl _⟩
    rw [State.tell, State.tell, hf.span, hf.span, ← hκ hspan.start]
    exact h.report _ (hf.like hspan)
  marked {s s' l l' f} hf h hl := by
    rw [State.tell, State.tell, hf.span, hf.span, ← hκ hl.span.start]
    exact h.report _ (hf.like hl.span)
  unclosed {s₀ s₀' s s' l l' ls ls'} b h₀ hl hl' h _ := by
    have hopening := h₀.rest
    rw [hl, hl'] at hopening
    have hnoticed : noticed σ s = noticed σ' s' := by
      have hrest := h.rest
      rw [noticed, noticed]
      generalize s.rest = ks at hrest ⊢
      generalize s'.rest = ks' at hrest ⊢
      cases hrest with
      | nil => exact hnext
      | cons hk _ => exact hκ hk.span.start
    cases hopening with
    | cons hopen _ =>
    rw [hnoticed]
    exact h.report _ (unclosed_like hκ b hopen.span h.lastStop)

/-- The same is told of a chunk. --/
theorem chunk_told {σ σ' : Scope} (hlimit : σ.limit = σ'.limit) (hnext : σ.next = σ'.next) {c c' : Chunk}
    (h : List.Forall₂ (Lexeme.Beside κ) c.lexemes c'.lexemes) (reported : Option Nat) :
    (chunk σ reported c).2.Like κ (chunk σ' reported c').2 := by
  have par := parallel_like hκ hlimit hnext
  have hhead : Lexeme.Beside κ c.head c'.head := by
    cases h with
    | cons hl _ => exact hl
  have hfront : (front reported c).Like κ (front reported c') := ⟨h, hhead.span.start, rfl, rfl, .nil⟩
  rw [chunk_eq, chunk_eq, hhead.kind]
  dsimp only
  split
  · exact (par.together_rule hfront.blanks).2
  · have hf : ∀ x ∈ some Diagnostic.Kind.expectedRuleName, Marks (Diagnostic.of x) := by
      rintro _ ⟨⟩
      exact marks_of _ (by decide)
    exact (par.together_leftover _ hf hfront).2

theorem document_told (limit stop : Nat) {cs cs' : List Chunk}
    (h : List.Forall₂ (fun c c' : Chunk => List.Forall₂ (Lexeme.Beside κ) c.lexemes c'.lexemes) cs cs') :
    ∀ reported, List.Forall₂ (Diagnostic.Like κ) (document limit stop reported cs).2 (document limit stop reported cs').2 := by
  induction h with
  | nil => exact fun _ => .nil
  | @cons c c' cs cs' hc hcs ih =>
    intro reported
    have hnext : (cs.head?.map fun c => c.head.start).getD stop = (cs'.head?.map fun c => c.head.start).getD stop := by
      cases hcs with
      | nil => rfl
      | cons hd _ =>
        cases hd with
        | cons hl _ => exact hκ hl.span.start
    rw [document, document, hnext]
    have hchunk := chunk_told hκ (σ := ⟨limit, (cs'.head?.map fun c => c.head.start).getD stop⟩) rfl rfl hc reported
    dsimp only
    rw [← hchunk.reported]
    exact List.rel_append hchunk.diagnostics (ih _)

end Parser

/-- The same is told of documents whose lexemes are at the same places and touch where the others do. --/
theorem parse_told (hκ : ∀ {n n' : Nat}, κ.placed n n' → n = n') {source source' : String}
    (h : List.Forall₂ (Lexeme.Beside κ) (lexemes (tokenize source)).1 (lexemes (tokenize source')).1)
    (hsize : source.utf8ByteSize = source'.utf8ByteSize) (limit : Nat) :
    List.Forall₂ (Diagnostic.Like κ) (parse source limit).diagnostics (parse source' limit).diagnostics := by
  rw [parse, parse, hsize]
  exact Parser.document_told hκ _ _ (forall₂_chunks (fun _ _ hl => hl.opensLine) h) none

end Abnf
