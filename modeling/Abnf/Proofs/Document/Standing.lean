import Abnf.Proofs.Document.Acceptance
import Abnf.Proofs.Document.Leaves
import Abnf.Proofs.Document.Machine
import Abnf.Proofs.Document.Tokens

/-! Where the machine of `Machine` stands among the tokens, and what it sees from there: the lexemes ahead, with what is
    in its buffer as the trivia before the first (`Ahead`). So it stands where a reader of a chunk does (`Stands`), and
    gets to where the reader gets with the trees that the reader makes (`Reaches`). -/

namespace Abnf

theorem length_chunks (ls : List Lexeme) : (chunks ls).length ≤ ls.length := by
  have hall : ∀ cs : List Chunk, cs.length ≤ (cs.flatMap Chunk.lexemes).length := by
    intro cs
    induction cs with
    | nil => exact Nat.le_refl _
    | cons c cs ih =>
      rw [List.flatMap_cons, List.length_append, List.length_cons, Chunk.lexemes, List.length_cons]
      omega
  exact (flatMap_chunks ls ▸ hall (chunks ls) :)

namespace Parser.State

variable {s : State} {l : Lexeme} {rest : List Lexeme}

theorem takeAll_nil (h : s.rest = []) : s.takeAll = ([], s) := by
  obtain ⟨_, _, _, _, _⟩ := s
  cases h
  rfl

theorem takeAll_cons (h : s.rest = l :: rest) :
    s.takeAll = (s.take.1 ++ s.take.2.takeAll.1, s.take.2.takeAll.2) := by
  rw [take_cons h, takeAll, h, List.flatMap_cons]
  cases rest <;> rfl

theorem blanks_bare (h : s.rest = l :: rest) (hlead : l.leading = []) : s.blanks = ([], s) := by
  obtain ⟨leading, token, start, opens⟩ := l
  obtain rfl : leading = [] := hlead
  rw [blanks_cons h, past_nil h]
  rfl

end Parser.State

namespace Parser.Machine

open Checked

variable {β μ : Type} {B : Builder β μ} {doc : Input} {ts trailing : List Token} {m m' : State β}
  {l : Lexeme} {ls later : List Lexeme} {stop : Nat}

/-! ### What lies ahead -/

/-- From its place, with what is in its buffer, the machine sees these lexemes and the trivia after them. --/
structure Ahead (ts : List Token) (m : State β) (ls : List Lexeme) (trailing : List Token) (stop : Nat) : Prop where
  le : m.position ≤ ts.length
  view : lexemesFrom (Token.total (ts.take m.position)) m.buffer (opensLine (ts.take m.position)) (ts.drop m.position) =
    (ls, trailing)
  last : Token.lastStop (ts.take m.position) = stop

/-- There is no trivia at the place itself. --/
def Bare (ts : List Token) (m : State β) : Prop := ∀ t ∈ (ts.drop m.position).head?, t.kind.isTrivia = false

theorem take_skipped (ts : List Token) (n : Nat) (p : Token → Bool) :
    ts.take (n + ((ts.drop n).takeWhile p).length) = ts.take n ++ (ts.drop n).takeWhile p := by
  rw [List.take_add, ← List.prefix_iff_eq_take.mp (List.takeWhile_prefix p)]

theorem drop_skipped (ts : List Token) (n : Nat) (p : Token → Bool) :
    ts.drop (n + ((ts.drop n).takeWhile p).length) = (ts.drop n).dropWhile p := by
  rw [← List.drop_drop]
  exact List.append_cancel_left ((List.prefix_iff_eq_append.mp (List.takeWhile_prefix p)).trans
    List.takeWhile_append_dropWhile.symm)

section
variable (hdoc : doc.tokens = Token.spans 0 ts)
include hdoc

theorem here_eq (p : TokenKind → Bool) (m : State β) : here doc p m = (ts.drop m.position).head?.any fun t => p t.kind := by
  have hlookup : doc.tokens[m.position]?.map Prod.fst = (ts.drop m.position).head? := by
    rw [hdoc, ← List.getElem?_map, Token.map_fst_spans, List.head?_drop]
  rw [here, ← hlookup, Option.any_map]

theorem skip_eq (m : State β) : skip doc m =
    { m with buffer := m.buffer ++ (ts.drop m.position).takeWhile (·.kind.isTrivia),
             position := m.position + ((ts.drop m.position).takeWhile (·.kind.isTrivia)).length } := by
  rw [skip, List.map_drop, hdoc, Token.map_fst_spans]

theorem bare_skip (m : State β) : Bare ts (skip doc m) := by
  intro t ht
  rw [skip_eq hdoc, drop_skipped] at ht
  have hnot := List.head?_dropWhile_not (fun t : Token => t.kind.isTrivia) (ts.drop m.position)
  rw [ht] at hnot
  exact hnot

theorem skip_of_bare (hbare : Bare ts m) : skip doc m = m := by
  have hnil : (ts.drop m.position).takeWhile (·.kind.isTrivia) = [] := by
    rcases hdrop : ts.drop m.position with _ | ⟨t, us⟩
    · rfl
    · rw [List.takeWhile_cons, if_neg]
      rw [hbare t (by rw [hdrop]; rfl)]
      exact Bool.false_ne_true
  rw [skip_eq hdoc, hnil, List.append_nil]
  rfl

theorem Ahead.skip (h : Ahead ts m ls trailing stop) : Ahead ts (skip doc m) ls trailing stop := by
  have hws : ∀ w ∈ (ts.drop m.position).takeWhile (·.kind.isTrivia), w.kind.isTrivia = true := fun w hw =>
    List.mem_takeWhile_imp (p := fun t : Token => t.kind.isTrivia) hw
  rw [skip_eq hdoc]
  refine ⟨?_, ?_, ?_⟩
  · have hlen := (List.takeWhile_prefix (fun t : Token => t.kind.isTrivia) (l := ts.drop m.position)).length_le
    rw [List.length_drop] at hlen
    have hle := h.le
    dsimp only
    omega
  · dsimp only
    rw [drop_skipped, take_skipped, ← lexemesFrom_trivia hws, List.takeWhile_append_dropWhile]
    exact h.view
  · dsimp only
    rw [take_skipped, Token.lastStop_append hws]
    exact h.last

end

theorem Ahead.nil (h : Ahead ts m [] trailing stop) (hbare : Bare ts m) :
    ts.drop m.position = [] ∧ m.buffer = trailing := by
  have hview := h.view
  rcases hdrop : ts.drop m.position with _ | ⟨t, us⟩
  · rw [hdrop, lexemesFrom] at hview
    exact ⟨rfl, congrArg Prod.snd hview⟩
  · have ht : t.kind.isTrivia = false := hbare t (by rw [hdrop]; rfl)
    rw [hdrop, lexemesFrom, if_neg (by simp [ht])] at hview
    cases congrArg Prod.fst hview

/-- In front of a token that matters the machine sees it as it stands, with what is in the buffer before it. --/
theorem Ahead.cons (h : Ahead ts m (l :: ls) trailing stop) (hbare : Bare ts m) :
    ts.drop m.position = l.token :: ts.drop (m.position + 1) ∧ l.token.kind.isTrivia = false ∧
      l = ⟨m.buffer, l.token, Token.total (ts.take m.position), opensLine (ts.take m.position)⟩ ∧
      lexemesFrom l.span.stop [] false (ts.drop (m.position + 1)) = (ls, trailing) := by
  have hview := h.view
  rcases hdrop : ts.drop m.position with _ | ⟨t, us⟩
  · rw [hdrop, lexemesFrom] at hview
    cases congrArg Prod.fst hview
  · have ht : t.kind.isTrivia = false := hbare t (by rw [hdrop]; rfl)
    have hus : ts.drop (m.position + 1) = us := by rw [← List.drop_drop, hdrop, List.drop_one, List.tail_cons]
    rw [hdrop, lexemesFrom, if_neg (by simp [ht])] at hview
    obtain ⟨hlexemes, rfl⟩ := Prod.mk.inj hview
    obtain ⟨rfl, rfl⟩ := List.cons.inj hlexemes
    exact ⟨congrArg (t :: ·) hus.symm, ht, rfl, by rw [hus]; rfl⟩

/-- The trivia in the buffer is handed over. --/
theorem Ahead.drain (h : Ahead ts m (l :: ls) trailing stop) (hbare : Bare ts m) :
    B.Places l.blanks m.builder (Machine.drain B m).builder ∧
      Ahead ts (Machine.drain B m) ({ l with leading := [] } :: ls) trailing stop := by
  obtain ⟨hdrop, htoken, hl, hview⟩ := h.cons hbare
  have hbuffer : m.buffer = l.leading := (congrArg Lexeme.leading hl).symm
  refine ⟨?_, h.le, ?_, h.last⟩
  · rw [Lexeme.blanks, ← hbuffer]
    exact Builder.places_leaves m.buffer m.builder
  · have hstart : l.start = Token.total (ts.take m.position) := congrArg Lexeme.start hl
    have hopens : l.opensLine = opensLine (ts.take m.position) := congrArg Lexeme.opensLine hl
    rw [Machine.drain, hdrop, lexemesFrom, if_neg (by simp [htoken]), ← hstart, ← hopens]
    have hview : lexemesFrom (l.start + l.token.size) [] false (ts.drop (m.position + 1)) = (ls, trailing) := hview
    rw [hview]

theorem Ahead.report (h : Ahead ts m ls trailing stop) (offset : Nat) (d : Diagnostic) :
    Ahead ts (report offset d m) ls trailing stop := by
  rw [Machine.report]
  split
  · exact h
  · exact ⟨h.le, h.view, h.last⟩

section
variable (hdoc : doc.tokens = Token.spans 0 ts)
include hdoc

theorem Ahead.lookup (h : Ahead ts m ls trailing stop) (hbare : Bare ts m) :
    doc.tokens[m.position]? = ls.head?.map fun l => (l.token, l.span) := by
  rw [← List.head?_drop, hdoc, Token.drop_spans ts h.le]
  cases ls with
  | nil =>
    rw [(h.nil hbare).1]
    rfl
  | cons l ls =>
    obtain ⟨hdrop, -, hl, -⟩ := h.cons hbare
    have hstart : l.start = Token.total (ts.take m.position) := congrArg Lexeme.start hl
    rw [hdrop, ← hstart]
    rfl

theorem Ahead.here (h : Ahead ts m ls trailing stop) (hbare : Bare ts m) (p : TokenKind → Bool) :
    here doc p m = ls.head?.any fun l => p l.kind := by
  rw [Machine.here, h.lookup hdoc hbare, Option.any_map]
  rfl

theorem Ahead.atEnd (h : Ahead ts m ls trailing stop) (hbare : Bare ts m) : atEnd doc m = ls.isEmpty := by
  have hlookup := h.lookup hdoc hbare
  rw [Machine.atEnd]
  cases ls with
  | nil => exact decide_eq_true (List.getElem?_eq_none_iff.mp hlookup)
  | cons l ls => exact decide_eq_false (Nat.not_le.mpr (List.getElem?_eq_some_iff.mp hlookup).1)

theorem Ahead.opensRule (h : Ahead ts m ls trailing stop) :
    opensRule doc m = .ok (ls.head?.any (·.opensLine), Machine.skip doc m) := by
  have h := h.skip hdoc
  have hbare := bare_skip hdoc m
  rw [Machine.opensRule]
  dsimp only
  rw [h.atEnd hdoc hbare]
  generalize Machine.skip doc m = m at h hbare
  cases ls with
  | nil => rfl
  | cons l ls =>
    obtain ⟨-, -, hl, -⟩ := h.cons hbare
    have hopens : l.opensLine = opensLine (ts.take m.position) := congrArg Lexeme.opensLine hl
    rw [if_neg (by simp), List.head?_cons, Option.any_some, hopens]
    split
    · rename_i hzero
      rw [hzero]
      rfl
    · rename_i hpos
      have hle := h.le
      have hlt : m.position - 1 < ts.length := by omega
      have htake : ts.take m.position = ts.take (m.position - 1) ++ [ts[m.position - 1]] := by
        rw [List.take_append_getElem]
        congr 1
        omega
      have hlast : doc.tokens[m.position - 1]?.map Prod.fst = some ts[m.position - 1] := by
        rw [hdoc, ← List.getElem?_map, Token.map_fst_spans, List.getElem?_eq_getElem hlt]
      obtain ⟨⟨t, span⟩, ht, htoken⟩ := Option.map_eq_some_iff.mp hlast
      rw [ht, present_some, ok_bind, htake, opensLine_snoc, ← htoken]
      rfl

theorem Ahead.afterLast (h : Ahead ts m ls trailing stop) : afterLast doc m = .ok stop := by
  have hle : m.position ≤ doc.tokens.length := by
    rw [hdoc, Token.length_spans]
    exact h.le
  rw [Machine.afterLast, ensure_eq (decide_eq_true hle), ok_bind, hdoc, Token.take_spans ts h.le]
  exact congrArg Except.ok h.last

/-- A token is taken, after the trivia in the buffer. --/
theorem Ahead.bump (h : Ahead ts m (l :: ls) trailing stop) (hbare : Bare ts m) : ∃ b, B.Places l.leaves m.builder b ∧
    bump B doc m = .ok { m with builder := b, buffer := [], position := m.position + 1 } ∧
    Ahead ts { m with builder := b, buffer := [], position := m.position + 1 } ls trailing l.span.stop ∧
    opensLine (ts.take (m.position + 1)) = false := by
  obtain ⟨hdrop, htoken, hl, hview⟩ := h.cons hbare
  have hbuffer : m.buffer = l.leading := (congrArg Lexeme.leading hl).symm
  have hstart : l.start = Token.total (ts.take m.position) := congrArg Lexeme.start hl
  have hlt : m.position < ts.length := by
    have hlen := congrArg List.length hdrop
    rw [List.length_drop, List.length_cons] at hlen
    omega
  have htake : ts.take (m.position + 1) = ts.take m.position ++ [l.token] := by
    rw [List.take_add, hdrop]
    rfl
  have hopens : opensLine (ts.take (m.position + 1)) = false := by
    rw [htake, opensLine_snoc]
    cases hkind : l.token.kind <;> first | rfl | exact absurd (hkind ▸ htoken) (by decide)
  have hplaces : B.Places l.leaves m.builder (B.leaf l.token (Machine.drain B m).builder) := by
    rw [Lexeme.leaves, Lexeme.blanks, ← hbuffer]
    exact (Builder.places_leaves m.buffer m.builder).append (Builder.places_leaf l.token _)
  refine ⟨_, hplaces, ?_, ⟨hlt, ?_, ?_⟩, hopens⟩
  · have hend : Machine.atEnd doc m = false := h.atEnd hdoc hbare
    have hlookup : doc.tokens[m.position]? = some (l.token, l.span) := h.lookup hdoc hbare
    rw [Machine.bump, hend]
    dsimp only [Machine.drain]
    rw [ensure_eq (c := !false) rfl, ok_bind, hlookup, present_some, ok_bind]
    rfl
  · dsimp only
    rw [hopens, htake, Token.total_snoc, ← hstart]
    exact hview
  · dsimp only
    rw [htake, Token.lastStop_snoc htoken, ← hstart]
    rfl

end

/-! ### The machine and the readers -/

/-- What surrounds a chunk: all the tokens, the lexemes and the trivia after the chunk, and what was told before it. --/
structure Site where
  tokens : List Token
  later : List Lexeme
  trailing : List Token
  told : List Diagnostic

/-- The machine stands where a reader of a chunk does. --/
structure Stands (k : Site) (m : State β) (s : Parser.State) : Prop where
  ahead : Ahead k.tokens m (s.rest ++ k.later) k.trailing s.lastStop
  inside : ∀ l ∈ s.rest, l.opensLine = false
  beyond : ∀ l ∈ k.later.head?, l.opensLine = true
  tooDeep : m.tooDeep = s.tooDeep
  reported : m.reported = s.reported
  diagnostics : m.diagnostics = k.told ++ s.diagnostics

/-- The machine gets to where a reader gets, with the trees that the reader makes. --/
structure Reaches (B : Builder β μ) (k : Site) (m : State β) (x : List Tree × Parser.State) (m' : State β) : Prop where
  stands : Stands k m' x.2
  places : B.Places x.1 m.builder m'.builder
  depth : m'.depth = m.depth

/-- Nothing is in the buffer, and what comes next in the chunk, if anything, may touch what was taken last. --/
structure Near (k : Site) (m : State β) (s : Parser.State) : Prop where
  buffer : m.buffer = []
  opens : s.rest = [] → opensLine (k.tokens.take m.position) = false

variable {k : Site} {s s' s'' : Parser.State} {x : List Tree × Parser.State} {us vs : List Tree}
  {p : TokenKind → Bool} {rest : List Lexeme}

namespace Reaches

theorem refl (h : Stands k m s) : Reaches B k m ([], s) m := ⟨h, .nil _, rfl⟩

theorem trans {m'' : State β} (h : Reaches B k m (us, s) m') (h' : Reaches B k m' (vs, s') m'') :
    Reaches B k m (us ++ vs, s') m'' := ⟨h'.stands, h.places.append h'.places, h'.depth.trans h.depth⟩

end Reaches

namespace Stands

/-- Where the machine stands has nothing to do with its builder. --/
theorem withBuilder (h : Stands k m s) (b : β) : Stands k { m with builder := b } s :=
  ⟨⟨h.ahead.le, h.ahead.view, h.ahead.last⟩, h.inside, h.beyond, h.tooDeep, h.reported, h.diagnostics⟩

theorem withDepth (h : Stands k m s) (depth : Nat) : Stands k { m with depth } s :=
  ⟨⟨h.ahead.le, h.ahead.view, h.ahead.last⟩, h.inside, h.beyond, h.tooDeep, h.reported, h.diagnostics⟩

theorem withTooDeep (h : Stands k m s) (tooDeep : Bool) : Stands k { m with tooDeep } { s with tooDeep } :=
  ⟨⟨h.ahead.le, h.ahead.view, h.ahead.last⟩, h.inside, h.beyond, rfl, h.reported, h.diagnostics⟩

theorem report (h : Stands k m s) (offset : Nat) (d : Diagnostic) :
    Stands k (Machine.report offset d m) (s.report offset d) := by
  rw [Machine.report, Parser.State.report, h.reported]
  split
  · exact h
  · refine ⟨⟨h.ahead.le, h.ahead.view, h.ahead.last⟩, h.inside, h.beyond, h.tooDeep, rfl, ?_⟩
    dsimp only
    rw [h.diagnostics, List.append_assoc]

theorem length_le (h : Stands k m s) : s.rest.length ≤ k.tokens.length := by
  have hlen := length_lexemesFrom (k.tokens.drop m.position) (Token.total (k.tokens.take m.position)) m.buffer
    (opensLine (k.tokens.take m.position))
  rw [h.ahead.view, List.length_append, List.length_drop] at hlen
  omega

section
variable (hdoc : doc.tokens = Token.spans 0 k.tokens)
include hdoc

theorem skip (h : Stands k m s) : Stands k (skip doc m) s where
  ahead := h.ahead.skip hdoc
  inside := h.inside
  beyond := h.beyond
  tooDeep := h.tooDeep
  reported := h.reported
  diagnostics := h.diagnostics

theorem opensRule (h : Stands k m s) :
    opensRule doc m = .ok (s.rest.isEmpty && !k.later.isEmpty, Machine.skip doc m) := by
  rw [h.ahead.opensRule hdoc]
  rcases hrest : s.rest with _ | ⟨l, ls⟩
  · rcases hlater : k.later with _ | ⟨l, ls⟩
    · rfl
    · exact congrArg (fun b => Except.ok (b, _)) (h.beyond l (by rw [hlater]; rfl))
  · exact congrArg (fun b => Except.ok (b, _)) (h.inside l (by rw [hrest]; exact List.mem_cons_self))

theorem continues (h : Stands k m s) (p : TokenKind → Bool) :
    continues doc p m = .ok (s.sees p, Machine.skip doc m) := by
  have hskip := h.skip hdoc
  have hbare := bare_skip hdoc m
  rw [Machine.continues]
  dsimp only
  rw [hskip.ahead.here hdoc hbare, hskip.opensRule hdoc, skip_of_bare hdoc hbare, Parser.State.sees]
  rcases hrest : s.rest with _ | ⟨l, ls⟩
  · rcases hlater : k.later with _ | ⟨l, ls⟩
    · rfl
    · cases hp : p l.kind
      · simp [hp]
        rfl
      · simp [hp]
  · cases hp : p l.kind
    · simp [hp]
      rfl
    · simp [hp]

/-- Where nothing but a line's end could part two tokens, what touches is what is there. --/
theorem touches (h : Stands k m s) (near : Near k m s) (hp : ∀ t, t.isTrivia = true → p t = false) :
    here doc p m = s.touches p := by
  have hview := h.ahead.view
  rw [here_eq hdoc, Parser.State.touches]
  rcases hdrop : k.tokens.drop m.position with _ | ⟨t, us⟩
  · rw [hdrop, lexemesFrom, near.buffer] at hview
    rw [(List.append_eq_nil_iff.mp (congrArg Prod.fst hview).symm).1]
    rfl
  · rw [List.head?_cons, Option.any_some]
    rw [hdrop, lexemesFrom, near.buffer] at hview
    split at hview
    · rename_i htrivia
      rw [hp _ htrivia]
      rcases hrest : s.rest with _ | ⟨l, ls⟩
      · rfl
      · have hprefix := leading_lexemesFrom us (Token.total (k.tokens.take m.position) + t.size) [t] (t.kind == .newline)
        rw [List.nil_append] at hview
        rw [hview, hrest] at hprefix
        have hne : l.leading ≠ [] := fun hnil => by
          have := hprefix l rfl
          rw [hnil] at this
          cases List.prefix_nil.mp this
        simp [hne]
    · rename_i htrivia
      have hall := congrArg Prod.fst hview
      rcases hrest : s.rest with _ | ⟨l, ls⟩
      · have hopens := near.opens hrest
        rw [hrest, hopens] at hall
        have hbeyond := h.beyond
        rw [← show _ = k.later from hall] at hbeyond
        cases hbeyond _ rfl
      · rw [hrest] at hall
        obtain ⟨rfl, -⟩ := List.cons.inj hall
        rfl

end

end Stands

/-! ### Moving on -/

section
variable (hdoc : doc.tokens = Token.spans 0 k.tokens)
include hdoc

theorem bump_reaches (h : Stands k m s) (hbare : Bare k.tokens m) (hrest : s.rest = l :: rest) :
    ∃ m', bump B doc m = .ok m' ∧ Reaches B k m s.take m' ∧ ∀ s', Near k m' s' := by
  have hahead := h.ahead
  rw [hrest, List.cons_append] at hahead
  obtain ⟨b, hplaces, hbump, hahead', hopens⟩ := hahead.bump (B := B) hdoc hbare
  rw [Parser.State.take_cons hrest]
  have hinside : ∀ l ∈ rest, l.opensLine = false := fun l hl => h.inside l (by rw [hrest]; exact List.mem_cons_of_mem _ hl)
  exact ⟨_, hbump, ⟨⟨hahead', hinside, h.beyond, h.tooDeep, h.reported, h.diagnostics⟩, hplaces, rfl⟩,
    fun _ => ⟨rfl, fun _ => hopens⟩⟩

end

theorem drain_stands (h : Stands k m s) (hbare : Bare k.tokens m) (hrest : s.rest = l :: rest) :
    Stands k (drain B m) s.blanks.2 ∧ B.Places s.blanks.1 m.builder (drain B m).builder := by
  have hahead := h.ahead
  rw [hrest, List.cons_append] at hahead
  obtain ⟨hplaces, hahead'⟩ := hahead.drain (B := B) hbare
  rw [Parser.State.blanks_cons hrest]
  have hinside := h.inside
  rw [hrest] at hinside
  obtain ⟨hl, hls⟩ := List.forall_mem_cons.mp hinside
  exact ⟨⟨hahead', List.forall_mem_cons.mpr ⟨hl, hls⟩, h.beyond, h.tooDeep, h.reported, h.diagnostics⟩, hplaces⟩

/-- A node begins after the trivia before it. --/
theorem enter_stands (h : Stands k m s) (hbare : Bare k.tokens m) (hrest : s.rest = l :: rest) (kind : NodeKind) :
    Stands k (enter B kind m) s.blanks.2 ∧ B.Places s.blanks.1 m.builder (drain B m).builder ∧
      Near k (enter B kind m) s.blanks.2 := by
  obtain ⟨hstands, hplaces⟩ := drain_stands (B := B) h hbare hrest
  refine ⟨hstands.withBuilder _, hplaces, rfl, fun hnil => ?_⟩
  rw [Parser.State.blanks_cons hrest] at hnil
  cases hnil

theorem enter_unbuffered (h : Stands k m s) (hbuffer : m.buffer = []) (kind : NodeKind) :
    Stands k (enter B kind m) s ∧ B.Places [] m.builder (drain B m).builder := by
  have hdrain : drain B m = m := by rw [drain, hbuffer, List.foldl_nil, ← hbuffer]
  rw [enter, hdrain]
  exact ⟨h.withBuilder _, .nil _⟩

/-- A node ends around the trees that were made since it began. --/
theorem Reaches.leave (sound : B.Sound) {kind : NodeKind} (h : Reaches B k (enter B kind m) (us, s') m')
    (hblanks : B.Places vs m.builder (drain B m).builder) :
    ∃ m'', leave B m' = .ok m'' ∧ Reaches B k m (vs ++ [.node kind us], s') m'' ∧ m''.buffer = m'.buffer ∧
      m''.position = m'.position := by
  obtain ⟨b, hb⟩ := sound.leave h.places
  refine ⟨{ m' with builder := b }, ?_, ⟨h.stands.withBuilder b, hblanks.append (h.places.node hb), h.depth⟩, rfl, rfl⟩
  rw [Machine.leave, hb]
  rfl

/-- A node begins at a mark, in front of trees that are made already. --/
theorem Reaches.enterAt (sound : B.Sound) (kind : NodeKind) (h : Reaches B k (drain B m) (us, s') m') :
    ∃ m'', enterAt B (B.mark (drain B m).builder) kind m' = .ok m'' ∧ Reaches B k (enter B kind m) (us, s') m'' := by
  obtain ⟨b, hb, hplaces⟩ := sound.wrap kind h.places
  refine ⟨{ m' with builder := b }, ?_, h.stands.withBuilder b, hplaces, h.depth⟩
  rw [Machine.enterAt, hb]
  rfl

theorem builder_report (offset : Nat) (d : Diagnostic) (m : State β) : (report offset d m).builder = m.builder := by
  rw [report]
  split <;> rfl

theorem depth_report (offset : Nat) (d : Diagnostic) (m : State β) : (report offset d m).depth = m.depth := by
  rw [report]
  split <;> rfl

theorem position_report (offset : Nat) (d : Diagnostic) (m : State β) : (report offset d m).position = m.position := by
  rw [report]
  split <;> rfl

theorem buffer_report (offset : Nat) (d : Diagnostic) (m : State β) : (report offset d m).buffer = m.buffer := by
  rw [report]
  split <;> rfl

theorem Reaches.report (h : Reaches B k m (us, s') m') (offset : Nat) (d : Diagnostic) :
    Reaches B k m (us, s'.report offset d) (Machine.report offset d m') where
  stands := h.stands.report offset d
  places := by
    rw [builder_report]
    exact h.places
  depth := (depth_report offset d m').trans h.depth

/-- Telling of a fault first makes no difference to the trees. --/
theorem Reaches.of_tell {d : Diagnostic} (h : Reaches B k (tell d m) x m') : Reaches B k m x m' where
  stands := h.stands
  places := by
    have hplaces := h.places
    rwa [tell, builder_report] at hplaces
  depth := h.depth.trans (depth_report _ d m)

section
variable (hdoc : doc.tokens = Token.spans 0 k.tokens)
include hdoc

/-- A loop that takes tokens up to the next rule takes all that is left of the chunk. --/
theorem bumpRest_reaches : ∀ (fuel : Nat) {m : State β} {s : Parser.State}, Stands k m s → s.rest.length < fuel →
    ∃ m', bumpRest B doc fuel m = .ok m' ∧ Reaches B k m s.takeAll m'
  | 0, _, _, _, hfuel => absurd hfuel (Nat.not_lt_zero _)
  | fuel + 1, m, s, h, hfuel => by
    have hskip := h.skip hdoc
    have hbare := bare_skip hdoc m
    have hend := hskip.ahead.atEnd hdoc hbare
    rw [bumpRest, h.opensRule hdoc, ok_bind]
    dsimp only
    rw [hend]
    rcases hrest : s.rest with _ | ⟨l, rest⟩
    · rw [if_pos (by cases k.later <;> rfl), Parser.State.takeAll_nil hrest]
      exact ⟨_, rfl, hskip, .nil _, rfl⟩
    · obtain ⟨m₁, hbump, hreach, -⟩ := bump_reaches (B := B) hdoc hskip hbare hrest
      have hlt : s.take.2.rest.length < fuel := by
        rw [Parser.State.take_cons hrest]
        rw [hrest, List.length_cons] at hfuel
        exact Nat.lt_of_succ_lt_succ hfuel
      obtain ⟨m₂, hrounds, hreach'⟩ := bumpRest_reaches fuel hreach.stands hlt
      rw [if_neg (by simp), hbump, ok_bind, hrounds, Parser.State.takeAll_cons hrest]
      refine ⟨m₂, rfl, ?_⟩
      have htrans := hreach.trans hreach'
      exact ⟨htrans.stands, htrans.places, htrans.depth⟩

end

end Parser.Machine
end Abnf
