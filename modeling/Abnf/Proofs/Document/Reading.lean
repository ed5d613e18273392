import Abnf.Document.Parser
import Abnf.Proofs.Document.Derivation
import Abnf.Proofs.Document.Lexemes
import Mathlib.Data.List.Forall2

/-! What derives an expression is read without a word, and the tree that is made of it is a view of the expression.
    Each reader is shown to do so if those it calls do; what may follow is what would not lead it on. -/

namespace Abnf

/-! ### Views -/

namespace Expr

theorem ofForest_append : ∀ (ts us : List Tree) (pos : Nat),
    ofForest pos (ts ++ us) = ofForest pos ts ++ ofForest (pos + Tree.sizes ts) us
  | [], us, pos => by rw [List.nil_append, ofForest, List.nil_append, Tree.sizes, Nat.add_zero]
  | t :: ts, us, pos => by
    rw [List.cons_append, ofForest, ofForest_append ts, ofForest, Tree.sizes, List.append_assoc, Nat.add_assoc]

theorem ofForest_leaves : ∀ (ts : List Token) (pos : Nat), ofForest pos (ts.map .leaf) = []
  | [], _ => rfl
  | t :: ts, pos => by rw [List.map_cons, ofForest, ofTree?, ofForest_leaves ts]; rfl

theorem ofForest_node (pos : Nat) (kind : NodeKind) (ts : List Tree) :
    ofForest pos [.node kind ts] = (ofTree? pos (.node kind ts)).toList := by
  rw [ofForest, ofForest, List.append_nil]

end Expr

/-- Trees from one offset to another that stand for some expressions. --/
structure Shows (pos stop : Nat) (trees : List Tree) (es : List Expr) : Prop where
  view : Expr.ofForest pos trees = es
  size : pos + Tree.sizes trees = stop

namespace Shows

variable {pos mid stop : Nat} {ts us : List Tree} {es fs : List Expr} {l : Lexeme}

theorem nil (pos : Nat) : Shows pos pos [] [] := ⟨rfl, rfl⟩

theorem append (h : Shows pos mid ts es) (h' : Shows mid stop us fs) : Shows pos stop (ts ++ us) (es ++ fs) where
  view := by rw [Expr.ofForest_append, h.size, h.view, h'.view]
  size := by rw [Tree.sizes_append, ← Nat.add_assoc, h.size, h'.size]

theorem blanks (h : l.start = pos + Tree.sizes l.blanks) : Shows pos l.start l.blanks [] :=
  ⟨Expr.ofForest_leaves _ _, h.symm⟩

theorem leaves (h : l.start = pos + Tree.sizes l.blanks) : Shows pos l.span.stop l.leaves [] :=
  (blanks h).append ⟨rfl, congrArg (l.start + ·) (Tree.sizes_singleton _)⟩

theorem ne_nil {e : Expr} (h : Shows pos stop ts (e :: es)) : ts ≠ [] := by
  rintro rfl
  cases h.view

/-- Trees under a node of their own. --/
theorem node {kind : NodeKind} {e : Expr} (h : Shows pos stop ts es)
    (he : Expr.ofTree? pos (.node kind ts) = some e) : Shows pos stop [.node kind ts] [e] where
  view := by rw [Expr.ofForest_node, he]; rfl
  size := by rw [Tree.sizes_singleton, Tree.size, h.size]

end Shows

namespace Parser

open Abnf.Derivation

/-! ### States -/

namespace State

/-- The state behind some lexemes and in front of others. --/
def past (s : State) (ls rest : List Lexeme) : State :=
  { s with rest, lastStop := (ls.getLast?.map fun l => l.span.stop).getD s.lastStop }

variable {s : State} {l : Lexeme} {ls ms rest rest' : List Lexeme}

@[simp] theorem rest_past : (s.past ls rest).rest = rest := rfl

@[simp] theorem past_past : (s.past ls rest).past ms rest' = s.past (ls ++ ms) rest' := by
  rw [past, past, past, List.getLast?_append]
  cases ms.getLast? <;> rfl

theorem past_nil (h : s.rest = rest) : s.past [] rest = s := by
  subst h
  rfl

theorem past_leading (leading : List Token) : s.past ({ l with leading } :: ls) rest = s.past (l :: ls) rest := by
  cases ls <;> rfl

theorem sees_cons (h : s.rest = l :: rest) (p : TokenKind → Bool) : s.sees p = p l.kind := by
  rw [sees, h, List.head?_cons, Option.any_some]

theorem touches_cons (h : s.rest = l :: rest) (hl : l.leading = []) (p : TokenKind → Bool) : s.touches p = p l.kind := by
  rw [touches, h, List.head?_cons, Option.any_some, hl, List.isEmpty_nil, Bool.true_and]

theorem take_cons (h : s.rest = l :: rest) : s.take = (l.leaves, s.past [l] rest) := by
  rw [take, h]
  rfl

theorem blanks_cons (h : s.rest = l :: rest) : s.blanks = (l.blanks, s.past [] ({ l with leading := [] } :: rest)) := by
  rw [blanks, h]
  rfl

end State

/-- Nothing follows that is of a kind in a class. --/
def Stops (p : TokenKind → Bool) (rest : List Lexeme) : Prop := ∀ l ∈ rest.head?, p l.kind = false

theorem Stops.sees {p : TokenKind → Bool} {s : State} (h : Stops p s.rest) : s.sees p = false := by
  rw [State.sees]
  cases hhead : s.rest.head? with
  | none => rfl
  | some l => exact h l hhead

/-! ### Readers -/

/-- What derives an expression is read as a tree of it, up to what may follow it. --/
def Reads (R : Reader) (D : List Lexeme → Expr → Prop) (Follow : List Lexeme → Prop) : Prop :=
  ∀ ⦃ls : List Lexeme⦄ ⦃e : Expr⦄, D ls e → ∀ (s : State) (rest : List Lexeme) (pos stop : Nat),
    s.rest = ls ++ rest → Tiles pos ls stop → Follow rest →
    ∃ trees, R s = (trees, s.past ls rest) ∧ Shows pos stop trees [e]

/-- The same where there is no trivia before the first token, and whatever follows. --/
def ReadsBare (R : Reader) (D : List Lexeme → Expr → Prop) : Prop :=
  ∀ ⦃l : Lexeme⦄ ⦃ls : List Lexeme⦄ ⦃e : Expr⦄, D (l :: ls) e → l.leading = [] →
    ∀ (s : State) (rest : List Lexeme) (stop : Nat), s.rest = l :: ls ++ rest → Tiles l.start (l :: ls) stop →
    ∃ trees, R s = (trees, s.past (l :: ls) rest) ∧ Shows l.start stop trees [e]

/-! ### Elements -/

theorem extent_eq {l : Lexeme} {ls : List Lexeme} {pos stop : Nat} (h : Tiles pos (l :: ls) stop) :
    extent (l :: ls) = ⟨l.start, stop⟩ := by
  rw [extent, List.head?_cons, h.stop_eq]
  rfl

theorem leaves_eq {l : Lexeme} (h : l.leading = []) : l.leaves = [.leaf l.token] := by
  rw [Lexeme.leaves, Lexeme.blanks, h]
  rfl

section
variable {σ : Scope} {body : Option Reader}

theorem single_cons {kind : NodeKind} {s : State} {l : Lexeme} {rest : List Lexeme} (hrest : s.rest = l :: rest)
    (hl : l.leading = []) : single kind s = ([.node kind [.leaf l.token]], s.past [l] rest) := by
  rw [single, State.take_cons hrest, leaves_eq hl]

theorem readsBare_simple : ReadsBare (elementWith σ body) Simple := by
  intro l ls e h hl s rest stop hrest htiles
  obtain ⟨-, -, hstop⟩ := htiles
  have hleaf : Shows l.start l.span.stop [.leaf l.token] [] := ⟨rfl, congrArg (l.start + ·) (Tree.sizes_singleton _)⟩
  have hword : ∀ kind, l.kind = kind → Tree.word? kind l.start [.leaf l.token] = some l.word := by
    rintro _ rfl
    simp [Tree.word?, Tree.token?, Tree.directTokens, Lexeme.kind, Lexeme.word, Lexeme.span]
  cases h with
  | ref h | str h | num h | prose h =>
    cases hstop
    rw [elementWith, hrest]
    dsimp only [List.cons_append]
    rw [h]
    exact ⟨_, single_cons hrest hl, hleaf.node (by rw [Expr.ofTree?, hword _ h]; rfl)⟩

/-- No token follows that would lead an alternation on. --/
def Ends (rest : List Lexeme) : Prop := Stops TokenKind.startsRepetition rest ∧ Stops (· == .slash) rest

theorem ends_closing {b : Bracket} {r : Lexeme} (hr : r.kind = b.closing) (rest : List Lexeme) : Ends (r :: rest) := by
  constructor <;> rintro _ ⟨⟩ <;> rw [hr] <;> cases b <;> rfl

/-- Neither branches nor what may follow them lead a concatenation on. --/
theorem stops_branches {E : List Lexeme → Expr → Prop} {ls rest : List Lexeme} {es : List Expr} (h : Branches E ls es)
    (hends : Ends rest) : Stops TokenKind.startsRepetition (ls ++ rest) := by
  cases h with
  | nil => exact hends.1
  | cons hslash =>
    rintro _ ⟨⟩
    rw [hslash]
    rfl

section
variable {A : List Lexeme → Expr → Prop} {body : Reader} (hbody : Reads body A Ends)
include hbody

theorem bracketed_reads (b : Bracket) {l r : Lexeme} {ls : List Lexeme} {e : Expr} (h : A ls e)
    (hr : r.kind = b.closing) (hl : l.leading = []) {s : State} {rest : List Lexeme} {stop : Nat}
    (hrest : s.rest = l :: (ls ++ [r]) ++ rest) (htiles : Tiles l.start (l :: (ls ++ [r])) stop) :
    ∃ trees, bracketed σ b l body s = ([.node b.node trees], s.past (l :: (ls ++ [r])) rest) ∧
      Shows l.start stop trees [e] := by
  obtain ⟨-, -, htiles⟩ := htiles
  obtain ⟨mid, hls, hstart, -, hstop⟩ := tiles_append.mp htiles
  cases hstop
  have hopen : s.rest = l :: (ls ++ r :: rest) := by rw [hrest]; simp
  obtain ⟨inner, hinner, hshows⟩ := hbody h (s.past [l] (ls ++ r :: rest)) (r :: rest) _ _ rfl hls (ends_closing hr rest)
  have hclose : ((s.past [l] (ls ++ r :: rest)).past ls (r :: rest)).sees (· == b.closing) = true := by
    rw [State.sees_cons rfl, hr]
    exact beq_self_eq_true _
  have hleft : Shows l.start l.span.stop l.leaves [] := .leaves (by rw [Lexeme.blanks, hl]; rfl)
  refine ⟨l.leaves ++ inner ++ r.leaves, ?_, (hleft.append hshows).append (.leaves hstart)⟩
  rw [bracketed, State.take_cons hopen]
  dsimp only
  rw [hinner]
  dsimp only
  rw [hclose, State.take_cons rfl]
  simp

theorem readsBare_bracketed : ReadsBare (elementWith σ (some body)) (Bracketed A) := by
  intro l ls e h hl s rest stop hrest htiles
  have hextent := extent_eq htiles
  cases h with
  | group hopen h hr =>
    obtain ⟨trees, hread, hshows⟩ := bracketed_reads (σ := σ) hbody .group h hr hl hrest htiles
    refine ⟨[.node .group trees], ?_, ?_⟩
    · rw [elementWith, hrest]
      dsimp only [List.cons_append]
      rw [hopen]
      exact hread
    · rw [hextent]
      exact hshows.node (by rw [Expr.ofTree?, hshows.view, hshows.size]; rfl)
  | optional hopen h hr =>
    obtain ⟨trees, hread, hshows⟩ := bracketed_reads (σ := σ) hbody .optional h hr hl hrest htiles
    refine ⟨[.node .optional trees], ?_, ?_⟩
    · rw [elementWith, hrest]
      dsimp only [List.cons_append]
      rw [hopen]
      exact hread
    · rw [hextent]
      exact hshows.node (by rw [Expr.ofTree?, hshows.view, hshows.size]; rfl)

end

end

/-! ### Repeats -/

/-- The tokens of lexemes without trivia, each with its span. --/
theorem directTokens_leaves : ∀ {ls : List Lexeme} {pos stop : Nat}, Tiles pos ls stop → (∀ l ∈ ls, l.leading = []) →
    Tree.directTokens pos (ls.flatMap Lexeme.leaves) = ls.map fun l => (l.token, l.span)
  | [], _, _, _, _ => rfl
  | l :: ls, pos, stop, ⟨hstart, _, h⟩, hlead => by
    have hl := hlead l List.mem_cons_self
    obtain rfl : l.start = pos := by rw [hstart, Lexeme.blanks, hl]; rfl
    rw [List.flatMap_cons, leaves_eq hl, List.singleton_append, Tree.directTokens,
      show l.start + l.token.size = l.span.stop from rfl,
      directTokens_leaves h fun m hm => hlead m (List.mem_cons_of_mem l hm)]
    rfl

theorem sizes_leaves : ∀ {ls : List Lexeme} {pos stop : Nat}, Tiles pos ls stop →
    pos + Tree.sizes (ls.flatMap Lexeme.leaves) = stop
  | [], _, _, h => h
  | l :: ls, pos, stop, ⟨hstart, _, h⟩ => by
    rw [List.flatMap_cons, Tree.sizes_append, ← Nat.add_assoc, (Shows.leaves hstart).size, sizes_leaves h]

theorem ofTrees_bounds {bs : List Lexeme} {count : Repeat} (h : Bounds bs count) {pos stop : Nat}
    (htiles : Tiles pos bs stop) (hlead : ∀ l ∈ bs, l.leading = []) :
    Repeat.ofTrees pos (bs.flatMap Lexeme.leaves) = count := by
  have hspan : (⟨pos, stop⟩ : Span) = extent bs := by
    obtain ⟨l, ms, rfl, -⟩ := h.begins
    rw [extent_eq htiles, htiles.1, Lexeme.blanks, hlead l List.mem_cons_self]
    rfl
  rw [Repeat.ofTrees, sizes_leaves htiles, directTokens_leaves htiles hlead, hspan]
  cases h with
  | @exact l h =>
    have h : l.token.kind = .number := h
    simp [h, Repeat.number?, Lexeme.word]
  | @signed low high sign min max op hlow hsign hhigh =>
    have hop : (op = .list ∧ sign.token.kind = .hash) ∨ (op = .range ∧ sign.token.kind = .star) := by
      cases hsign with
      | star h => exact .inr ⟨rfl, h⟩
      | hash h => exact .inl ⟨rfl, h⟩
    have hnumber : ∀ {ls : List Lexeme} {w : Option Word}, Number ls w →
        (ls = [] ∧ w = none) ∨ ∃ l, ls = [l] ∧ w = some ⟨l.token.text, l.span⟩ ∧ l.token.kind = .number := by
      rintro _ _ (_ | h)
      · exact .inl ⟨rfl, rfl⟩
      · exact .inr ⟨_, rfl, rfl, h⟩
    obtain ⟨rfl, rfl⟩ | ⟨a, rfl, rfl, ha⟩ := hnumber hlow <;> obtain ⟨rfl, rfl⟩ | ⟨b, rfl, rfl, hb⟩ := hnumber hhigh <;>
      obtain ⟨rfl, h⟩ | ⟨rfl, h⟩ := hop <;> simp [Repeat.number?, *]

/-- A number that touches what stands before it, if there is one. --/
def number : Reader := fun s => if s.touches (· == .number) then s.take else ([], s)

theorem bounds_eq (s : State) : bounds s =
    let (low, s) := number s
    if s.touches fun k => k == .star || k == .hash then
      let (sign, s) := s.take
      let (high, s) := number s
      ([.node .bounds (low ++ sign ++ high)], s)
    else ([.node .bounds low], s) := rfl

theorem number_reads {ls : List Lexeme} {w : Option Word} (h : Number ls w) (hlead : ∀ l ∈ ls, l.leading = [])
    {m : Lexeme} {rest : List Lexeme} (hm : m.leading = []) (hne : m.kind ≠ .number) {s : State}
    (hrest : s.rest = ls ++ m :: rest) :
    number s = (ls.flatMap Lexeme.leaves, s.past ls (m :: rest)) := by
  rw [number]
  cases h with
  | absent =>
    have hfalse : s.touches (· == .number) = false := (State.touches_cons hrest hm _).trans (beq_false_of_ne hne)
    have hnil : s.past [] (m :: rest) = s := State.past_nil hrest
    rw [hfalse, hnil]
    rfl
  | @present l h =>
    have htrue : s.touches (· == .number) = true := by
      rw [State.touches_cons hrest (hlead l List.mem_cons_self), h]
      rfl
    rw [htrue, if_pos rfl, State.take_cons hrest, List.flatMap_singleton]
    rfl

/-- The bounds of a repeat are read up to the element that touches them. --/
theorem bounds_reads {bs : List Lexeme} {count : Repeat} (h : Bounds bs count) (hlead : ∀ l ∈ bs, l.leading = [])
    {m : Lexeme} {rest : List Lexeme} (hm : m.leading = []) (hstarts : m.kind.startsElement = true) {s : State}
    (hrest : s.rest = bs ++ m :: rest) :
    bounds s = ([.node .bounds (bs.flatMap Lexeme.leaves)], s.past bs (m :: rest)) := by
  have hnumber : m.kind ≠ .number := by
    intro h
    rw [h] at hstarts
    cases hstarts
  have hsign : (m.kind == .star || m.kind == .hash) = false := by
    cases hk : m.kind <;> rw [hk] at hstarts <;> first | rfl | cases hstarts
  cases h with
  | @exact n h =>
    have hlow := number_reads (.present h) hlead hm hnumber hrest
    have hfalse : (s.past [n] (m :: rest)).touches (fun k => k == .star || k == .hash) = false :=
      (State.touches_cons rfl hm _).trans hsign
    rw [bounds_eq, hlow]
    dsimp only
    rw [hfalse]
    rfl
  | @signed low high sign _ _ _ hlow hkind hhigh =>
    have hkind : sign.kind ≠ .number ∧ (sign.kind == .star || sign.kind == .hash) = true := by
      cases hkind with
      | star h | hash h =>
        rw [h]
        exact ⟨nofun, rfl⟩
    obtain ⟨hlow', hrest'⟩ := List.forall_mem_append.mp hlead
    obtain ⟨hsign', hhigh'⟩ := List.forall_mem_cons.mp hrest'
    have hrest : s.rest = low ++ sign :: (high ++ m :: rest) := by rw [hrest]; simp
    have hleft := number_reads hlow hlow' hsign' hkind.1 hrest
    have htrue : (s.past low (sign :: (high ++ m :: rest))).touches (fun k => k == .star || k == .hash) = true :=
      (State.touches_cons rfl hsign' _).trans hkind.2
    have hright := number_reads hhigh hhigh' hm hnumber
      (s := (s.past low (sign :: (high ++ m :: rest))).past [sign] (high ++ m :: rest)) rfl
    rw [bounds_eq, hleft]
    dsimp only
    rw [htrue, if_pos rfl, State.take_cons rfl]
    dsimp only
    rw [hright]
    simp

/-! ### Repetitions and lists of them -/

section
variable {E : List Lexeme → Expr → Prop} {element : Reader}
  (hbegins : ∀ ⦃ls : List Lexeme⦄ ⦃e : Expr⦄, E ls e → Begins TokenKind.startsElement ls)
  (hreads : ReadsBare element E)
include hbegins hreads

theorem readsBare_repetition : ReadsBare (repetition element) (Repetition E) := by
  intro l ls e h hl s rest stop hrest htiles
  have hsees : ∀ p, s.sees p = p l.kind := State.sees_cons hrest
  generalize hks : l :: ls = ks at h
  cases h with
  | once h =>
    subst hks
    obtain ⟨_, _, ⟨⟩, hstarts⟩ := hbegins h
    rw [repetition, hsees, TokenKind.not_startsRepeat hstarts]
    exact hreads h hl s rest stop hrest htiles
  | @repeated bs ms count e hbs h htouch =>
    obtain ⟨b, bs, rfl, hstarts⟩ := hbs.begins
    obtain ⟨m, ms, rfl, hm⟩ := hbegins h
    cases hks
    obtain ⟨htail, hmlead⟩ := List.forall_mem_append.mp htouch
    have hmlead : m.leading = [] := hmlead m List.mem_cons_self
    have hlead : ∀ x ∈ l :: bs, x.leading = [] := List.forall_mem_cons.mpr ⟨hl, htail⟩
    have htiles : Tiles l.start (l :: bs ++ m :: ms) stop := htiles
    have hextent : extent (l :: bs ++ m :: ms) = ⟨l.start, stop⟩ := extent_eq htiles
    obtain ⟨mid, hbounds, hms⟩ := tiles_append.mp htiles
    obtain rfl : m.start = mid := by rw [hms.1, Lexeme.blanks, hmlead]; rfl
    have hrest : s.rest = l :: bs ++ m :: (ms ++ rest) := by rw [hrest]; simp
    obtain ⟨item, hitem, hshows⟩ := hreads h hmlead (s.past (l :: bs) (m :: (ms ++ rest))) rest stop rfl hms
    have hcount : Shows l.start m.start [.node .bounds ((l :: bs).flatMap Lexeme.leaves)] [] :=
      ⟨rfl, by rw [Tree.sizes_singleton, Tree.size, sizes_leaves hbounds]⟩
    have hboth := hcount.append hshows
    refine ⟨[.node .repetition (.node .bounds ((l :: bs).flatMap Lexeme.leaves) :: item)], ?_, hboth.node ?_⟩
    · rw [repetition, hsees, hstarts, if_pos rfl, bounds_reads hbs hlead hmlead hm hrest]
      dsimp only
      rw [State.touches_cons rfl hmlead, hm, if_pos rfl, hitem]
      simp
    · rw [Expr.ofTree?, hboth.view, hboth.size, hextent]
      show some (Expr.repetition _ (some (Repeat.ofTrees _ _)) _) = _
      rw [ofTrees_bounds hbs hbounds hlead]
      rfl

variable (hloose : Loose E)
include hloose

/-- A repetition is read behind the trivia before its first token. --/
theorem item_reads {ls : List Lexeme} {e : Expr} (h : Repetition E ls e) {s : State} {rest : List Lexeme}
    {pos stop : Nat} (hrest : s.rest = ls ++ rest) (htiles : Tiles pos ls stop) :
    ∃ blanks s' trees, s.sees TokenKind.startsRepetition = true ∧ s.blanks = (blanks, s') ∧
      repetition element s' = (trees, s.past ls rest) ∧ Shows pos (extent ls).start blanks [] ∧
      Shows (extent ls).start stop trees [e] := by
  obtain ⟨l, ls, rfl, hl⟩ := h.begins hbegins
  obtain ⟨trees, hread, hshows⟩ := readsBare_repetition hbegins hreads (h.loose hloose []) rfl
    (s.past [] ({ l with leading := [] } :: (ls ++ rest))) rest stop rfl htiles.bare
  rw [State.past_past, List.nil_append, State.past_leading] at hread
  exact ⟨_, _, trees, (State.sees_cons hrest _).trans hl, State.blanks_cons hrest, hread, .blanks htiles.1, hshows⟩

theorem items_read {ls : List Lexeme} {es : List Expr} (h : Items E ls es) : ∀ (fuel : Nat) (s : State)
    (rest : List Lexeme) (pos stop : Nat), ls.length ≤ fuel → s.rest = ls ++ rest → Tiles pos ls stop →
    Stops TokenKind.startsRepetition rest →
    ∃ trees, repetitions element fuel s = (trees, s.past ls rest) ∧ Shows pos stop trees es ∧ (es = [] → trees = []) := by
  induction h with
  | nil =>
    rintro fuel s rest pos _ - hrest rfl hstops
    refine ⟨[], ?_, .nil pos, fun _ => rfl⟩
    have hnil : s.past [] rest = s := State.past_nil hrest
    have hrest : s.rest = rest := hrest
    cases fuel with
    | zero => rw [repetitions, hnil]
    | succ fuel =>
      rw [repetitions, Stops.sees (hrest ▸ hstops), hnil]
      rfl
  | @cons ls ms e es h hs ih =>
    intro fuel s rest pos stop hfuel hrest htiles hstops
    obtain ⟨mid, hls, hms⟩ := tiles_append.mp htiles
    rw [List.append_assoc] at hrest
    obtain ⟨blanks, s', first, hsees, hblanks, hfirst, hshows, hshows'⟩ :=
      item_reads hbegins hreads hloose h hrest hls
    have hpos : 0 < ls.length := by
      obtain ⟨l, ls, rfl, -⟩ := h.begins hbegins
      exact Nat.succ_pos _
    rw [List.length_append] at hfuel
    cases fuel with
    | zero => omega
    | succ fuel =>
      obtain ⟨more, hmore, hshows'', -⟩ := ih fuel (s.past ls (ms ++ rest)) rest mid stop (by omega) rfl hms hstops
      refine ⟨blanks ++ first ++ more, ?_, (hshows.append hshows').append hshows'', nofun⟩
      rw [repetitions, hsees, if_pos rfl, hblanks]
      dsimp only
      rw [hfirst]
      dsimp only
      rw [hmore, State.past_past]

theorem reads_concatenation : Reads (concatenation element) (Concatenation E) (Stops TokenKind.startsRepetition) := by
  intro ls e h s rest pos stop hrest htiles hstops
  cases h with
  | single h =>
    obtain ⟨blanks, s', first, hsees, hblanks, hfirst, hshows, hshows'⟩ :=
      item_reads hbegins hreads hloose h hrest htiles
    obtain ⟨more, hmore, -, hnil⟩ := items_read hbegins hreads hloose .nil rest.length (s.past ls rest) rest stop stop
      (Nat.zero_le _) rfl rfl hstops
    obtain rfl := hnil rfl
    refine ⟨blanks ++ first, ?_, hshows.append hshows'⟩
    rw [concatenation, hsees, if_pos rfl, hblanks]
    dsimp only
    rw [hfirst]
    dsimp only
    rw [State.rest_past, hmore]
    simp
  | @several ls ms e f es h hs =>
    obtain ⟨mid, hls, hms⟩ := tiles_append.mp htiles
    rw [List.append_assoc] at hrest
    obtain ⟨blanks, s', first, hsees, hblanks, hfirst, hshows, hshows'⟩ :=
      item_reads hbegins hreads hloose h hrest hls
    obtain ⟨more, hmore, hshows'', -⟩ := items_read hbegins hreads hloose hs (ms ++ rest).length
      (s.past ls (ms ++ rest)) rest mid stop (by simp) rfl hms hstops
    have hboth := hshows'.append hshows''
    have hextent : extent (ls ++ ms) = ⟨(extent ls).start, stop⟩ := by
      obtain ⟨l, ls, rfl, -⟩ := h.begins hbegins
      exact extent_eq htiles
    refine ⟨blanks ++ [.node .concatenation (first ++ more)], ?_, hshows.append (hboth.node ?_)⟩
    · rw [concatenation, hsees, if_pos rfl, hblanks]
      dsimp only
      rw [hfirst]
      dsimp only
      rw [State.rest_past, hmore, State.past_past]
      dsimp only
      rw [List.isEmpty_eq_false_iff.mpr hshows''.ne_nil]
      rfl
    · rw [Expr.ofTree?, hboth.view, hboth.size, hextent]
      rfl

theorem branches_read {ls : List Lexeme} {es : List Expr} (h : Branches E ls es) : ∀ (fuel : Nat) (s : State)
    (rest : List Lexeme) (pos stop : Nat), ls.length ≤ fuel → s.rest = ls ++ rest → Tiles pos ls stop → Ends rest →
    ∃ trees, branches element fuel s = (trees, s.past ls rest) ∧ Shows pos stop trees es ∧ (es = [] → trees = []) := by
  induction h with
  | nil =>
    rintro fuel s rest pos _ - hrest rfl hends
    refine ⟨[], ?_, .nil pos, fun _ => rfl⟩
    have hnil : s.past [] rest = s := State.past_nil hrest
    have hrest : s.rest = rest := hrest
    cases fuel with
    | zero => rw [branches, hnil]
    | succ fuel =>
      rw [branches, Stops.sees (hrest ▸ hends.2), hnil]
      rfl
  | @cons slash ls ms e es hslash h hs ih =>
    intro fuel s rest pos stop hfuel hrest htiles hends
    obtain ⟨hstart, -, htiles⟩ := htiles
    obtain ⟨mid, hls, hms⟩ := tiles_append.mp htiles
    have hrest : s.rest = slash :: (ls ++ (ms ++ rest)) := by rw [hrest]; simp
    have hsees : s.sees (· == .slash) = true := by
      rw [State.sees_cons hrest, hslash]
      rfl
    obtain ⟨branch, hbranch, hshows⟩ := reads_concatenation hbegins hreads hloose h
      (s.past [slash] (ls ++ (ms ++ rest))) (ms ++ rest) _ mid rfl hls (stops_branches hs hends)
    rw [List.length_cons, List.length_append] at hfuel
    cases fuel with
    | zero => omega
    | succ fuel =>
      obtain ⟨more, hmore, hshows', -⟩ := ih fuel (s.past (slash :: ls) (ms ++ rest)) rest mid stop (by omega) rfl hms
        hends
      refine ⟨slash.leaves ++ branch ++ more, ?_, ((Shows.leaves hstart).append hshows).append hshows', nofun⟩
      rw [branches, hsees, if_pos rfl, State.take_cons hrest]
      dsimp only
      rw [hbranch, State.past_past]
      dsimp only
      rw [List.singleton_append, hmore, State.past_past]
      rfl

theorem reads_alternation : Reads (alternation element) (Alternation E) Ends := by
  intro ls e h s rest pos stop hrest htiles hends
  cases h with
  | single h =>
    obtain ⟨first, hfirst, hshows⟩ := reads_concatenation hbegins hreads hloose h s rest pos stop hrest htiles hends.1
    obtain ⟨more, hmore, -, hnil⟩ := branches_read hbegins hreads hloose .nil rest.length (s.past ls rest) rest stop stop
      (Nat.zero_le _) rfl rfl hends
    obtain rfl := hnil rfl
    refine ⟨first, ?_, hshows⟩
    rw [alternation, hfirst]
    dsimp only
    rw [State.rest_past, hmore]
    simp
  | @several l ls ms e f es h hs =>
    have hextent : (extent (l :: ls ++ ms)).stop = stop := congrArg Span.stop (extent_eq htiles)
    have hpos : l.outset = pos := by rw [Lexeme.outset, htiles.1, Nat.add_sub_cancel]
    obtain ⟨mid, hls, hms⟩ := tiles_append.mp htiles
    rw [List.append_assoc] at hrest
    obtain ⟨first, hfirst, hshows⟩ := reads_concatenation hbegins hreads hloose h s (ms ++ rest) pos mid hrest hls
      (stops_branches hs hends)
    obtain ⟨more, hmore, hshows', -⟩ := branches_read hbegins hreads hloose hs (ms ++ rest).length
      (s.past (l :: ls) (ms ++ rest)) rest mid stop (by simp) rfl hms hends
    have hboth := hshows.append hshows'
    refine ⟨[.node .alternation (first ++ more)], ?_, hboth.node ?_⟩
    · rw [alternation, hfirst]
      dsimp only
      rw [State.rest_past, hmore, State.past_past]
      dsimp only
      rw [List.isEmpty_eq_false_iff.mpr hshows'.ne_nil]
      rfl
    · rw [Expr.ofTree?, hboth.view, hboth.size, hextent, hpos]
      rfl

end

theorem readsBare_element (σ : Scope) : ∀ levels, ReadsBare (element σ levels) (Element levels)
  | 0 => readsBare_simple
  | levels + 1 => fun _ _ _ h => h.elim (fun h => readsBare_simple h) fun h =>
    readsBare_bracketed (reads_alternation (fun _ _ => Element.begins) (readsBare_element σ levels)
      (Element.loose levels)) h

theorem reads_body (σ : Scope) (levels : Nat) :
    Reads (alternation (element σ levels)) (Alternation (Element levels)) Ends :=
  reads_alternation (fun _ _ => Element.begins) (readsBare_element σ levels) (Element.loose levels)

end Parser

/-! ### Rules and documents -/

/-- Leaves of no kind in a class are passed over. --/
theorem Tree.token?_leaves {p : TokenKind → Bool} : ∀ {ts : List Token}, (∀ t ∈ ts, p t.kind = false) →
    ∀ (pos : Nat) (us : List Tree),
      token? p pos (ts.map .leaf ++ us) = token? p (pos + sizes (ts.map .leaf)) us
  | [], _, _, _ => rfl
  | t :: ts, h, pos, us => by
    obtain ⟨ht, hts⟩ := List.forall_mem_cons.mp h
    rw [List.map_cons, List.cons_append, sizes, ← Nat.add_assoc, token?, directTokens, List.find?_cons, ht]
    exact token?_leaves hts (pos + t.size) us

theorem Tree.token?_cons {p : TokenKind → Bool} {t : Token} (h : p t.kind = true) (pos : Nat) (ts : List Tree) :
    token? p pos (.leaf t :: ts) = some (t, ⟨pos, pos + t.size⟩) :=
  List.find?_cons_of_pos h

namespace Definition

theorem ofForest_append : ∀ (ts us : List Tree) (pos : Nat),
    ofForest pos (ts ++ us) = ofForest pos ts ++ ofForest (pos + Tree.sizes ts) us
  | [], us, pos => rfl
  | .leaf t :: ts, us, pos => by
    rw [Tree.sizes, ← Nat.add_assoc]
    simp only [List.cons_append, ofForest, ofForest_append ts, Tree.size]
  | .node kind children :: ts, us, pos => by
    rw [Tree.sizes, ← Nat.add_assoc]
    cases kind <;> simp only [List.cons_append, ofForest, ofForest_append ts, Tree.size]

theorem ofForest_leaves : ∀ (ts : List Token) (pos : Nat), ofForest pos (ts.map .leaf) = []
  | [], _ => rfl
  | t :: ts, pos => by simp only [List.map_cons, ofForest, ofForest_leaves ts]

end Definition

namespace Parser

open Abnf.Derivation

/-- The view of a rule with a name and a sign, whatever trivia stands between them. --/
theorem ofTrees_rule {name sign : Lexeme} (hname : name.kind = .ruleName) (hsign : sign.kind.isDefinedAs = true)
    (hblank : ∀ t ∈ sign.leading, t.kind.isTrivia = true) (hstart : sign.start = name.span.stop + Tree.sizes sign.blanks)
    {body : List Tree} {e : Expr} (hview : Expr.ofForest name.start (.leaf name.token :: (sign.leaves ++ body)) = [e]) :
    Definition.ofTrees name.start (.leaf name.token :: (sign.leaves ++ body)) =
      ⟨some name.word, some ⟨sign.kind == .incEquals, sign.word⟩, some e⟩ := by
  have hkind : name.token.kind = .ruleName := hname
  have hword : Tree.word? .ruleName name.start (.leaf name.token :: (sign.leaves ++ body)) = some name.word := by
    rw [Tree.word?, Tree.token?_cons (p := (· == .ruleName)) (beq_iff_eq.mpr hkind)]
    rfl
  have hpassed : ∀ t ∈ name.token :: sign.leading, TokenKind.isDefinedAs t.kind = false := by
    refine List.forall_mem_cons.mpr ⟨by rw [hkind]; rfl, fun t ht => ?_⟩
    have htrivia := hblank t ht
    cases hk : t.kind <;> rw [hk] at htrivia <;> first | rfl | cases htrivia
  have hpos : name.start + Tree.sizes ((name.token :: sign.leading).map .leaf) = sign.start :=
    (Nat.add_assoc ..).symm.trans hstart.symm
  have hdefined : Tree.token? TokenKind.isDefinedAs name.start (.leaf name.token :: (sign.leaves ++ body)) =
      some (sign.token, sign.span) := by
    rw [Lexeme.leaves, List.append_assoc]
    refine (Tree.token?_leaves hpassed name.start (.leaf sign.token :: body)).trans ?_
    rw [hpos]
    exact Tree.token?_cons hsign sign.start body
  rw [Definition.ofTrees, hword, hdefined, hview]
  rfl

theorem rule_reads {σ : Scope} {name sign : Lexeme} {ls : List Lexeme} {e : Expr} (hname : name.kind = .ruleName)
    (hsign : sign.kind.isDefinedAs = true) (h : Alternation (Element σ.limit) ls e) {s : State} {pos stop : Nat}
    (hrest : s.rest = { name with leading := [] } :: sign :: ls) (htiles : Tiles pos (name :: sign :: ls) stop) :
    ∃ trees, rule σ s = ([.node .rule trees], s.past (name :: sign :: ls) []) ∧
      Definition.ofTrees name.start trees = ⟨some name.word, some ⟨sign.kind == .incEquals, sign.word⟩, some e⟩ ∧
      name.start + Tree.sizes trees = stop := by
  obtain ⟨-, -, hstart, hblank, htiles⟩ := htiles
  obtain ⟨body, hbody, hshows⟩ := reads_body σ σ.limit h (s.past [name, sign] ls) [] _ stop (List.append_nil ls).symm
    htiles ⟨nofun, nofun⟩
  have hfirst : Shows name.start name.span.stop [.leaf name.token] [] := ⟨rfl, congrArg _ (Tree.sizes_singleton _)⟩
  have hall := hfirst.append ((Shows.leaves hstart).append hshows)
  refine ⟨.leaf name.token :: (sign.leaves ++ body), ?_, ofTrees_rule hname hsign hblank hstart hall.view, hall.size⟩
  have hsees : (s.past [name] (sign :: ls)).sees TokenKind.isDefinedAs = true := (State.sees_cons rfl _).trans hsign
  rw [rule, State.take_cons hrest, State.past_leading, leaves_eq rfl]
  dsimp only
  rw [hsees, if_pos rfl, State.take_cons rfl, State.past_past, List.singleton_append, List.singleton_append]
  dsimp only
  rw [hbody, State.past_past]
  dsimp only [leftover, State.rest_past]
  rw [List.append_nil]
  rfl

/-- A chunk that derives a definition is read without a word as a tree of it. --/
theorem chunk_reads {limit : Nat} {c : Chunk} {d : Definition} (h : c.Derives limit d) (next : Nat)
    (reported : Option Nat) {pos stop : Nat} (htiles : Tiles pos c.lexemes stop) :
    ∃ trees s, chunk ⟨limit, next⟩ reported c = (trees, s) ∧ s.diagnostics = [] ∧ s.reported = reported ∧
      Definition.ofForest pos trees = [d] ∧ pos + Tree.sizes trees = stop := by
  cases h with
  | @rule name sign ls e hname hsign h =>
    have htiles : Tiles pos (name :: sign :: ls) stop := htiles
    let s : State := { rest := name :: sign :: ls, lastStop := name.start, tooDeep := false, reported, diagnostics := [] }
    obtain ⟨trees, hrule, hview, hsize⟩ := rule_reads (σ := ⟨limit, next⟩) hname hsign h
      (s := s.past [] ({ name with leading := [] } :: sign :: ls)) rfl htiles
    refine ⟨name.blanks ++ [.node .rule trees], s.past (name :: sign :: ls) [], ?_, rfl, rfl, ?_, ?_⟩
    · rw [chunk, if_pos hname]
      dsimp only
      rw [State.blanks_cons rfl]
      dsimp only
      rw [hrule, State.past_past]
      rfl
    · rw [Definition.ofForest_append, ← htiles.1, Lexeme.blanks, Definition.ofForest_leaves, Definition.ofForest, hview]
      rfl
    · rw [Tree.sizes_append, ← Nat.add_assoc, ← htiles.1, Tree.sizes_singleton]
      exact hsize

/-- Chunks that derive definitions are read without a word as trees of them. --/
theorem document_reads {limit : Nat} (source : Nat) {cs : List Chunk} {ds : List Definition}
    (h : List.Forall₂ (Chunk.Derives limit) cs ds) : ∀ {pos stop : Nat}, Tiles pos (cs.flatMap Chunk.lexemes) stop →
    ∃ trees, document limit source none cs = (trees, []) ∧ Definition.ofForest pos trees = ds ∧
      pos + Tree.sizes trees = stop := by
  induction h with
  | nil => exact fun h => ⟨[], rfl, rfl, h⟩
  | @cons c d cs ds h hs ih =>
    intro pos stop htiles
    rw [List.flatMap_cons] at htiles
    obtain ⟨mid, hc, hcs⟩ := tiles_append.mp htiles
    obtain ⟨trees, s, hchunk, hquiet, hreported, hview, hsize⟩ :=
      chunk_reads h ((cs.head?.map fun c => c.head.start).getD source) none hc
    obtain ⟨more, hmore, hview', hsize'⟩ := ih hcs
    refine ⟨trees ++ more, ?_, ?_, ?_⟩
    · rw [document, hchunk]
      dsimp only
      rw [hreported, hmore, hquiet]
      rfl
    · rw [Definition.ofForest_append, hview, hsize, hview']
      rfl
    · rw [Tree.sizes_append, ← Nat.add_assoc, hsize, hsize']

end Parser

/-- Chunks that derive definitions make a document without fault, of those definitions. --/
theorem parse_of_derives {source : String} {limit : Nat} {ds : List Definition}
    (h : List.Forall₂ (Chunk.Derives limit) (chunks (lexemes (tokenize source)).1) ds) :
    (parse source limit).diagnostics = [] ∧ (parse source limit).tree.definitions = ds := by
  obtain ⟨stop, htiles⟩ := tiles_lexemes (tokenize source)
  rw [← flatMap_chunks (lexemes (tokenize source)).1] at htiles
  obtain ⟨trees, hread, hview, -⟩ := Parser.document_reads source.utf8ByteSize h htiles
  rw [parse]
  dsimp only
  rw [hread]
  refine ⟨rfl, ?_⟩
  rw [Tree.definitions, Definition.ofForest_append, hview, Definition.ofForest_leaves, List.append_nil]

end Abnf
