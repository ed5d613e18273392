import Abnf.Proofs.Document.Parallel
import Abnf.Proofs.Document.Tokens

/-! A malformed rule does not disturb its neighbours. The trees of a chunk depend on its tokens alone (`alike_chunk`), so
    those of a document are the trees of its chunks (`document_fst`), and a document in two parts has the trees of both
    (`parse_append`). -/

namespace Abnf

/-- The same token behind the same trivia, here or there. --/
structure Lexeme.Alike (l l' : Lexeme) : Prop where
  leading : l.leading = l'.leading
  token : l.token = l'.token
  opensLine : l.opensLine = l'.opensLine

def Chunk.Alike (c c' : Chunk) : Prop := List.Forall₂ Lexeme.Alike c.lexemes c'.lexemes

/-! ### Trees of chunks -/

namespace Parser

/-- The same tokens ahead. --/
structure State.Alike (s s' : State) : Prop where
  rest : List.Forall₂ Lexeme.Alike s.rest s'.rest
  tooDeep : s.tooDeep = s'.tooDeep

namespace State.Alike

variable {s s' : State}

theorem report (h : s.Alike s') (offset offset' : Nat) (d d' : Diagnostic) :
    (s.report offset d).Alike (s'.report offset' d') := by
  rw [State.report, State.report]
  split <;> split <;> exact ⟨h.rest, h.tooDeep⟩

theorem take (h : s.Alike s') : s.take.2.Alike s'.take.2 := by
  obtain ⟨hrest, htooDeep⟩ := h
  rw [State.take, State.take]
  rcases hs : s.rest with _ | ⟨l, ls⟩ <;> rcases hs' : s'.rest with _ | ⟨l', ls'⟩ <;> rw [hs, hs'] at hrest
  · exact ⟨by rw [hs, hs']; exact hrest, htooDeep⟩
  · cases hrest
  · cases hrest
  · cases hrest with
    | cons _ hls => exact ⟨hls, htooDeep⟩

theorem blanks (h : s.Alike s') : s.blanks.2.Alike s'.blanks.2 := by
  obtain ⟨hrest, htooDeep⟩ := h
  rw [State.blanks, State.blanks]
  rcases hs : s.rest with _ | ⟨l, ls⟩ <;> rcases hs' : s'.rest with _ | ⟨l', ls'⟩ <;> rw [hs, hs'] at hrest
  · exact ⟨by rw [hs, hs']; exact hrest, htooDeep⟩
  · cases hrest
  · cases hrest
  · cases hrest with
    | cons hl hls => exact ⟨.cons ⟨rfl, hl.token, hl.opensLine⟩ hls, htooDeep⟩

end State.Alike

theorem parallel_alike {σ σ' : Scope} (hlimit : σ.limit = σ'.limit) :
    Parallel σ σ' Lexeme.Alike Eq State.Alike State.Alike where
  limit := hlimit
  trees := treewise_eq
  kind h := congrArg Token.kind h.token
  touching h := congrArg List.isEmpty h.leading
  leaf h := congrArg (fun t => [Tree.leaf t]) h.token
  leading h := congrArg (·.map Tree.leaf) h.leading
  rest h := h.rest
  tooDeep h := h.tooDeep
  weaken h := h
  ahead h _ := h
  take h := h.take
  blanks h := h.blanks
  takeAll h := ⟨.nil, h.tooDeep⟩
  deepen h := ⟨h.rest, rfl⟩
  missing _ h := h.report _ _ _ _
  marked _ h _ := h.report _ _ _ _
  unclosed _ _ _ _ h _ := h.report _ _ _ _

theorem alike_chunk {σ σ' : Scope} (hlimit : σ.limit = σ'.limit) {c c' : Chunk} (h : c.Alike c')
    (reported reported' : Option Nat) : (chunk σ reported c).1 = (chunk σ' reported' c').1 := by
  have par := parallel_alike hlimit
  have hfront : (front reported c).Alike (front reported' c') := ⟨h, rfl⟩
  have hkind : c.head.kind = c'.head.kind := by
    cases h with
    | cons hl _ => exact congrArg Token.kind hl.token
  obtain ⟨hblanks, h₁⟩ := par.together_blanks hfront
  rw [chunk_eq, chunk_eq, hkind]
  dsimp only
  split
  · rw [hblanks, (par.together_rule h₁).1]
  · have hf : ∀ x ∈ some Diagnostic.Kind.expectedRuleName, Marks (Diagnostic.of x) := by
      rintro _ ⟨⟩
      exact marks_of _ (by decide)
    exact (par.together_leftover _ hf hfront).1

end Parser

/-- The trees of a chunk, wherever it stands. --/
def Chunk.trees (limit : Nat) (c : Chunk) : List Tree := (Parser.chunk ⟨limit, 0⟩ none c).1

theorem Chunk.Alike.refl (c : Chunk) : c.Alike c := List.forall₂_same.mpr fun _ _ => ⟨rfl, rfl, rfl⟩

theorem Chunk.Alike.trees {limit : Nat} {c c' : Chunk} (h : c.Alike c') : c.trees limit = c'.trees limit :=
  Parser.alike_chunk rfl h none none

theorem Parser.document_fst (limit stop : Nat) : ∀ (cs : List Chunk) (reported : Option Nat),
    (document limit stop reported cs).1 = cs.flatMap (Chunk.trees limit)
  | [], _ => rfl
  | c :: cs, reported => by
    have hc : ∀ σ : Scope, σ.limit = limit → (chunk σ reported c).1 = c.trees limit := fun σ hlimit =>
      alike_chunk hlimit (.refl c) reported none
    rw [document]
    dsimp only
    rw [document_fst limit stop cs, hc _ rfl, List.flatMap_cons]

/-- Trivia in front of a chunk goes in front of its trees. --/
theorem Chunk.trees_behind (limit : Nat) (extra : List Token) (l : Lexeme) (ls : List Lexeme) :
    Chunk.trees limit ⟨{ l with leading := extra ++ l.leading }, ls⟩ =
      extra.map .leaf ++ Chunk.trees limit ⟨l, ls⟩ := by
  have hblanks : ({ l with leading := extra ++ l.leading } : Lexeme).blanks = extra.map .leaf ++ l.blanks :=
    List.map_append
  let c : Chunk := ⟨{ l with leading := extra ++ l.leading }, ls⟩
  rw [Chunk.trees, Chunk.trees, Parser.chunk_eq, Parser.chunk_eq]
  by_cases hkind : l.kind = .ruleName
  · have hhead : c.head.kind = .ruleName := hkind
    rw [if_pos hhead, if_pos hkind, Parser.State.blanks_cons rfl, Parser.State.blanks_cons rfl]
    change _ ++ _ = _ ++ (_ ++ _)
    rw [← List.append_assoc, ← hblanks]
    rfl
  · have hhead : c.head.kind ≠ .ruleName := hkind
    rw [if_neg hhead, if_neg hkind]
    change _ ++ _ = _ ++ (l.blanks ++ _)
    rw [← List.append_assoc, ← hblanks]

/-! ### Two parts of a document -/

theorem alike_lexemesFrom : ∀ (ts : List Token) (start start' : Nat) (leading : List Token) (opens : Bool),
    List.Forall₂ Lexeme.Alike (lexemesFrom start leading opens ts).1 (lexemesFrom start' leading opens ts).1 ∧
      (lexemesFrom start leading opens ts).2 = (lexemesFrom start' leading opens ts).2
  | [], _, _, _, _ => ⟨.nil, rfl⟩
  | t :: ts, start, start', leading, opens => by
    rw [lexemesFrom, lexemesFrom]
    split
    · exact alike_lexemesFrom ts _ _ _ _
    · obtain ⟨hls, htrailing⟩ := alike_lexemesFrom ts (start + t.size) (start' + t.size) [] false
      exact ⟨.cons ⟨rfl, rfl, rfl⟩ hls, htrailing⟩

/-- Lexemes and the trivia after them, with more trivia before. --/
def behind (extra : List Token) : List Lexeme × List Token → List Lexeme × List Token
  | ([], trailing) => ([], extra ++ trailing)
  | (l :: ls, trailing) => ({ l with leading := extra ++ l.leading } :: ls, trailing)

theorem lexemesFrom_behind (extra : List Token) : ∀ (ts : List Token) (start : Nat) (leading : List Token) (opens : Bool),
    lexemesFrom start (extra ++ leading) opens ts = behind extra (lexemesFrom start leading opens ts)
  | [], _, _, _ => rfl
  | t :: ts, start, leading, opens => by
    rw [lexemesFrom, lexemesFrom]
    split
    · rw [List.append_assoc]
      exact lexemesFrom_behind extra ts _ _ _
    · rfl

/-- Tokens behind others make lexemes behind theirs. --/
theorem lexemesFrom_append : ∀ (ts us before leading : List Token),
    lexemesFrom (Token.total before) leading (opensLine before) (ts ++ us) =
      let (ls, trailing) := lexemesFrom (Token.total before) leading (opensLine before) ts
      let (ms, trailing) := lexemesFrom (Token.total (before ++ ts)) trailing (opensLine (before ++ ts)) us
      (ls ++ ms, trailing)
  | [], us, before, leading => by rw [List.append_nil]; rfl
  | t :: ts, us, before, leading => by
    have ih := lexemesFrom_append ts us (before ++ [t])
    rw [Token.total_snoc, opensLine_snoc, List.append_assoc, List.singleton_append] at ih
    rw [List.cons_append, lexemesFrom, lexemesFrom]
    split
    · exact ih (leading ++ [t])
    · rename_i ht
      rw [← opensLine_snoc before, opensLine_token before (Bool.eq_false_iff.mpr ht)] at ih
      rw [ih []]
      rfl

theorem behind_heads (extra : List Token) {x : List Lexeme × List Token} (h : ∀ l ∈ x.1.head?, l.opensLine = true) :
    ∀ l ∈ (behind extra x).1.head?, l.opensLine = true := by
  obtain ⟨_ | ⟨l, ls⟩, trailing⟩ := x
  · exact nofun
  · rintro _ ⟨⟩
    exact h l rfl

theorem alike_heads {ls ms : List Lexeme} (halike : List.Forall₂ Lexeme.Alike ls ms)
    (h : ∀ l ∈ ms.head?, l.opensLine = true) : ∀ l ∈ ls.head?, l.opensLine = true := by
  cases halike with
  | nil => exact nofun
  | cons hl _ =>
    rintro _ ⟨⟩
    rw [hl.opensLine]
    exact h _ rfl

/-! ### Chunks in two parts -/

theorem heads_tail_chunks (ls : List Lexeme) : ∀ c ∈ (chunks ls).tail, c.head.opensLine = true := by
  cases ls with
  | nil =>
    rw [chunks]
    exact List.forall_mem_nil _
  | cons l ls =>
    rw [chunks]
    exact heads_chunks _ (opensLine_of_dropWhile ls)

/-- Where a line begins with a lexeme, chunks are cut. --/
theorem chunks_append (ls : List Lexeme) {ms : List Lexeme} (h : ∀ l ∈ ms.head?, l.opensLine = true) :
    chunks (ls ++ ms) = chunks ls ++ chunks ms := by
  have hall : ls ++ ms = (chunks ls ++ chunks ms).flatMap Chunk.lexemes := by
    rw [List.flatMap_append, flatMap_chunks, flatMap_chunks]
  rw [hall]
  refine chunks_flatMap (fun c hc => ?_) (List.forall_mem_append.mpr ⟨tails_chunks ls, tails_chunks ms⟩)
  rcases hls : chunks ls with _ | ⟨d, ds⟩ <;> rw [hls] at hc
  · exact heads_chunks ms h c (List.mem_of_mem_tail hc)
  · rcases List.mem_append.mp hc with hc | hc
    · have hheads := heads_tail_chunks ls
      rw [hls] at hheads
      exact hheads c hc
    · exact heads_chunks ms h c hc

theorem alike_chunks {ls ms : List Lexeme} (h : List.Forall₂ Lexeme.Alike ls ms) :
    List.Forall₂ Chunk.Alike (chunks ls) (chunks ms) := forall₂_chunks (fun _ _ hl => hl.opensLine) h

/-- The first token that matters stands in the first column. --/
def StartsLine (ts : List Token) : Prop :=
  ∀ blanks t us, ts = blanks ++ t :: us → (∀ b ∈ blanks, b.kind.isTrivia = true) → t.kind.isTrivia = false →
    opensLine blanks = true

theorem StartsLine.head {ts : List Token} (h : StartsLine ts) :
    ∀ l ∈ (lexemes ts).1.head?, l.opensLine = true := by
  have hws : ∀ w ∈ ts.takeWhile (·.kind.isTrivia), w.kind.isTrivia = true := fun w hw =>
    List.mem_takeWhile_imp (p := fun t : Token => t.kind.isTrivia) hw
  have hcut := lexemesFrom_trivia hws [] [] (ts.dropWhile (·.kind.isTrivia))
  rw [List.takeWhile_append_dropWhile] at hcut
  have hnot := List.head?_dropWhile_not (fun t : Token => t.kind.isTrivia) ts
  intro l hl
  rw [lexemes, show lexemesFrom 0 [] true ts = _ from hcut] at hl
  rcases hrest : ts.dropWhile (·.kind.isTrivia) with _ | ⟨t, us⟩
  · rw [hrest] at hl
    cases hl
  · rw [hrest] at hl hnot
    have ht : t.kind.isTrivia = false := hnot
    rw [lexemesFrom, if_neg (by simp [ht])] at hl
    cases hl
    refine h _ t us ?_ hws ht
    rw [← hrest, List.nil_append, List.takeWhile_append_dropWhile]

/-- The trees of lexemes, chunk by chunk, and of the trivia after them. --/
def trees (limit : Nat) (x : List Lexeme × List Token) : List Tree :=
  (chunks x.1).flatMap (Chunk.trees limit) ++ x.2.map .leaf

theorem trees_behind (limit : Nat) (extra : List Token) :
    ∀ x : List Lexeme × List Token, trees limit (behind extra x) = extra.map .leaf ++ trees limit x
  | ([], trailing) => by
    rw [behind, trees, trees, chunks]
    exact List.map_append
  | (l :: ls, trailing) => by
    rw [behind, trees, trees, chunks, chunks, List.flatMap_cons, List.flatMap_cons, Chunk.trees_behind]
    simp only [List.append_assoc]

theorem trees_alike (limit : Nat) {x y : List Lexeme × List Token} (h : List.Forall₂ Lexeme.Alike x.1 y.1)
    (htrailing : x.2 = y.2) : trees limit x = trees limit y := by
  have hall : ∀ {cs ds : List Chunk}, List.Forall₂ Chunk.Alike cs ds →
      cs.flatMap (Chunk.trees limit) = ds.flatMap (Chunk.trees limit) := by
    intro cs ds h
    induction h with
    | nil => rfl
    | cons hc _ ih => rw [List.flatMap_cons, List.flatMap_cons, hc.trees, ih]
  rw [trees, trees, hall (alike_chunks h), htrailing]

theorem trees_append (limit : Nat) (ls : List Lexeme) {x : List Lexeme × List Token}
    (h : ∀ l ∈ x.1.head?, l.opensLine = true) :
    trees limit (ls ++ x.1, x.2) = (chunks ls).flatMap (Chunk.trees limit) ++ trees limit x := by
  rw [trees, chunks_append ls h, List.flatMap_append, List.append_assoc]
  rfl

/-- The trees of a document. --/
theorem tree_parse (source : String) (limit : Nat) : (parse source limit).tree =
    .node .root (trees limit (lexemes (tokenize source))) := by
  rw [parse]
  dsimp only
  rw [Parser.document_fst, trees]

/-- A document in two parts has the trees of both, one after the other, however malformed they are. --/
theorem parse_append {s₁ s₂ : String} (h₁ : ∀ c ∈ s₁.toList.getLast?, c = '\n') (h₂ : StartsLine (tokenize s₂))
    (limit : Nat) : ∃ ts us, (parse s₁ limit).tree = .node .root ts ∧ (parse s₂ limit).tree = .node .root us ∧
      (parse (s₁ ++ s₂) limit).tree = .node .root (ts ++ us) := by
  refine ⟨_, _, tree_parse s₁ limit, tree_parse s₂ limit, ?_⟩
  have hall := lexemesFrom_append (tokenize s₁) (tokenize s₂) [] []
  rw [List.nil_append, opensLine_tokenize h₁] at hall
  obtain ⟨halike, htrailing⟩ :=
    alike_lexemesFrom (tokenize s₂) (Token.total (tokenize s₁)) 0 [] true
  have hsplit : lexemes (tokenize s₁ ++ tokenize s₂) = ((lexemes (tokenize s₁)).1 ++
      (behind (lexemes (tokenize s₁)).2 (lexemesFrom (Token.total (tokenize s₁)) [] true (tokenize s₂))).1,
      (behind (lexemes (tokenize s₁)).2 (lexemesFrom (Token.total (tokenize s₁)) [] true (tokenize s₂))).2) := by
    rw [← lexemesFrom_behind, List.append_nil]
    exact hall
  have hheads : ∀ l ∈ (behind (lexemes (tokenize s₁)).2
      (lexemesFrom (Token.total (tokenize s₁)) [] true (tokenize s₂))).1.head?, l.opensLine = true :=
    behind_heads _ (alike_heads halike h₂.head)
  rw [tree_parse, tokenize_append h₁, hsplit, trees_append limit _ hheads, trees_behind, ← List.append_assoc,
    trees_alike limit halike htrailing]
  rfl

/-- An unclosed group, and in the next part a rule after a line that is none. --/
theorem parse_append_unclosed :
    let s₁ := "a = (b\n"
    let s₂ := "; none\n= c\nd = e\n"
    (∀ c ∈ s₁.toList.getLast?, c = '\n') ∧ StartsLine (tokenize s₂) ∧
      ∃ ts us, (parse s₁ 1).tree = .node .root ts ∧ (parse s₂ 1).tree = .node .root us ∧
        (parse (s₁ ++ s₂) 1).tree = .node .root (ts ++ us) := by
  intro s₁ s₂
  have h₁ : ∀ c ∈ s₁.toList.getLast?, c = '\n' := by
    have hlast : s₁.toList.getLast? = some '\n' := by decide
    rw [hlast]
    rintro c ⟨⟩
    rfl
  have h₂ : StartsLine (tokenize s₂) := by
    intro blanks t us hus hblanks ht
    have hall : (blanks ++ t :: us).takeWhile (·.kind.isTrivia) = blanks := takeWhile_isTrivia hblanks ht
    rw [← hus] at hall
    rw [← hall]
    decide +kernel
  exact ⟨h₁, h₂, parse_append h₁ h₂ 1⟩

end Abnf
