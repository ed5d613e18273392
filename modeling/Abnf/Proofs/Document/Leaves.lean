import Abnf.Proofs.Document.Reading

/-! No token is lost in reading. Whatever a reader takes it puts under its trees in the order in which it stands, faults
    or no faults (`Keeps`), so the leaves of a document's tree are all its tokens (`tokens_parse`). -/

namespace Abnf

namespace Tree

theorem forestTokens_append : ∀ ts us : List Tree, forestTokens (ts ++ us) = forestTokens ts ++ forestTokens us
  | [], us => rfl
  | t :: ts, us => by rw [List.cons_append, forestTokens, forestTokens_append ts, forestTokens, List.append_assoc]

theorem forestTokens_node (kind : NodeKind) (ts : List Tree) : forestTokens [.node kind ts] = forestTokens ts :=
  List.append_nil _

theorem forestTokens_leaves : ∀ ts : List Token, forestTokens (ts.map .leaf) = ts
  | [] => rfl
  | t :: ts => by rw [List.map_cons, forestTokens, forestTokens_leaves ts, tokens, List.singleton_append]

end Tree

/-- A token and the trivia before it. --/
def Lexeme.tokens (l : Lexeme) : List Token := l.leading ++ [l.token]

theorem Tree.forestTokens_lexemeLeaves (l : Lexeme) : Tree.forestTokens l.leaves = l.tokens := by
  rw [Lexeme.leaves, Tree.forestTokens_append, Lexeme.blanks, Tree.forestTokens_leaves]
  rfl

namespace Parser

open Abnf.Tree

/-- The tokens in front of a reader. --/
def State.ahead (s : State) : List Token := s.rest.flatMap Lexeme.tokens

@[simp] theorem State.rest_report (s : State) (offset : Nat) (d : Diagnostic) : (s.report offset d).rest = s.rest := by
  rw [report]
  split <;> rfl

/-- What was ahead is under the trees now or still ahead, and there are no more lexemes to read than before. --/
structure Passes (s : State) (x : List Tree × State) : Prop where
  tokens : forestTokens x.1 ++ x.2.ahead = s.ahead
  shorter : x.2.rest.length ≤ s.rest.length

def Keeps (R : Reader) : Prop := ∀ s, Passes s (R s)

namespace Passes

variable {s s' s'' : State} {ts us : List Tree}

theorem nil (h : s'.rest = s.rest) : Passes s ([], s') :=
  ⟨by rw [State.ahead, h]; rfl, Nat.le_of_eq (congrArg List.length h)⟩

theorem append (h : Passes s (ts, s')) (h' : Passes s' (us, s'')) : Passes s (ts ++ us, s'') where
  tokens := by
    rw [forestTokens_append, List.append_assoc]
    exact (congrArg (forestTokens ts ++ ·) h'.tokens).trans h.tokens
  shorter := Nat.le_trans h'.shorter h.shorter

theorem node (h : Passes s (ts, s')) (kind : NodeKind) : Passes s ([.node kind ts], s') where
  tokens := by
    rw [forestTokens_node]
    exact h.tokens
  shorter := h.shorter

/-- Telling of a fault passes nothing. --/
theorem report (h : Passes s (ts, s')) (offset : Nat) (d : Diagnostic) : Passes s (ts, s'.report offset d) := by
  have h := h.append (nil (s'.rest_report offset d))
  rwa [List.append_nil] at h

end Passes

theorem passes_take (s : State) : Passes s s.take := by
  rw [State.take]
  split
  · exact .nil rfl
  · rename_i l ls hrest
    refine ⟨?_, hrest ▸ Nat.le_succ _⟩
    rw [forestTokens_lexemeLeaves, State.ahead, State.ahead, hrest]
    rfl

theorem passes_blanks (s : State) : Passes s s.blanks := by
  rw [State.blanks]
  split
  · exact .nil rfl
  · rename_i l ls hrest
    refine ⟨?_, hrest ▸ Nat.le_refl _⟩
    rw [Lexeme.blanks, forestTokens_leaves, State.ahead, State.ahead, hrest, List.flatMap_cons, List.flatMap_cons,
      Lexeme.tokens, Lexeme.tokens, List.nil_append, List.append_assoc]

theorem forestTokens_flatMap_leaves : ∀ ls : List Lexeme,
    forestTokens (ls.flatMap Lexeme.leaves) = ls.flatMap Lexeme.tokens
  | [] => rfl
  | l :: ls => by
    rw [List.flatMap_cons, forestTokens_append, forestTokens_lexemeLeaves, forestTokens_flatMap_leaves ls,
      List.flatMap_cons]

theorem passes_takeAll (s : State) : Passes s s.takeAll where
  tokens := by
    rw [State.takeAll, forestTokens_flatMap_leaves]
    exact List.append_nil _
  shorter := Nat.zero_le _

/-! ### Repeats and lists -/

theorem keeps_number : Keeps number := fun s => by
  rw [number]
  split
  · exact passes_take s
  · exact .nil rfl

theorem keeps_bounds : Keeps bounds := fun s => by
  rw [bounds_eq]
  dsimp only
  split
  · exact (((keeps_number s).append (passes_take _)).append (keeps_number _)).node _
  · exact (keeps_number s).node _

section
variable {element : Reader} (keeps : Keeps element)
include keeps

theorem keeps_repetition : Keeps (repetition element) := fun s => by
  rw [repetition]
  split
  · dsimp only
    split
    · exact ((keeps_bounds s).append (keeps _)).node _
    · exact ((keeps_bounds s).node _).report _ _
  · exact keeps s

theorem keeps_repetitions : ∀ fuel, Keeps (repetitions element fuel)
  | 0, _ => .nil rfl
  | fuel + 1, s => by
    rw [repetitions]
    split
    · exact ((passes_blanks s).append (keeps_repetition keeps _)).append (keeps_repetitions fuel _)
    · exact .nil rfl

theorem keeps_concatenation : Keeps (concatenation element) := fun s => by
  rw [concatenation]
  split
  · have hfirst := keeps_repetition keeps s.blanks.2
    have hmore := keeps_repetitions keeps (repetition element s.blanks.2).2.rest.length (repetition element s.blanks.2).2
    dsimp only
    split
    · rename_i hnil
      have hall := (passes_blanks s).append (hfirst.append hmore)
      rwa [List.isEmpty_iff.mp hnil, List.append_nil] at hall
    · exact (passes_blanks s).append ((hfirst.append hmore).node _)
  · split
    · exact .nil rfl
    · exact (Passes.nil rfl).report _ _

theorem keeps_branches : ∀ fuel, Keeps (branches element fuel)
  | 0, _ => .nil rfl
  | fuel + 1, s => by
    rw [branches]
    split
    · exact ((passes_take s).append (keeps_concatenation keeps _)).append (keeps_branches fuel _)
    · exact .nil rfl

theorem keeps_alternation : Keeps (alternation element) := fun s => by
  have hall := (keeps_concatenation keeps s).append
    (keeps_branches keeps (concatenation element s).2.rest.length (concatenation element s).2)
  rw [alternation]
  dsimp only
  split
  · rename_i hnil
    rwa [List.isEmpty_iff.mp hnil, List.append_nil] at hall
  · exact hall.node _

/-! ### Elements -/

theorem keeps_bracketed (σ : Scope) (b : Bracket) (l : Lexeme) : Keeps (bracketed σ b l element) := fun s => by
  have hopen := (passes_take s).append (keeps s.take.2)
  rw [bracketed]
  dsimp only
  split
  · exact (hopen.append (passes_take _)).node _
  · split
    · exact hopen.node _
    · exact (hopen.node _).report _ _

end

theorem keeps_single (kind : NodeKind) : Keeps (single kind) := fun s => (passes_take s).node kind

theorem keeps_misfit (kind : Diagnostic.Kind) (l : Lexeme) : Keeps (misfit kind l) := fun _ =>
  ((Passes.nil rfl).report _ _).append (keeps_single .error _)

theorem keeps_tooDeep (σ : Scope) (b : Bracket) (l : Lexeme) : Keeps (tooDeep σ b l) := fun s => by
  have hunread : ∀ s' : State, Passes s' { s' with tooDeep := true }.takeAll := fun s' =>
    ⟨(passes_takeAll s').tokens, Nat.zero_le _⟩
  exact (((passes_take s).report _ _).append ((hunread _).node _)).node _

theorem keeps_elementWith (σ : Scope) {body : Option Reader} (keeps : ∀ R ∈ body, Keeps R) :
    Keeps (elementWith σ body) := fun s => by
  rw [elementWith]
  split
  · exact .nil rfl
  · split
    -- The two kinds of opening bracket.
    case h_5 | h_6 =>
      cases body with
      | some R => exact keeps_bracketed (keeps R rfl) σ _ _ s
      | none => exact keeps_tooDeep σ _ _ s
    all_goals first | exact keeps_single _ s | exact keeps_misfit _ _ s

theorem keeps_element (σ : Scope) : ∀ levels, Keeps (element σ levels)
  | 0 => keeps_elementWith σ nofun
  | levels + 1 => keeps_elementWith σ (by rintro _ ⟨⟩; exact keeps_alternation (keeps_element σ levels))

/-! ### Rules and documents -/

theorem keeps_leftover (kind : Option Diagnostic.Kind) : Keeps (leftover kind) := fun s => by
  have hall : ∀ s' : State, Passes s ([], s') →
      Passes s (s'.blanks.1 ++ [.node .error s'.blanks.2.takeAll.1], s'.blanks.2.takeAll.2) := fun s' h =>
    (h.append (passes_blanks s')).append ((passes_takeAll _).node _)
  rw [leftover]
  split
  · exact .nil rfl
  · cases kind with
    | none => exact hall s (.nil rfl)
    | some kind => exact hall _ ((Passes.nil rfl).report _ _)

theorem rest_leftover (kind : Option Diagnostic.Kind) (s : State) : (leftover kind s).2.rest = [] := by
  rw [leftover]
  split
  · assumption
  · rfl

theorem keeps_rule (σ : Scope) : Keeps (rule σ) := fun s => by
  rw [rule]
  dsimp only
  split
  · exact ((((passes_take s).append (passes_take _)).append (keeps_alternation (keeps_element σ σ.limit) _)).append
      (keeps_leftover _ _)).node _
  · exact (((passes_take s).report _ _).append (keeps_leftover none _)).node _

theorem rest_rule (σ : Scope) (s : State) : (rule σ s).2.rest = [] := by
  rw [rule]
  dsimp only
  split <;> exact rest_leftover _ _

theorem forestTokens_of_passes {s : State} {x : List Tree × State} (h : Passes s x) (hrest : x.2.rest = []) :
    forestTokens x.1 = s.ahead := by
  have htokens := h.tokens
  rw [State.ahead, hrest] at htokens
  exact (List.append_nil _).symm.trans htokens

/-- The state in front of a chunk. --/
def front (reported : Option Nat) (c : Chunk) : State :=
  { rest := c.lexemes, lastStop := c.head.start, tooDeep := false, reported, diagnostics := [] }

theorem chunk_eq (σ : Scope) (reported : Option Nat) (c : Chunk) : chunk σ reported c =
    if c.head.kind = .ruleName then
      let (blanks, s) := (front reported c).blanks
      let (tree, s) := rule σ s
      (blanks ++ tree, s)
    else leftover (some .expectedRuleName) (front reported c) := rfl

theorem forestTokens_chunk (σ : Scope) (reported : Option Nat) (c : Chunk) :
    forestTokens (chunk σ reported c).1 = c.lexemes.flatMap Lexeme.tokens := by
  have hrule : Passes (front reported c) ((front reported c).blanks.1 ++ (rule σ (front reported c).blanks.2).1,
      (rule σ (front reported c).blanks.2).2) := (passes_blanks _).append (keeps_rule σ _)
  rw [chunk_eq]
  dsimp only
  split
  · exact forestTokens_of_passes hrule (rest_rule σ (front reported c).blanks.2)
  · exact forestTokens_of_passes (keeps_leftover _ _) (rest_leftover _ _)

theorem forestTokens_document (limit stop : Nat) : ∀ (cs : List Chunk) (reported : Option Nat),
    forestTokens (document limit stop reported cs).1 = (cs.flatMap Chunk.lexemes).flatMap Lexeme.tokens
  | [], _ => rfl
  | c :: cs, reported => by
    rw [document]
    dsimp only
    rw [forestTokens_append, forestTokens_chunk, forestTokens_document, List.flatMap_cons, List.flatMap_append]

end Parser

/-- Lexemes and the trivia after them are all the tokens. --/
theorem tokens_lexemesFrom : ∀ (ts : List Token) (start : Nat) (leading : List Token) (opens : Bool),
    (lexemesFrom start leading opens ts).1.flatMap Lexeme.tokens ++ (lexemesFrom start leading opens ts).2 = leading ++ ts
  | [], _, leading, _ => (List.append_nil leading).symm
  | t :: ts, start, leading, opens => by
    rw [lexemesFrom]
    split
    · rw [tokens_lexemesFrom ts, List.append_assoc, List.singleton_append]
    · dsimp only
      rw [List.flatMap_cons, List.append_assoc, tokens_lexemesFrom ts, Lexeme.tokens, List.nil_append, List.append_assoc,
        List.singleton_append]

/-- The leaves of a document's tree are its tokens. --/
theorem tokens_parse (source : String) (limit : Nat) : (parse source limit).tree.tokens = tokenize source := by
  rw [parse]
  dsimp only
  rw [Tree.tokens, Tree.forestTokens_append, Parser.forestTokens_document, flatMap_chunks, Tree.forestTokens_leaves]
  exact tokens_lexemesFrom _ 0 [] true

end Abnf
