import Abnf.Document.Chunk
import Mathlib.Data.List.Forall2

/-! How a document falls into chunks: what the lexemes are among its tokens, and where they are cut. The program cuts
    them so and there is no other way (`cut_iff`). Lexemes cover their stretch of the document without gaps
    (`Significant.tiles`). -/

namespace Abnf

/-! ### The layout of documents -/

/-- A token behind these stands in the first column: at the very beginning, or behind the end of a line. --/
def opensLine (before : List Token) : Bool := before.getLast?.all (·.kind == .newline)

/-- The tokens that matter among `ts`, which stand behind `before`: each at its place, with the trivia before it. --/
inductive Significant : (before ts : List Token) → List Lexeme → Prop where
  | nil {before leading : List Token} (hlead : ∀ t ∈ leading, t.kind.isTrivia = true) : Significant before leading []
  | cons {before leading ts : List Token} {t : Token} {ls : List Lexeme}
      (hlead : ∀ t ∈ leading, t.kind.isTrivia = true) (ht : t.kind.isTrivia = false)
      (hs : Significant (before ++ leading ++ [t]) ts ls) :
      Significant before (leading ++ t :: ts)
        (⟨leading, t, Tree.sizes ((before ++ leading).map .leaf), opensLine (before ++ leading)⟩ :: ls)

/-- The lexemes of a chunk. --/
def Chunk.lexemes (c : Chunk) : List Lexeme := c.head :: c.tail

/-- Chunks that begin at the first token that matters and at each one in the first column, and nowhere else. --/
structure Cut (ts : List Token) (cs : List Chunk) : Prop where
  covers : Significant [] ts (cs.flatMap Chunk.lexemes)
  heads : ∀ c ∈ cs.tail, c.head.opensLine = true
  tails : ∀ c ∈ cs, ∀ l ∈ c.tail, l.opensLine = false

namespace Tree

theorem sizes_append : ∀ ts us : List Tree, sizes (ts ++ us) = sizes ts + sizes us
  | [], us => (Nat.zero_add _).symm
  | t :: ts, us => by rw [List.cons_append, sizes, sizes_append ts, sizes, Nat.add_assoc]

theorem sizes_singleton (t : Tree) : sizes [t] = t.size := Nat.add_zero _

end Tree

/-- Lexemes that follow one another without gaps from one offset to another, with nothing but trivia before their
    tokens. --/
def Tiles (pos : Nat) : List Lexeme → Nat → Prop
  | [], stop => pos = stop
  | l :: ls, stop => l.start = pos + Tree.sizes l.blanks ∧ (∀ t ∈ l.leading, t.kind.isTrivia = true) ∧
      Tiles l.span.stop ls stop

theorem tiles_append : ∀ {ls ms : List Lexeme} {pos stop : Nat},
    Tiles pos (ls ++ ms) stop ↔ ∃ mid, Tiles pos ls mid ∧ Tiles mid ms stop
  | [], _, _, _ => ⟨fun h => ⟨_, rfl, h⟩, fun ⟨_, h, hs⟩ => h ▸ hs⟩
  | l :: ls, ms, pos, stop => by
    rw [List.cons_append, Tiles, tiles_append]
    constructor
    · rintro ⟨h, ht, mid, hls, hms⟩
      exact ⟨mid, ⟨h, ht, hls⟩, hms⟩
    · rintro ⟨mid, ⟨h, ht, hls⟩, hms⟩
      exact ⟨h, ht, mid, hls, hms⟩

/-- Without the trivia before the first token, lexemes begin at that token. --/
theorem Tiles.bare {l : Lexeme} {ls : List Lexeme} {pos stop : Nat} (h : Tiles pos (l :: ls) stop) :
    Tiles l.start ({ l with leading := [] } :: ls) stop := by
  obtain ⟨-, -, h⟩ := h
  exact ⟨rfl, nofun, h⟩

theorem Tiles.stop_eq : ∀ {l : Lexeme} {ls : List Lexeme} {pos stop : Nat}, Tiles pos (l :: ls) stop →
    (l :: ls).getLast?.map (fun l => l.span.stop) = some stop
  | l, [], _, _, ⟨_, _, h⟩ => congrArg some h
  | l, m :: ls, _, _, ⟨_, _, h⟩ => by
    rw [List.getLast?_cons_cons]
    exact stop_eq h

/-! ### Lexemes -/

theorem significant_lexemesFrom : ∀ (ts before leading : List Token), (∀ t ∈ leading, t.kind.isTrivia = true) →
    Significant before (leading ++ ts)
      (lexemesFrom (Tree.sizes ((before ++ leading).map .leaf)) leading (opensLine (before ++ leading)) ts).1
  | [], _, leading, hlead => by
    rw [List.append_nil]
    exact .nil hlead
  | t :: ts, before, leading, hlead => by
    have hsizes : Tree.sizes ((before ++ leading).map .leaf) + t.size =
        Tree.sizes ((before ++ leading ++ [t]).map .leaf) := by
      simp only [List.map_append, Tree.sizes_append, List.map_singleton, Tree.sizes_singleton, Tree.size]
    have hopens : (t.kind == .newline) = opensLine (before ++ leading ++ [t]) := by simp [opensLine]
    rw [lexemesFrom]
    split
    · rename_i ht
      rw [hsizes, hopens, List.append_assoc before, List.append_cons]
      exact significant_lexemesFrom ts before (leading ++ [t])
        (List.forall_mem_append.mpr ⟨hlead, List.forall_mem_singleton.mpr ht⟩)
    · rename_i ht
      have hfalse : false = opensLine (before ++ leading ++ [t]) := by
        rw [← hopens]
        cases hk : t.kind <;> first | rfl | exact absurd (hk ▸ rfl) ht
      rw [hsizes, hfalse]
      have hs := significant_lexemesFrom ts (before ++ leading ++ [t]) [] nofun
      rw [List.append_nil] at hs
      exact .cons hlead (Bool.eq_false_iff.mpr ht) hs

theorem significant_lexemes (ts : List Token) : Significant [] ts (lexemes ts).1 :=
  significant_lexemesFrom ts [] [] nofun

/-- A stretch of trivia ends at the first token that matters. --/
theorem takeWhile_isTrivia {leading ts : List Token} {t : Token} (hlead : ∀ t ∈ leading, t.kind.isTrivia = true)
    (ht : t.kind.isTrivia = false) : (leading ++ t :: ts).takeWhile (·.kind.isTrivia) = leading := by
  rw [List.takeWhile_append_of_pos hlead, List.takeWhile_cons, ht, if_neg Bool.false_ne_true, List.append_nil]

namespace Significant

variable {before ts : List Token} {ls ms : List Lexeme}

theorem unique (h : Significant before ts ls) (h' : Significant before ts ms) : ls = ms := by
  induction h generalizing ms with
  | nil hlead =>
    cases h' with
    | nil => rfl
    | cons _ ht => rw [hlead _ (by simp)] at ht; cases ht
  | @cons before leading ts t ls hlead ht hs ih =>
    generalize hus : leading ++ t :: ts = us at h'
    cases h' with
    | nil hlead' =>
      subst hus
      rw [hlead' _ (by simp)] at ht
      cases ht
    | cons hlead' ht' hs' =>
      have hleading := congrArg (List.takeWhile (·.kind.isTrivia)) hus
      rw [takeWhile_isTrivia hlead ht, takeWhile_isTrivia hlead' ht'] at hleading
      subst hleading
      cases List.append_cancel_left hus
      rw [ih hs']

/-- Lexemes lie next to each other. --/
theorem tiles (h : Significant before ts ls) : ∃ stop, Tiles (Tree.sizes (before.map .leaf)) ls stop := by
  induction h with
  | nil => exact ⟨_, rfl⟩
  | cons hlead ht hs ih =>
    obtain ⟨stop, hstop⟩ := ih
    refine ⟨stop, ?_, hlead, ?_⟩
    · rw [Lexeme.blanks, List.map_append, Tree.sizes_append]
    · rw [List.map_append, Tree.sizes_append, List.map_singleton, Tree.sizes_singleton] at hstop
      exact hstop

end Significant

theorem tiles_lexemes (ts : List Token) : ∃ stop, Tiles 0 (lexemes ts).1 stop := (significant_lexemes ts).tiles

/-! ### Chunks -/

theorem flatMap_chunks (ls : List Lexeme) : (chunks ls).flatMap Chunk.lexemes = ls := by
  induction ls using chunks.induct with
  | case1 => rw [chunks, List.flatMap_nil]
  | case2 l ls ih => rw [chunks, List.flatMap_cons, ih, Chunk.lexemes, List.cons_append, List.takeWhile_append_dropWhile]

theorem tails_chunks (ls : List Lexeme) : ∀ c ∈ chunks ls, ∀ l ∈ c.tail, l.opensLine = false := by
  induction ls using chunks.induct with
  | case1 =>
    rw [chunks]
    exact List.forall_mem_nil _
  | case2 l ls ih =>
    rw [chunks]
    refine List.forall_mem_cons.mpr ⟨fun m hm => ?_, ih⟩
    exact (Bool.not_eq_true' _).mp (List.all_eq_true.mp List.all_takeWhile m hm)

theorem opensLine_of_dropWhile (ls : List Lexeme) :
    ∀ l ∈ (ls.dropWhile (!·.opensLine)).head?, l.opensLine = true := by
  intro l hl
  have hnot := List.head?_dropWhile_not (fun l : Lexeme => !l.opensLine) ls
  rw [Option.mem_def.mp hl] at hnot
  simpa using hnot

/-- If the first lexeme opens a line, each chunk begins with one that does. --/
theorem heads_chunks (ls : List Lexeme) (h : ∀ l ∈ ls.head?, l.opensLine = true) :
    ∀ c ∈ chunks ls, c.head.opensLine = true := by
  induction ls using chunks.induct with
  | case1 =>
    rw [chunks]
    exact List.forall_mem_nil _
  | case2 l ls ih =>
    rw [chunks]
    exact List.forall_mem_cons.mpr ⟨h l rfl, ih (opensLine_of_dropWhile ls)⟩

/-- Chunks that begin where they should are those that the program cuts their lexemes into. --/
theorem chunks_flatMap : ∀ {cs : List Chunk}, (∀ c ∈ cs.tail, c.head.opensLine = true) →
    (∀ c ∈ cs, ∀ l ∈ c.tail, l.opensLine = false) → chunks (cs.flatMap Chunk.lexemes) = cs
  | [], _, _ => by rw [List.flatMap_nil, chunks]
  | c :: cs, hheads, htails => by
    obtain ⟨hc, hcs⟩ := List.forall_mem_cons.mp htails
    have hc : ∀ l ∈ c.tail, (!l.opensLine) = true := fun l hl => (Bool.not_eq_true' _).mpr (hc l hl)
    have hrest : (cs.flatMap Chunk.lexemes).takeWhile (!·.opensLine) = [] ∧
        (cs.flatMap Chunk.lexemes).dropWhile (!·.opensLine) = cs.flatMap Chunk.lexemes := by
      cases cs with
      | nil => exact ⟨rfl, rfl⟩
      | cons d ds =>
        have hd : d.head.opensLine = true := hheads d List.mem_cons_self
        simp [Chunk.lexemes, hd]
    have ih : chunks (cs.flatMap Chunk.lexemes) = cs :=
      chunks_flatMap (fun d hd => hheads d (List.mem_of_mem_tail hd)) hcs
    rw [List.flatMap_cons, Chunk.lexemes, List.cons_append, chunks, List.takeWhile_append_of_pos hc,
      List.dropWhile_append_of_pos hc, hrest.1, hrest.2, List.append_nil, ih]

/-- Lexemes that open the same lines are cut in the same places. --/
theorem forall₂_chunks {R : Lexeme → Lexeme → Prop} (hopens : ∀ l l', R l l' → l.opensLine = l'.opensLine)
    {ls ms : List Lexeme} (h : List.Forall₂ R ls ms) :
    List.Forall₂ (fun c d : Chunk => List.Forall₂ R c.lexemes d.lexemes) (chunks ls) (chunks ms) := by
  have hcut : ∀ {ls ms : List Lexeme}, List.Forall₂ R ls ms →
      List.Forall₂ R (ls.takeWhile (!·.opensLine)) (ms.takeWhile (!·.opensLine)) ∧
        List.Forall₂ R (ls.dropWhile (!·.opensLine)) (ms.dropWhile (!·.opensLine)) := by
    intro ls ms h
    induction h with
    | nil => exact ⟨.nil, .nil⟩
    | cons hl hls ih =>
      rw [List.takeWhile_cons, List.takeWhile_cons, List.dropWhile_cons, List.dropWhile_cons, hopens _ _ hl]
      split
      · exact ⟨.cons hl ih.1, ih.2⟩
      · exact ⟨.nil, .cons hl hls⟩
  induction ls using chunks.induct generalizing ms with
  | case1 =>
    cases h
    rw [chunks]
    exact .nil
  | case2 l ls ih =>
    cases h with
    | cons hl hls =>
      rw [chunks, chunks]
      exact .cons (.cons hl (hcut hls).1) (ih (hcut hls).2)

/-- The program cuts documents into chunks as their layout asks for. --/
theorem cut_iff {ts : List Token} {cs : List Chunk} : Cut ts cs ↔ cs = chunks (lexemes ts).1 := by
  constructor
  · intro h
    rw [← h.covers.unique (significant_lexemes ts), chunks_flatMap h.heads h.tails]
  · rintro rfl
    refine ⟨?_, ?_, tails_chunks _⟩
    · rw [flatMap_chunks]
      exact significant_lexemes ts
    · cases hls : (lexemes ts).1 with
      | nil =>
        rw [chunks]
        exact List.forall_mem_nil _
      | cons l ls =>
        rw [chunks, List.tail_cons]
        exact heads_chunks _ (opensLine_of_dropWhile ls)

end Abnf
