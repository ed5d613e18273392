import Abnf.Proofs.Document.Acceptance
import Abnf.Proofs.Document.Parallel
import Abnf.Proofs.Document.Tokens

/-! Which malformed rules are told of. Nothing is told twice of one offset, and what is noticed at the end of a chunk is
    told of the offset of the next one. Behind a name no earlier report can stand in the way, since tokens are not empty
    (`Muted`, `parallel_muted`). In front of one it can: of a line that does not begin with a name nothing is told if the
    brackets before it were not closed. All other malformed chunks are told of (`told_iff`). -/

namespace Abnf

/-! ### Where chunks lie -/

/-- Lexemes that follow one another from one offset to another, each with a token that is not empty, and apart from what
    is before them if they open a line. --/
def Spaced (pos : Nat) : List Lexeme → Nat → Prop
  | [], stop => pos = stop
  | l :: ls, stop => pos ≤ l.start ∧ (l.opensLine = true → pos < l.start) ∧ l.start < l.span.stop ∧
      Spaced l.span.stop ls stop

namespace Spaced

variable {l : Lexeme} {ls : List Lexeme} {pos stop : Nat}

theorem le : ∀ {ls : List Lexeme} {pos stop : Nat}, Spaced pos ls stop → pos ≤ stop
  | [], _, _, h => Nat.le_of_eq h
  | _ :: _, _, _, ⟨hpos, _, hlt, hls⟩ => Nat.le_trans hpos (Nat.le_trans (Nat.le_of_lt hlt) hls.le)

theorem lt (h : Spaced pos (l :: ls) stop) : l.start < stop := Nat.lt_of_lt_of_le h.2.2.1 h.2.2.2.le

theorem mem : ∀ {ls : List Lexeme} {pos : Nat}, Spaced pos ls stop → ∀ l ∈ ls, pos ≤ l.start ∧ l.start < stop
  | [], _, _ => nofun
  | l :: ls, pos, h => by
    obtain ⟨hpos, -, hlt, hls⟩ := id h
    refine List.forall_mem_cons.mpr ⟨⟨hpos, h.lt⟩, fun m hm => ?_⟩
    obtain ⟨hle, hstop⟩ := hls.mem m hm
    exact ⟨by omega, hstop⟩

/-- They end where the last of them does. --/
theorem last : ∀ {ls : List Lexeme} {pos : Nat}, Spaced pos ls stop →
    ((ls.getLast?.map fun l => l.span.stop).getD pos) = stop
  | [], _, h => h
  | [_], _, ⟨_, _, _, h⟩ => h
  | _ :: m :: ls, _, ⟨_, _, _, h⟩ => by
    have hlast := h.last
    rw [List.getLast?_cons_cons]
    rwa [List.getLast?_eq_some_getLast (List.cons_ne_nil m ls)] at hlast ⊢

end Spaced

/-- A token that is not empty, behind trivia if it opens a line. --/
structure Lexeme.Solid (l : Lexeme) : Prop where
  token : 0 < l.token.size
  blanks : l.opensLine = true → 0 < Tree.sizes l.blanks

theorem Tiles.spaced : ∀ {ls : List Lexeme} {pos stop : Nat}, Tiles pos ls stop → (∀ l ∈ ls, l.Solid) → Spaced pos ls stop
  | [], _, _, h, _ => h
  | l :: ls, pos, stop, ⟨hstart, _, h⟩, hsolid => by
    obtain ⟨hl, hls⟩ := List.forall_mem_cons.mp hsolid
    refine ⟨hstart ▸ Nat.le_add_right _ _, fun hopens => ?_, Nat.lt_add_of_pos_right hl.token, h.spaced hls⟩
    have hblanks := hl.blanks hopens
    omega

theorem Tiles.stop_eq_total : ∀ {ls : List Lexeme} {pos stop : Nat}, Tiles pos ls stop →
    stop = pos + Token.total (ls.flatMap Lexeme.tokens)
  | [], _, _, h => h.symm
  | l :: ls, pos, stop, ⟨hstart, _, h⟩ => by
    have hleading : Tree.sizes l.blanks = Token.total l.leading := rfl
    have hstop : l.span.stop = l.start + l.token.size := rfl
    rw [h.stop_eq_total, List.flatMap_cons, Token.total_append, Lexeme.tokens, Token.total_snoc, hstop, hstart, hleading]
    omega

/-- Behind a token that matters, lexemes are solid. --/
theorem Significant.solid {before ts : List Token} {ls : List Lexeme} (h : Significant before ts ls)
    (hsize : ∀ t ∈ ts, 0 < t.size) (hopens : opensLine before = false) : ∀ l ∈ ls, l.Solid := by
  induction h with
  | nil => exact nofun
  | @cons before leading ts t ls hlead ht hs ih =>
    obtain ⟨hleading, hts⟩ := List.forall_mem_append.mp hsize
    obtain ⟨htoken, hts⟩ := List.forall_mem_cons.mp hts
    refine List.forall_mem_cons.mpr ⟨⟨htoken, fun hopen => ?_⟩, ih hts (opensLine_token _ ht)⟩
    cases leading with
    | nil =>
      rw [List.append_nil] at hopen
      exact absurd hopen (hopens ▸ Bool.false_ne_true)
    | cons b bs => exact Nat.add_pos_left (hleading b List.mem_cons_self) _

theorem Significant.solid_tail {ts : List Token} {l : Lexeme} {ls : List Lexeme} (h : Significant [] ts (l :: ls))
    (hsize : ∀ t ∈ ts, 0 < t.size) : 0 < l.token.size ∧ ∀ m ∈ ls, m.Solid := by
  cases h with
  | cons hlead ht hs =>
    obtain ⟨-, hts⟩ := List.forall_mem_append.mp hsize
    obtain ⟨htoken, hts⟩ := List.forall_mem_cons.mp hts
    exact ⟨htoken, hs.solid hts (opensLine_token _ ht)⟩

theorem Significant.stop_le {ts : List Token} {ls : List Lexeme} {stop : Nat} (h : Significant [] ts ls)
    (htiles : Tiles 0 ls stop) : stop ≤ Token.total ts := by
  have hall : (lexemes ts).1.flatMap Lexeme.tokens ++ (lexemes ts).2 = ts := tokens_lexemesFrom ts 0 [] true
  rw [h.unique (significant_lexemes ts)] at htiles
  rw [htiles.stop_eq_total, Nat.zero_add]
  conv_rhs => rw [← hall, Token.total_append]
  exact Nat.le_add_right _ _

theorem Token.Cover.total_eq {source : String} : ∀ {ts : List Token} {pos : Nat},
    Token.Cover source pos (Token.spans pos ts) → pos + Token.total ts = source.utf8ByteSize
  | [], _, h => h
  | t :: ts, pos, ⟨_, _, _, h⟩ => by
    rw [Token.total_cons, ← Nat.add_assoc]
    exact total_eq h

namespace Chunk

/-- The end of the last token of a chunk. --/
def stop (c : Chunk) : Nat := (c.tail.getLast?.map fun l => l.span.stop).getD c.head.span.stop

/-- A diagnostic begins inside the chunk. --/
def Holds (c : Chunk) (d : Diagnostic) : Prop := c.head.start ≤ d.span.start ∧ d.span.start ≤ c.stop

instance (c : Chunk) (d : Diagnostic) : Decidable (c.Holds d) := inferInstanceAs (Decidable (_ ∧ _))

end Chunk

/-- Chunks that lie one behind the other, apart from each other, in a source that ends at `stop`. --/
structure Laid (stop : Nat) (cs : List Chunk) : Prop where
  head : ∀ c ∈ cs, c.head.start < c.head.span.stop
  solid : ∀ c ∈ cs, ∀ l ∈ c.tail, l.Solid
  tiles : ∀ c ∈ cs, ∃ pos, Tiles pos c.lexemes c.stop
  apart : cs.Pairwise fun c d => c.stop < d.head.start
  ends : ∀ c ∈ cs, c.stop ≤ stop

namespace Laid

variable {stop : Nat} {c : Chunk} {cs ds : List Chunk}

theorem tail (h : Laid stop cs) (hc : c ∈ cs) : Spaced c.head.span.stop c.tail c.stop := by
  obtain ⟨pos, -, -, htail⟩ := h.tiles c hc
  exact htail.spaced (h.solid c hc)

theorem lt (h : Laid stop cs) (hc : c ∈ cs) : c.head.start < c.stop := Nat.lt_of_lt_of_le (h.head c hc) (h.tail hc).le

/-- What is in front of a chunk ends before it. --/
theorem left (h : Laid stop (cs ++ c :: ds)) : Laid c.head.start cs where
  head d hd := h.head d (List.mem_append_left _ hd)
  solid d hd := h.solid d (List.mem_append_left _ hd)
  tiles d hd := h.tiles d (List.mem_append_left _ hd)
  apart := (List.pairwise_append.mp h.apart).1
  ends d hd := Nat.le_of_lt ((List.pairwise_append.mp h.apart).2.2 d hd c List.mem_cons_self)

theorem right (h : Laid stop (cs ++ ds)) : Laid stop ds where
  head d hd := h.head d (List.mem_append_right _ hd)
  solid d hd := h.solid d (List.mem_append_right _ hd)
  tiles d hd := h.tiles d (List.mem_append_right _ hd)
  apart := (List.pairwise_append.mp h.apart).2.1
  ends d hd := h.ends d (List.mem_append_right _ hd)

theorem rest (h : Laid stop (c :: cs)) : Laid stop cs := by
  rw [← List.singleton_append] at h
  exact h.right

/-- A chunk ends before the next one begins, or where the source ends. --/
theorem next (h : Laid stop (c :: cs)) : c.stop ≤ (cs.head?.map fun c => c.head.start).getD stop := by
  cases cs with
  | nil => exact h.ends c List.mem_cons_self
  | cons d ds => exact Nat.le_of_lt ((List.pairwise_cons.mp h.apart).1 d List.mem_cons_self)

end Laid

theorem Tiles.chunk_stop {c : Chunk} {pos stop : Nat} (h : Tiles pos c.lexemes stop) : c.stop = stop := by
  have hlast := h.stop_eq
  rw [Chunk.stop]
  cases htail : c.tail with
  | nil => exact Option.some.inj (by rwa [htail] at hlast)
  | cons l ls =>
    rw [htail, List.getLast?_cons_cons] at hlast
    rw [hlast]
    rfl

theorem laid_of_tiles {stop : Nat} : ∀ {cs : List Chunk} {c : Chunk} {pos : Nat}, 0 < c.head.token.size →
    Tiles pos ((c :: cs).flatMap Chunk.lexemes) stop → (∀ l ∈ c.tail ++ cs.flatMap Chunk.lexemes, l.Solid) →
    (∀ d ∈ cs, d.head.opensLine = true) → Laid stop (c :: cs)
  | [], c, pos, hhead, h, hsolid, _ => by
    rw [List.flatMap_cons, List.flatMap_nil, List.append_nil] at h
    rw [List.flatMap_nil, List.append_nil] at hsolid
    have hstop := h.chunk_stop
    refine ⟨?_, ?_, ?_, List.pairwise_singleton _ _, ?_⟩ <;> refine List.forall_mem_singleton.mpr ?_
    · exact Nat.lt_add_of_pos_right hhead
    · exact hsolid
    · exact ⟨pos, hstop ▸ h⟩
    · exact Nat.le_of_eq hstop
  | d :: ds, c, pos, hhead, h, hsolid, hopens => by
    obtain ⟨hd, hds⟩ := List.forall_mem_cons.mp hopens
    obtain ⟨hc, hsolid⟩ := List.forall_mem_append.mp hsolid
    rw [List.flatMap_cons] at h
    obtain ⟨mid, hchunk, hmore⟩ := tiles_append.mp h
    obtain ⟨hdsolid, hsolid'⟩ := List.forall_mem_cons.mp hsolid
    have hlaid : Laid stop (d :: ds) := laid_of_tiles hdsolid.token hmore hsolid' hds
    have hstop : c.stop = mid := hchunk.chunk_stop
    have hdlt := hlaid.lt List.mem_cons_self
    have hdle := hlaid.ends d List.mem_cons_self
    have hapart : c.stop < d.head.start := hstop ▸ (hmore.spaced hsolid).2.1 hd
    exact {
      head := List.forall_mem_cons.mpr ⟨Nat.lt_add_of_pos_right hhead, hlaid.head⟩
      solid := List.forall_mem_cons.mpr ⟨hc, hlaid.solid⟩
      tiles := List.forall_mem_cons.mpr ⟨⟨pos, hstop ▸ hchunk⟩, hlaid.tiles⟩
      apart := by
        refine List.pairwise_cons.mpr ⟨List.forall_mem_cons.mpr ⟨hapart, fun e he => ?_⟩, hlaid.apart⟩
        exact Nat.lt_trans hapart (Nat.lt_trans hdlt ((List.pairwise_cons.mp hlaid.apart).1 e he))
      ends := List.forall_mem_cons.mpr ⟨by omega, hlaid.ends⟩ }

/-- The chunks of a source. --/
theorem Cut.laid {source : String} {cs : List Chunk} (h : Cut (tokenize source) cs) : Laid source.utf8ByteSize cs := by
  have hsize : ∀ t ∈ tokenize source, 0 < t.size := fun t ht => size_pos_of_mem_tokenize ht
  obtain ⟨hcovers, hheads, -⟩ := h
  obtain ⟨stop, htiles⟩ := hcovers.tiles
  have hle := hcovers.stop_le htiles
  rw [← Nat.zero_add (Token.total _), (covers_tokenize source).total_eq] at hle
  cases cs with
  | nil => exact ⟨nofun, nofun, nofun, .nil, nofun⟩
  | cons c cs =>
    obtain ⟨hhead, hsolid⟩ := Significant.solid_tail (l := c.head) hcovers hsize
    have hlaid := laid_of_tiles hhead htiles hsolid hheads
    exact { hlaid with ends := fun d hd => Nat.le_trans (hlaid.ends d hd) hle }

namespace Parser

/-! ### Behind a name -/

/-- A chunk from `a` to `z`, before a token at `n`, that is read twice: behind a report of `q` and behind none. Both tell the
    same. Of `n` they tell just if brackets were not closed at the end of the chunk. --/
structure Muted (a z n : Nat) (q : Option Nat) (s s' : State) : Prop where
  rest : s.rest = s'.rest
  lastStop : s.lastStop = s'.lastStop
  tooDeep : s.tooDeep = s'.tooDeep
  behind : a < s.lastStop
  spaced : Spaced s.lastStop s.rest z
  told : s.diagnostics = s'.diagnostics
  silent : s.diagnostics = [] → s.reported = q ∧ s'.reported = none
  loud : s.diagnostics ≠ [] → s.reported = s'.reported ∧ ∃ r ≤ n, s.reported = some r
  inside : ∀ d ∈ s.diagnostics, a ≤ d.span.start ∧ d.span.start ≤ z
  reaching : z < n → (s'.reported = some n ↔ ∃ d ∈ s.diagnostics, d.Unclosed ∧ d.span.stop = z)
  finished : z < n → s'.reported = some n → s.rest = []

/-- Besides, nothing has been told of `n`. --/
structure Unreached (a z n : Nat) (q : Option Nat) (s s' : State) : Prop extends Muted a z n q s s' where
  unreached : z < n → s'.reported ≠ some n

variable {a z n offset : Nat} {q : Option Nat} {s s' : State} {d : Diagnostic}

theorem Muted.report (h : Muted a z n q s s') (hq : ∀ r ∈ q, r ≤ a) (hoffset : a < offset ∧ offset ≤ n)
    (hinside : a ≤ d.span.start ∧ d.span.start ≤ z)
    (hreach : z < n → (offset = n ↔ d.Unclosed ∧ d.span.stop = z)) (hrest : z < n → offset = n → s.rest = [])
    (hagain : z < n → s'.reported = some n → offset = n) : Muted a z n q (s.report offset d) (s'.report offset d) := by
  have hsame : s.reported = some offset ↔ s'.reported = some offset := by
    by_cases hnil : s.diagnostics = []
    · obtain ⟨hs, hs'⟩ := h.silent hnil
      rw [hs, hs']
      refine ⟨fun hmem => ?_, nofun⟩
      have hle := hq offset hmem
      omega
    · rw [(h.loud hnil).1]
  rw [State.report, State.report]
  by_cases hs : s.reported = some offset
  · rwa [if_pos hs, if_pos (hsame.mp hs)]
  · rw [if_neg hs, if_neg (hsame.not.mp hs)]
    refine { h with
      told := congrArg (· ++ [d]) h.told
      silent := fun hnil => absurd hnil (List.append_ne_nil_of_right_ne_nil _ (List.cons_ne_nil _ _))
      loud := fun _ => ⟨rfl, offset, hoffset.2, rfl⟩
      inside := List.forall_mem_append.mpr ⟨h.inside, List.forall_mem_singleton.mpr hinside⟩
      reaching := fun hlt => ?_
      finished := fun hlt hn => hrest hlt (Option.some.inj hn) }
    rw [Option.some_inj]
    constructor
    · exact fun hn => ⟨d, List.mem_append_right _ List.mem_cons_self, (hreach hlt).mp hn⟩
    · rintro ⟨e, he, hunclosed⟩
      rcases List.mem_append.mp he with he | he
      · exact hagain hlt ((h.reaching hlt).mpr ⟨e, he, hunclosed⟩)
      · rw [List.mem_singleton.mp he] at hunclosed
        exact (hreach hlt).mpr hunclosed

/-- Of any other fault it is told inside the chunk. --/
theorem Unreached.report (h : Unreached a z n q s s') (hq : ∀ r ∈ q, r ≤ a) (hzn : z ≤ n)
    (hstart : a < d.span.start ∧ d.span.start ≤ z) (hother : ¬d.Unclosed) :
    Muted a z n q (s.tell d) (s'.tell d) :=
  h.toMuted.report hq ⟨hstart.1, Nat.le_trans hstart.2 hzn⟩ ⟨Nat.le_of_lt hstart.1, hstart.2⟩
    (fun hlt => ⟨fun hn => absurd hn (by omega), fun hunclosed => absurd hunclosed.1 hother⟩)
    (fun hlt hn => absurd hn (by omega)) (fun hlt hn => absurd hn (h.unreached hlt))

theorem Muted.take (h : Muted a z n q s s') : Muted a z n q s.take.2 s'.take.2 := by
  have hspaced := h.spaced
  have hfinished := h.finished
  rw [State.take, State.take, ← h.rest]
  split
  · exact h
  · rename_i l ls hs
    rw [hs] at hspaced hfinished
    obtain ⟨hpos, -, hlt, hls⟩ := hspaced
    exact { h with
      rest := rfl
      lastStop := rfl
      behind := Nat.lt_of_lt_of_le h.behind (Nat.le_trans hpos (Nat.le_of_lt hlt))
      spaced := hls
      finished := fun hzn hn => absurd (hfinished hzn hn) (List.cons_ne_nil _ _) }

theorem Muted.blanks (h : Muted a z n q s s') : Muted a z n q s.blanks.2 s'.blanks.2 := by
  have hspaced := h.spaced
  have hfinished := h.finished
  rw [State.blanks, State.blanks, ← h.rest]
  split
  · exact h
  · rename_i l ls hs
    rw [hs] at hspaced hfinished
    exact { h with
      rest := rfl
      spaced := hspaced
      finished := fun hzn hn => absurd (hfinished hzn hn) (List.cons_ne_nil _ _) }

@[simp] theorem State.reported_take (s : State) : s.take.2.reported = s.reported := by
  rw [take]
  split <;> rfl

@[simp] theorem State.reported_blanks (s : State) : s.blanks.2.reported = s.reported := by
  rw [blanks]
  split <;> rfl

theorem Muted.takeAll (h : Muted a z n q s s') : Muted a z n q s.takeAll.2 s'.takeAll.2 := by
  have hlast := h.spaced.last
  have hlast' := hlast
  have hbehind := h.behind
  have hle := h.spaced.le
  rw [h.rest, h.lastStop] at hlast'
  exact { h with
    rest := rfl
    lastStop := hlast.trans hlast'.symm
    behind := by
      rw [State.takeAll]
      dsimp only
      rw [hlast]
      omega
    spaced := hlast
    finished := fun _ _ => rfl }

theorem tells_unclosed (b : Bracket) (l : Lexeme) (lastStop : Nat) : (unclosed b l lastStop).Unclosed := by
  cases b
  · exact .inl rfl
  · exact .inr rfl

section
variable (b : Bracket) {l : Lexeme} (h : Muted a z n q s s') (hq : ∀ r ∈ q, r ≤ a) (hstart : a ≤ l.start) (hzn : z ≤ n)
include h hq hstart hzn

/-- At the end of the chunk brackets that are not closed are told of the next token. --/
theorem Muted.unclosed_end (hs : s.rest = []) (hl : l.span.stop ≤ z) :
    Muted a z n q (s.report n (unclosed b l s.lastStop)) (s'.report n (unclosed b l s.lastStop)) := by
  have hend : s.lastStop = z := by
    have hspaced := h.spaced
    rwa [hs] at hspaced
  have hlt := h.behind
  have hle : l.start ≤ l.span.stop := Nat.le_add_right _ _
  have hstop : (unclosed b l s.lastStop).span.stop = z := by
    change max s.lastStop l.span.stop = z
    omega
  refine h.report hq ⟨by omega, Nat.le_refl n⟩ ⟨hstart, Nat.le_trans hle hl⟩ (fun _ => ?_) (fun _ _ => hs) fun _ _ => rfl
  exact iff_of_true rfl ⟨tells_unclosed b l s.lastStop, hstop⟩

/-- Before the end they are told of the token ahead, and end before the chunk does. --/
theorem Muted.unclosed_before {m : Lexeme} {ms : List Lexeme} (hs : s.rest = m :: ms) (hl : l.span.stop < z) :
    Muted a z n q (s.report m.start (unclosed b l s.lastStop)) (s'.report m.start (unclosed b l s.lastStop)) := by
  have hspaced := h.spaced
  rw [hs] at hspaced
  have hm := hspaced.1
  have hlast := hspaced.lt
  have hbehind := h.behind
  have hle : l.start ≤ l.span.stop := Nat.le_add_right _ _
  have hstop : (unclosed b l s.lastStop).span.stop = max s.lastStop l.span.stop := rfl
  refine h.report hq ⟨by omega, by omega⟩ ⟨hstart, Nat.le_trans hle (Nat.le_of_lt hl)⟩ (fun _ => ?_) (fun _ hn => ?_)
    fun hlt hn => ?_
  · exact iff_of_false (by omega) fun hunclosed => by omega
  · omega
  · rw [h.finished hlt hn] at hs
    cases hs

end

theorem parallel_muted (σ : Scope) {a z : Nat} {q : Option Nat} (hq : ∀ r ∈ q, r ≤ a) (hz : z ≤ σ.next) :
    Parallel σ σ (fun l l' => l = l' ∧ a < l.start ∧ l.start ≤ z) Eq (Muted a z σ.next q) (Unreached a z σ.next q) where
  limit := rfl
  trees := treewise_eq
  kind h := congrArg Lexeme.kind h.1
  touching h := congrArg (·.leading.isEmpty) h.1
  leaf h := congrArg (fun l : Lexeme => [Tree.leaf l.token]) h.1
  leading h := congrArg Lexeme.blanks h.1
  rest {s s'} h := by
    rw [← h.rest, List.forall₂_same]
    intro l hl
    obtain ⟨hle, hlt⟩ := h.spaced.mem l hl
    exact ⟨rfl, Nat.lt_of_lt_of_le h.behind hle, Nat.le_of_lt hlt⟩
  tooDeep h := h.tooDeep
  weaken h := h.toMuted
  ahead h hrest := ⟨h, fun hlt hn => hrest (h.finished hlt hn)⟩
  take h := ⟨h.toMuted.take, by simpa using h.unreached⟩
  blanks h := ⟨h.toMuted.blanks, by simpa using h.unreached⟩
  takeAll h := h.takeAll
  deepen h := { h with tooDeep := rfl }
  missing {s s' f} hf h := by
    have hspan : (f (.empty s.lastStop)).span.start = s.lastStop := congrArg Span.start (hf.span _)
    rw [← h.lastStop]
    exact h.report hq hz (hspan.symm ▸ ⟨h.behind, h.spaced.le⟩) (hf.other _)
  marked {s s' l l' f} hf h hl := by
    obtain ⟨rfl, hl⟩ := hl
    have hspan : (f l.span).span.start = l.start := congrArg Span.start (hf.span _)
    exact h.report hq hz (hspan.symm ▸ hl) (hf.other _)
  unclosed {s₀ s₀' s s' l l' ls ls'} b h₀ hl hl' h hshorter := by
    obtain rfl : l = l' := (List.cons.inj (hl.symm.trans (h₀.rest.trans hl'))).1
    have hopening := h₀.spaced
    rw [hl] at hopening
    obtain ⟨hpos, -, -, hls⟩ := hopening
    have hstart : a ≤ l.start := Nat.le_of_lt (Nat.lt_of_lt_of_le h₀.behind hpos)
    rw [noticed, noticed, ← h.rest, ← h.lastStop]
    cases hs : s.rest with
    | nil => exact h.unclosed_end b hq hstart hz hs hls.le
    | cons m ms =>
      -- The bracket is not the last token of the chunk, since one is still ahead.
      have hopen : l.span.stop < z := by
        cases ls with
        | nil => simp [hs] at hshorter
        | cons k ks => exact Nat.lt_of_le_of_lt hls.1 hls.lt
      exact h.unclosed_before b hq hstart hz hs hopen

/-! ### Chunk by chunk -/

/-- What is told of a chunk in front of a token at `next`, behind a report of `q`. --/
structure Heard (limit next : Nat) (q : Option Nat) (c : Chunk) (s : State) : Prop where
  inside : ∀ d ∈ s.diagnostics, c.Holds d
  reported : ∀ r ∈ s.reported, r ≤ next
  reaching : c.stop < next → (s.reported = some next ↔ ∃ d ∈ s.diagnostics, d.Unclosed ∧ d.span.stop = c.stop)
  heard : s.diagnostics ≠ [] ↔ (¬∃ d, c.Derives limit d) ∧ (c.head.kind = .ruleName ∨ q ≠ some c.head.start)

section
variable {limit next : Nat} {c : Chunk} (hhead : c.head.start < c.head.span.stop)
  (htail : Spaced c.head.span.stop c.tail c.stop) (hnext : c.stop ≤ next) (hq : ∀ r ∈ q, r ≤ c.head.start)

theorem diagnostics_eq_nil_iff {pos stop : Nat} (htiles : Tiles pos c.lexemes stop) :
    (chunk ⟨limit, next⟩ none c).2.diagnostics = [] ↔ ∃ d, c.Derives limit d := by
  constructor
  · exact fun h => (chunk_finds h).2
  · rintro ⟨d, hd⟩
    obtain ⟨_, _, hchunk, hquiet, -⟩ := chunk_reads hd next none htiles
    rw [hchunk]
    exact hquiet

include hhead htail hnext hq

/-- Behind a name the last report makes no difference. --/
theorem muted_named (limit : Nat) (hname : c.head.kind = .ruleName) :
    Muted c.head.start c.stop next q (chunk ⟨limit, next⟩ q c).2 (chunk ⟨limit, next⟩ none c).2 := by
  let s (q : Option Nat) : State :=
    { rest := c.tail, lastStop := c.head.span.stop, tooDeep := false, reported := q, diagnostics := [] }
  have hstart : Unreached c.head.start c.stop next q (s q) (s none) :=
    { rest := rfl
      lastStop := rfl
      tooDeep := rfl
      behind := hhead
      spaced := htail
      told := rfl
      silent := fun _ => ⟨rfl, rfl⟩
      loud := fun h => absurd rfl h
      inside := nofun
      reaching := fun _ => ⟨nofun, nofun⟩
      finished := fun _ => nofun
      unreached := fun _ => nofun }
  have hchunk : ∀ q, (chunk ⟨limit, next⟩ q c).2 = (afterName ⟨limit, next⟩ (s q)).2 := by
    intro q
    rw [chunk_eq, if_pos hname, State.blanks_cons (s := front q c) rfl]
    dsimp only
    rw [rule_afterName, State.take_cons rfl]
    rfl
  rw [hchunk, hchunk]
  exact ((parallel_muted ⟨limit, next⟩ hq hnext).together_afterName hstart).2

theorem heard_named {pos stop : Nat} (htiles : Tiles pos c.lexemes stop) (hname : c.head.kind = .ruleName) :
    Heard limit next q c (chunk ⟨limit, next⟩ q c).2 := by
  have h := muted_named hhead htail hnext hq limit hname
  have hle := htail.le
  refine ⟨h.inside, fun r hr => ?_, fun hlt => ?_, ?_⟩
  · by_cases hnil : (chunk ⟨limit, next⟩ q c).2.diagnostics = []
    · rw [(h.silent hnil).1] at hr
      have hr := hq r hr
      omega
    · obtain ⟨-, r', hr', hreported⟩ := h.loud hnil
      cases hreported.symm.trans hr
      exact hr'
  · rw [← h.reaching hlt]
    by_cases hnil : (chunk ⟨limit, next⟩ q c).2.diagnostics = []
    · obtain ⟨hreported, hreported'⟩ := h.silent hnil
      rw [hreported, hreported']
      refine ⟨fun hmem => ?_, nofun⟩
      have hr := hq next hmem
      omega
    · rw [(h.loud hnil).1]
  · rw [Ne, h.told, diagnostics_eq_nil_iff htiles]
    exact ⟨fun h => ⟨h, .inl hname⟩, And.left⟩

omit hhead htail hnext hq in
/-- Without a name all is left over, and told of the offset of the first token. --/
theorem chunk_unnamed (limit next : Nat) (q : Option Nat) (hname : c.head.kind ≠ .ruleName) :
    (chunk ⟨limit, next⟩ q c).2.reported = some c.head.start ∧ (chunk ⟨limit, next⟩ q c).2.diagnostics =
      if q = some c.head.start then [] else [.of .expectedRuleName c.head.span] := by
  let s := (front q c).tell (.of .expectedRuleName c.head.span)
  have hchunk : (chunk ⟨limit, next⟩ q c).2 = (s.blanks.2.takeAll).2 := by
    rw [chunk_eq, if_neg hname]
    rfl
  rw [hchunk]
  refine ⟨(State.reported_blanks s).trans ?_, (State.diagnostics_blanks s).trans ?_⟩
  · change ((front q c).report _ _).reported = _
    rw [State.report]
    split
    · assumption
    · rfl
  · change ((front q c).report _ _).diagnostics = _
    rw [State.report]
    split <;> rename_i h <;> simp only [front] at h
    · exact (if_pos h).symm
    · exact (if_neg h).symm

omit hq in
theorem heard_unnamed (hname : c.head.kind ≠ .ruleName) : Heard limit next q c (chunk ⟨limit, next⟩ q c).2 := by
  obtain ⟨hreported, htold⟩ := chunk_unnamed limit next q hname
  have hle := htail.le
  have hnone : ¬∃ d, c.Derives limit d := by
    rintro ⟨_, hname', -, -⟩
    exact hname hname'
  have hmem : ∀ d ∈ (chunk ⟨limit, next⟩ q c).2.diagnostics, d = .of .expectedRuleName c.head.span := by
    intro d hd
    rw [htold] at hd
    split at hd
    · cases hd
    · exact List.mem_singleton.mp hd
  refine ⟨fun d hd => ?_, fun r hr => ?_, fun hlt => ?_, ?_⟩
  · rw [hmem d hd]
    change c.head.start ≤ c.head.start ∧ c.head.start ≤ c.stop
    omega
  · cases hreported.symm.trans hr
    omega
  · rw [hreported, Option.some_inj]
    refine iff_of_false (by omega) ?_
    rintro ⟨d, hd, hunclosed, -⟩
    rw [hmem d hd] at hunclosed
    exact absurd hunclosed ((marks_of .expectedRuleName (by decide)).other _)
  · rw [htold]
    by_cases hsame : q = some c.head.start <;> simp [hsame, hnone, hname]

theorem heard_chunk {pos stop : Nat} (htiles : Tiles pos c.lexemes stop) :
    Heard limit next q c (chunk ⟨limit, next⟩ q c).2 := by
  by_cases hname : c.head.kind = .ruleName
  · exact heard_named hhead htail hnext hq htiles hname
  · exact heard_unnamed hhead htail hnext hname

end

/-- The offset of the last report behind chunks that are followed by a token at `stop`. --/
def reached (limit stop : Nat) (q : Option Nat) : List Chunk → Option Nat
  | [] => q
  | c :: cs => reached limit stop (chunk ⟨limit, (cs.head?.map fun c => c.head.start).getD stop⟩ q c).2.reported cs

/-- Chunks are read after those before them. --/
theorem document_append (limit stop : Nat) (c : Chunk) (after : List Chunk) : ∀ (before : List Chunk) (q : Option Nat),
    (document limit stop q (before ++ c :: after)).2 = (document limit c.head.start q before).2 ++
      (document limit stop (reached limit c.head.start q before) (c :: after)).2
  | [], _ => rfl
  | p :: before, q => by
    have hnext : ((before ++ c :: after).head?.map fun c => c.head.start).getD stop =
        (before.head?.map fun c => c.head.start).getD c.head.start := by
      cases before <;> rfl
    rw [List.cons_append, document, hnext]
    dsimp only
    rw [document_append limit stop c after before, ← List.append_assoc]
    rfl

theorem reached_snoc (limit stop : Nat) (c : Chunk) : ∀ (before : List Chunk) (q : Option Nat),
    reached limit stop q (before ++ [c]) =
      (chunk ⟨limit, stop⟩ (reached limit c.head.start q before) c).2.reported
  | [], _ => rfl
  | p :: before, q => by
    have hnext : ((before ++ [c]).head?.map fun c => c.head.start).getD stop =
        (before.head?.map fun c => c.head.start).getD c.head.start := by
      cases before <;> rfl
    rw [List.cons_append, reached, hnext]
    exact reached_snoc limit stop c before _

section
variable {limit stop : Nat} {c : Chunk} {cs before after : List Chunk} {q : Option Nat} {d : Diagnostic}

theorem heard_of_laid (limit : Nat) (h : Laid stop (c :: cs)) (hq : ∀ r ∈ q, r ≤ c.head.start) :
    Heard limit ((cs.head?.map fun c => c.head.start).getD stop) q c
      (chunk ⟨limit, (cs.head?.map fun c => c.head.start).getD stop⟩ q c).2 := by
  obtain ⟨pos, htiles⟩ := h.tiles c List.mem_cons_self
  exact heard_chunk (h.head c List.mem_cons_self) (h.tail List.mem_cons_self) h.next hq htiles

/-- What is told of chunks begins inside one of them, and the last report is not of what is behind the next token. --/
theorem document_inside (limit : Nat) : ∀ {cs : List Chunk} {q : Option Nat}, Laid stop cs →
    (∀ r ∈ q, r ≤ (cs.head?.map fun c => c.head.start).getD stop) →
    (∀ d ∈ (document limit stop q cs).2, ∃ c ∈ cs, c.Holds d) ∧ ∀ r ∈ reached limit stop q cs, r ≤ stop
  | [], _, _, hq => ⟨List.forall_mem_nil _, hq⟩
  | c :: cs, _, h, hq => by
    have hheard := heard_of_laid limit h hq
    obtain ⟨hinside, hreached⟩ := document_inside limit h.rest hheard.reported
    refine ⟨?_, hreached⟩
    rw [document]
    refine List.forall_mem_append.mpr ⟨fun d hd => ⟨c, List.mem_cons_self, hheard.inside d hd⟩, fun d hd => ?_⟩
    obtain ⟨e, he, hholds⟩ := hinside d hd
    exact ⟨e, List.mem_cons_of_mem c he, hholds⟩

theorem heard_behind (limit : Nat) (h : Laid stop (before ++ c :: after)) :
    Heard limit ((after.head?.map fun c => c.head.start).getD stop) (reached limit c.head.start none before) c
      (chunk ⟨limit, (after.head?.map fun c => c.head.start).getD stop⟩ (reached limit c.head.start none before) c).2 :=
  heard_of_laid limit h.right (document_inside limit (q := none) h.left nofun).2

/-- What begins inside a chunk is told when it is read. --/
theorem mem_document_iff (h : Laid stop (before ++ c :: after)) :
    d ∈ (document limit stop none (before ++ c :: after)).2 ∧ c.Holds d ↔
      d ∈ (chunk ⟨limit, (after.head?.map fun c => c.head.start).getD stop⟩
        (reached limit c.head.start none before) c).2.diagnostics := by
  have hheard := heard_behind limit h
  have hbefore := (document_inside limit (q := none) h.left nofun).1
  have hafter := (document_inside limit h.right.rest hheard.reported).1
  obtain ⟨-, happart, hapart⟩ := List.pairwise_append.mp h.apart
  rw [document_append, document]
  constructor
  · rintro ⟨hd, hstart, hstop⟩
    rcases List.mem_append.mp hd with hd | hd
    · obtain ⟨p, hp, -, hle⟩ := hbefore d hd
      have hlt := hapart p hp c List.mem_cons_self
      omega
    rcases List.mem_append.mp hd with hd | hd
    · exact hd
    · obtain ⟨e, he, hle, -⟩ := hafter d hd
      have hlt := (List.pairwise_cons.mp happart).1 e he
      omega
  · exact fun hd => ⟨List.mem_append_right _ (List.mem_append_left _ hd), hheard.inside d hd⟩

/-- The offset of a chunk was told of before if the brackets before it were not closed. --/
theorem reached_iff (h : Laid stop (before ++ c :: after)) : reached limit c.head.start none before = some c.head.start ↔
    ∃ p ∈ before.getLast?, ∃ d ∈ (document limit stop none (before ++ c :: after)).2,
      p.Holds d ∧ d.Unclosed ∧ d.span.stop = p.stop := by
  rcases List.eq_nil_or_concat before with rfl | ⟨ps, p, rfl⟩
  · exact ⟨nofun, nofun⟩
  · have hall : Laid stop (ps ++ p :: c :: after) := by simpa using h
    have hlt : p.stop < c.head.start := (List.pairwise_cons.mp hall.right.apart).1 c List.mem_cons_self
    rw [List.concat_eq_append, reached_snoc, List.getLast?_concat, List.append_assoc, List.singleton_append]
    refine ((heard_behind limit hall).reaching hlt).trans ?_
    constructor
    · rintro ⟨d, hd, hunclosed⟩
      obtain ⟨hmem, hholds⟩ := (mem_document_iff hall).mpr hd
      exact ⟨p, rfl, d, hmem, hholds, hunclosed⟩
    · rintro ⟨_, ⟨⟩, d, hmem, hholds, hunclosed⟩
      exact ⟨d, (mem_document_iff hall).mp ⟨hmem, hholds⟩, hunclosed⟩

end
end Parser

/-- A chunk is told of just if it derives no definition, but for one that does not begin with a name behind a chunk whose
    last brackets are not closed. --/
theorem told_iff {source : String} {limit : Nat} {before after : List Chunk} {c : Chunk}
    (h : Cut (tokenize source) (before ++ c :: after)) :
    (∃ d ∈ (parse source limit).diagnostics, c.Holds d) ↔ (¬∃ d, c.Derives limit d) ∧
      (c.head.kind = .ruleName ∨ ¬∃ p ∈ before.getLast?, ∃ d ∈ (parse source limit).diagnostics,
        p.Holds d ∧ d.Unclosed ∧ d.span.stop = p.stop) := by
  have hlaid := h.laid
  have hparse : (parse source limit).diagnostics =
      (Parser.document limit source.utf8ByteSize none (before ++ c :: after)).2 := by
    rw [cut_iff.mp h]
    rfl
  rw [hparse, ← Parser.reached_iff hlaid, ← Ne, ← (Parser.heard_behind limit hlaid).heard]
  constructor
  · rintro ⟨d, hd⟩
    exact List.ne_nil_of_mem (Parser.mem_document_iff hlaid |>.mp hd)
  · intro hne
    obtain ⟨d, hd⟩ := List.exists_mem_of_ne_nil _ hne
    exact ⟨d, (Parser.mem_document_iff hlaid).mpr hd⟩

/-- A line that is no rule goes unnoticed behind a group that is not closed. --/
theorem told_iff_unclosed :
    let source := "a = (b\n= c\n"
    ∃ p c, Cut (tokenize source) ([p] ++ c :: []) ∧ (¬∃ d, c.Derives 256 d) ∧
      ¬∃ d ∈ (parse source 256).diagnostics, c.Holds d := by
  intro source
  have htwo : (chunks (lexemes (tokenize source)).1).length = 2 := by decide +kernel
  have hunnamed : ∀ c ∈ (chunks (lexemes (tokenize source)).1).tail, c.head.kind ≠ .ruleName := by decide +kernel
  have hunclosed : ∀ p ∈ (chunks (lexemes (tokenize source)).1).take 1, ∃ d ∈ (parse source 256).diagnostics,
      p.Holds d ∧ d.Unclosed ∧ d.span.stop = p.stop := by decide +kernel
  obtain ⟨p, c, hcs⟩ := List.length_eq_two.mp htwo
  rw [hcs] at hunnamed hunclosed
  have hname : c.head.kind ≠ .ruleName := hunnamed c List.mem_cons_self
  have hcut : Cut (tokenize source) ([p] ++ c :: []) := cut_iff.mpr hcs.symm
  refine ⟨p, c, hcut, ?_, fun htold => ?_⟩
  · rintro ⟨_, hname', -, -⟩
    exact hname hname'
  · rcases ((told_iff hcut).mp htold).2 with hname' | hclosed
    · exact hname hname'
    · exact hclosed ⟨p, rfl, hunclosed p List.mem_cons_self⟩

end Abnf
