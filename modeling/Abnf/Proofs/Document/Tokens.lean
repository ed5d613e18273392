import Abnf.Document.Lexer
import Abnf.Proofs.Document.Lexemes
import Mathlib.Data.List.Chain
import Mathlib.Data.List.TakeWhile

/-! How a source falls into tokens. Each token has a text, the texts cover the source without gaps (`covers_tokenize`),
    garbage is not cut in two, and a line ends in a token of its own (`lined_of_mem_tokenize`). So what stands behind
    the end of a line does not bear on the tokens before it (`tokenize_append`). -/

namespace Abnf

namespace Token

/-- Only the end of a line has a line feed in it. --/
def Lined (t : Token) : Prop := '\n' ∈ t.text.toList → t.kind = .newline

/-- Two neighbours that are not both garbage. --/
def Apart (t u : Token) : Prop := ¬(t.kind = .garbage ∧ u.kind = .garbage)

/-- Tokens from an offset to the end of a source: none is empty, each begins where the one before it ends, and the text
    of each is what stands in the source at its span. --/
def Cover (source : String) (pos : Nat) : List (Token × Span) → Prop
  | [] => pos = source.utf8ByteSize
  | (t, s) :: ts => s.start = pos ∧ s.start < s.stop ∧ source.toByteArray.extract s.start s.stop = t.text.toByteArray ∧
      Cover source s.stop ts

end Token

namespace Lexer

/-! ### The token at the front -/

/-- So many characters are there to be taken, and there is no line feed among them unless they end a line. --/
structure Takes (cs : List Char) (x : TokenKind × Nat) : Prop where
  le : x.2 ≤ cs.length
  lined : '\n' ∉ cs.take x.2 ∨ x.1 = .newline

variable {cs : List Char} {n : Nat}

theorem not_mem_take_run {p : Char → Bool} (hp : p '\n' = false) (cs : List Char) : '\n' ∉ cs.take (run p cs) := by
  intro h
  rw [run, ← List.prefix_iff_eq_take.mp (List.takeWhile_prefix p)] at h
  rw [List.mem_takeWhile_imp h] at hp
  cases hp

theorem takes_zero (kind : TokenKind) (cs : List Char) : Takes cs (kind, 0) := ⟨Nat.zero_le _, .inl (by simp)⟩

theorem takes_run {p : Char → Bool} (hp : p '\n' = false) (kind : TokenKind) (cs : List Char) :
    Takes cs (kind, run p cs) := ⟨(List.takeWhile_prefix p).length_le, .inl (not_mem_take_run hp cs)⟩

/-- One more character may be taken if it is no line feed. --/
theorem takes_succ {d : Char} (h : '\n' ∉ cs.take n) (hd : (cs.drop n).head? = some d) (hne : d ≠ '\n')
    (kind : TokenKind) : Takes cs (kind, n + 1) := by
  rw [List.head?_drop] at hd
  refine ⟨(List.getElem?_eq_some_iff.mp hd).1, .inl ?_⟩
  rw [List.take_add_one, hd]
  simp [h, hne.symm]

theorem takes_ite {b : Prop} [Decidable b] {x y : TokenKind × Nat} (hx : b → Takes cs x) (hy : ¬b → Takes cs y) :
    Takes cs (if b then x else y) := by
  split
  · exact hx ‹_›
  · exact hy ‹_›

theorem takes_quoted (cs : List Char) : Takes cs (quoted cs) :=
  takes_ite (fun h => takes_succ (not_mem_take_run rfl cs) h (by decide) _) fun _ => takes_run rfl _ cs

theorem takes_prose (cs : List Char) : Takes cs (prose cs) :=
  takes_ite (fun h => takes_succ (not_mem_take_run rfl cs) h (by decide) _) fun _ => takes_run rfl _ cs

theorem quoted_ne_newline (cs : List Char) : (quoted cs).1 ≠ .newline := by
  rw [quoted]
  split <;> exact nofun

theorem takes_percent (cs : List Char) : Takes cs (percent cs) := by
  rcases cs with _ | ⟨mark, cs⟩
  · exact takes_zero _ _
  unfold percent
  refine takes_ite (fun hmark => ?_) fun _ => takes_ite (fun hmark => ?_) fun _ => takes_zero _ _
  · have hmark : mark ≠ '\n' := by
      rintro rfl
      cases hmark
    split
    · rename_i cs
      obtain ⟨hle, hin⟩ := takes_quoted cs
      have hin := hin.resolve_right (quoted_ne_newline cs)
      exact ⟨by simpa using hle, .inl (by simp [hmark.symm, hin])⟩
    · exact ⟨by simp, .inl (by simp [hmark.symm])⟩
  · have hmark : mark ≠ '\n' := by
      rintro rfl
      cases hmark
    obtain ⟨hle, -⟩ := takes_run (p := isNumChar) rfl .numVal cs
    have hin := not_mem_take_run (p := isNumChar) rfl cs
    exact ⟨by simpa using hle, .inl (by simp [hmark.symm, hin])⟩

theorem takes_front (c : Char) (cs : List Char) : Takes cs (front c cs) := by
  have hslash : cs.head? = some '/' → Takes cs (.incEquals, 1) := fun h =>
    takes_succ (n := 0) (by simp) h (by decide) _
  have hfeed : cs.head? = some '\n' → Takes cs (.newline, 1) := fun h => by
    rcases cs with _ | ⟨d, cs⟩
    · cases h
    · exact ⟨by simp, .inr rfl⟩
  rw [front]
  repeat' first
    | with_reducible exact takes_quoted cs
    | with_reducible exact takes_percent cs
    | with_reducible exact takes_prose cs
    | with_reducible exact takes_zero _ cs
    | refine takes_ite (fun _ => ?_) fun _ => ?_
  all_goals first
    | exact hslash ‹_›
    | exact hfeed ‹_›
    | exact takes_run rfl _ cs

theorem front_newline (cs : List Char) : front '\n' cs = (.newline, 0) := rfl

/-! ### Pieces -/

theorem lined_of_mem_pieces {t : Token} : ∀ {cs : List Char}, t ∈ pieces cs → t.Lined
  | [], h => by
    rw [pieces] at h
    cases h
  | c :: cs, h => by
    rw [pieces] at h
    rcases List.mem_cons.mp h with rfl | h
    · intro hmem
      rw [String.toList_ofList] at hmem
      rcases List.mem_cons.mp hmem with rfl | hmem
      · rfl
      · exact (takes_front c cs).lined.resolve_left (· hmem)
    · exact lined_of_mem_pieces h
  termination_by cs => cs.length
  decreasing_by simp only [List.length_drop, List.length_cons]; omega

theorem ne_nil_of_mem_pieces {t : Token} : ∀ {cs : List Char}, t ∈ pieces cs → t.text.toList ≠ []
  | [], h => by
    rw [pieces] at h
    cases h
  | c :: cs, h => by
    rw [pieces] at h
    rcases List.mem_cons.mp h with rfl | h
    · simp
    · exact ne_nil_of_mem_pieces h
  termination_by cs => cs.length
  decreasing_by simp only [List.length_drop, List.length_cons]; omega

/-- Nothing is lost. --/
theorem flatMap_pieces : ∀ cs : List Char, (pieces cs).flatMap (·.text.toList) = cs
  | [] => by rw [pieces, List.flatMap_nil]
  | c :: cs => by
    rw [pieces, List.flatMap_cons, flatMap_pieces, String.toList_ofList, List.cons_append, List.take_append_drop]
  termination_by cs => cs.length
  decreasing_by simp only [List.length_drop, List.length_cons]; omega

/-! ### Garbage -/

section
variable {t u : Token} {ts us : List Token}

theorem mergeGarbage_cons (t : Token) (ts : List Token) : mergeGarbage (t :: ts) = match mergeGarbage ts with
    | [] => [t]
    | u :: us =>
      if t.kind = .garbage ∧ u.kind = .garbage then ⟨.garbage, t.text ++ u.text⟩ :: us else t :: u :: us := rfl

theorem mergeGarbage_ne_nil : ∀ {ts : List Token}, ts ≠ [] → mergeGarbage ts ≠ []
  | t :: ts, _ => by
    rw [mergeGarbage]
    split
    · exact List.cons_ne_nil _ _
    · split <;> exact List.cons_ne_nil _ _

theorem flatMap_mergeGarbage : ∀ ts : List Token,
    (mergeGarbage ts).flatMap (·.text.toList) = ts.flatMap (·.text.toList)
  | [] => rfl
  | t :: ts => by
    have ih := flatMap_mergeGarbage ts
    rw [mergeGarbage, List.flatMap_cons, ← ih]
    split
    · rw [‹mergeGarbage ts = []›]
      simp
    · rw [‹mergeGarbage ts = _›]
      split <;> simp [String.toList_append]

/-- What holds of tokens holds of them with their garbage merged, if two pieces of garbage hand it on. --/
theorem forall_mem_mergeGarbage {P : Token → Prop}
    (hmerge : ∀ t u : Token, P t → P u → t.kind = .garbage → u.kind = .garbage → P ⟨.garbage, t.text ++ u.text⟩) :
    ∀ {ts : List Token}, (∀ t ∈ ts, P t) → ∀ t ∈ mergeGarbage ts, P t
  | [], _ => nofun
  | t :: ts, h => by
    obtain ⟨ht, hts⟩ := List.forall_mem_cons.mp h
    have ih := forall_mem_mergeGarbage hmerge hts
    rw [mergeGarbage]
    split
    · exact List.forall_mem_singleton.mpr ht
    · rw [‹mergeGarbage ts = _›] at ih
      obtain ⟨hu, hus⟩ := List.forall_mem_cons.mp ih
      split
      · rename_i hboth
        exact List.forall_mem_cons.mpr ⟨hmerge _ _ ht hu hboth.1 hboth.2, hus⟩
      · exact List.forall_mem_cons.mpr ⟨ht, ih⟩

theorem isChain_mergeGarbage : ∀ ts : List Token, List.IsChain Token.Apart (mergeGarbage ts)
  | [] => .nil
  | t :: ts => by
    have ih := isChain_mergeGarbage ts
    rw [mergeGarbage]
    split
    · exact .singleton t
    · rename_i u us hus
      rw [hus] at ih
      split
      · rename_i hboth
        -- Merged garbage is still garbage, so what follows it is none.
        rcases us with _ | ⟨v, us⟩
        · exact .singleton _
        · obtain ⟨hv, hrest⟩ := List.isChain_cons_cons.mp ih
          exact List.isChain_cons_cons.mpr ⟨fun h => hv ⟨hboth.2, h.2⟩, hrest⟩
      · exact List.isChain_cons_cons.mpr ⟨‹_›, ih⟩

/-- Behind a token that is no garbage nothing is merged with what stands before it. --/
theorem mergeGarbage_append : ∀ {ts : List Token} (us : List Token), (∀ t ∈ ts.getLast?, t.kind ≠ .garbage) →
    mergeGarbage (ts ++ us) = mergeGarbage ts ++ mergeGarbage us
  | [], us, _ => rfl
  | [t], us, h => by
    have ht : t.kind ≠ .garbage := h t rfl
    rw [List.singleton_append, mergeGarbage]
    split
    · rw [‹mergeGarbage us = []›]
      rfl
    · rw [‹mergeGarbage us = _›, if_neg fun hboth => ht hboth.1]
      rfl
  | t :: u :: ts, us, h => by
    have ih := @mergeGarbage_append (u :: ts) us (by rwa [List.getLast?_cons_cons] at h)
    obtain ⟨v, vs, hmerged⟩ := List.exists_cons_of_ne_nil (mergeGarbage_ne_nil (List.cons_ne_nil u ts))
    rw [List.cons_append, mergeGarbage_cons, mergeGarbage_cons t, ih, hmerged]
    dsimp only [List.cons_append]
    split <;> rfl

end

/-! ### Line ends -/

theorem run_lt {p : Char → Bool} (hp : p '\n' = false) : ∀ {ms : List Char}, '\n' ∈ ms → run p ms < ms.length
  | m :: ms, h => by
    rw [run, List.takeWhile_cons]
    split
    · have hms : '\n' ∈ ms := by
        rcases List.mem_cons.mp h with rfl | hms
        · simp_all
        · exact hms
      exact Nat.succ_lt_succ (run_lt hp hms)
    · exact Nat.succ_pos _

section
variable {ms : List Char} (h : '\n' ∈ ms) (cs : List Char)
include h

/-- A run ends with the line at the latest. --/
theorem run_line {p : Char → Bool} (hp : p '\n' = false) : run p (ms ++ cs) = run p ms := by
  have hlt := run_lt hp h
  rw [run] at hlt
  rw [run, run, List.takeWhile_append, if_neg (Nat.ne_of_lt hlt)]

theorem head?_line : (ms ++ cs).head? = ms.head? := by
  rcases ms with _ | ⟨m, ms⟩
  · cases h
  · rfl

theorem head?_drop_line {p : Char → Bool} (hp : p '\n' = false) :
    ((ms ++ cs).drop (run p ms)).head? = (ms.drop (run p ms)).head? := by
  rw [List.head?_drop, List.head?_drop, List.getElem?_append_left (run_lt hp h)]

theorem quoted_line : quoted (ms ++ cs) = quoted ms := by
  rw [quoted, quoted, run_line h cs rfl, head?_drop_line h cs rfl]

theorem prose_line : prose (ms ++ cs) = prose ms := by
  rw [prose, prose, run_line h cs rfl, head?_drop_line h cs rfl]

theorem percent_line : percent (ms ++ cs) = percent ms := by
  rcases ms with _ | ⟨mark, ms⟩
  · cases h
  by_cases hmark : mark = '\n'
  · subst hmark
    rfl
  have hms : '\n' ∈ ms := (List.mem_cons.mp h).resolve_left (Ne.symm hmark)
  rcases ms with _ | ⟨m, ms⟩
  · cases hms
  by_cases hm : m = '"'
  · subst hm
    have hms' : '\n' ∈ ms := (List.mem_cons.mp hms).resolve_left (by decide)
    simp only [List.cons_append, percent, quoted_line hms' cs, ← run_line hms cs (p := isNumChar) rfl]
  · simp [percent, hm, ← run_line hms cs (p := isNumChar) rfl]

/-- What stands on the next line does not bear on the token at the front. --/
theorem front_line (c : Char) : front c (ms ++ cs) = front c ms := by
  rw [front, front, head?_line h cs, run_line h cs (p := Char.isDigit) rfl, run_line h cs (p := isNameChar) rfl,
    quoted_line h cs, percent_line h cs, prose_line h cs, run_line h cs (p := isBlank) rfl,
    run_line h cs (p := fun d => !isLineEnd d) rfl]

end

/-- Characters that make up whole lines. --/
def Lines (cs : List Char) : Prop := ∀ c ∈ cs.getLast?, c = '\n'

theorem Lines.drop {cs : List Char} (h : Lines cs) (n : Nat) : Lines (cs.drop n) := by
  intro c hc
  rw [List.getLast?_drop] at hc
  split at hc
  · cases hc
  · exact h c hc

/-- The pieces of whole lines do not depend on what comes next. --/
theorem pieces_append : ∀ {cs : List Char} (ds : List Char), Lines cs → pieces (cs ++ ds) = pieces cs ++ pieces ds
  | [], ds, _ => by rw [pieces, List.nil_append, List.nil_append]
  | [c], ds, h => by
    obtain rfl := h c rfl
    rw [List.singleton_append, pieces, pieces, front_newline, front_newline]
    simp [pieces]
  | c :: d :: cs, ds, h => by
    have hlines : Lines (d :: cs) := fun e he => h e (by rwa [List.getLast?_cons_cons])
    have hmem : '\n' ∈ d :: cs := by
      have hlast := List.getLast?_eq_some_getLast (List.cons_ne_nil d cs)
      rw [← hlines _ hlast]
      exact List.getLast_mem _
    obtain ⟨hle, -⟩ := takes_front c (d :: cs)
    rw [List.cons_append, pieces, pieces, front_line hmem ds, List.take_append_of_le_length hle,
      List.drop_append_of_le_length hle, pieces_append ds (hlines.drop _), List.cons_append]
  termination_by cs => cs.length
  decreasing_by simp only [List.length_drop, List.length_cons]; omega

end Lexer

/-! ### The tokens of a source -/

section
variable {source : String} {t : Token}

theorem lined_of_mem_tokenize (h : t ∈ tokenize source) : t.Lined := by
  refine Lexer.forall_mem_mergeGarbage ?_ (fun _ => Lexer.lined_of_mem_pieces) t h
  intro t u ht hu hgt hgu hmem
  rw [String.toList_append] at hmem
  rcases List.mem_append.mp hmem with hmem | hmem
  · exact absurd (ht hmem) (by simp [hgt])
  · exact absurd (hu hmem) (by simp [hgu])

theorem ne_nil_of_mem_tokenize (h : t ∈ tokenize source) : t.text.toList ≠ [] := by
  refine Lexer.forall_mem_mergeGarbage ?_ (fun _ => Lexer.ne_nil_of_mem_pieces) t h
  intro t u ht _ _ _
  rw [String.toList_append]
  exact List.append_ne_nil_of_left_ne_nil ht _

theorem isChain_tokenize (source : String) : List.IsChain Token.Apart (tokenize source) :=
  Lexer.isChain_mergeGarbage _

theorem flatMap_tokenize (source : String) : (tokenize source).flatMap (·.text.toList) = source.toList :=
  (Lexer.flatMap_mergeGarbage _).trans (Lexer.flatMap_pieces _)

theorem join_tokenize (source : String) : String.join ((tokenize source).map Token.text) = source := by
  rw [← String.toList_inj, String.toList_join, List.flatMap_map]
  exact flatMap_tokenize source

theorem size_pos_of_mem_tokenize (h : t ∈ tokenize source) : 0 < t.size := by
  have hne := ne_nil_of_mem_tokenize h
  rw [Token.size, Nat.pos_iff_ne_zero]
  intro hzero
  rw [String.utf8ByteSize_eq_zero_iff.mp hzero] at hne
  exact hne rfl

end

/-- Tokens behind a text cover what follows it. --/
theorem Token.cover_join (a : String) : ∀ {ts : List Token}, (∀ t ∈ ts, 0 < t.size) →
    Token.Cover (a ++ String.join (ts.map Token.text)) a.utf8ByteSize (Token.spans a.utf8ByteSize ts)
  | [], _ => by simp [Token.Cover, Token.spans]
  | t :: ts, h => by
    obtain ⟨ht, hts⟩ := List.forall_mem_cons.mp h
    have ih := Token.cover_join (a ++ t.text) hts
    rw [String.utf8ByteSize_append, String.append_assoc] at ih
    rw [List.map_cons, String.join_cons]
    have hfront : (a.toByteArray ++ t.text.toByteArray).extract a.utf8ByteSize (a.utf8ByteSize + t.size) =
        t.text.toByteArray := ByteArray.extract_append_eq_right rfl rfl
    refine ⟨rfl, Nat.lt_add_of_pos_right ht, ?_, ih⟩
    rw [← String.append_assoc, String.toByteArray_append, ByteArray.extract_append, String.toByteArray_append, hfront]
    simp [Token.size]

theorem covers_tokenize (source : String) : Token.Cover source 0 (Token.spans 0 (tokenize source)) := by
  have h := Token.cover_join "" fun t (ht : t ∈ tokenize source) => size_pos_of_mem_tokenize ht
  rwa [join_tokenize, String.empty_append] at h

/-- Where whole lines end, the last token is the end of a line. --/
theorem Lexer.Lines.newline {cs : List Char} (h : Lexer.Lines cs) {ts : List Token}
    (hflat : ts.flatMap (·.text.toList) = cs) (hne : ∀ t ∈ ts, t.text.toList ≠ []) (hlined : ∀ t ∈ ts, t.Lined) :
    ∀ t ∈ ts.getLast?, t.kind = .newline := by
  intro t ht
  have hmem := List.mem_of_getLast? ht
  obtain ⟨us, hus⟩ := List.getLast?_eq_some_iff.mp ht
  have hlast : cs.getLast? = t.text.toList.getLast? := by
    rw [← hflat, hus, List.flatMap_append, List.flatMap_singleton, List.getLast?_append_of_ne_nil _ (hne t hmem)]
  have hfeed := List.getLast?_eq_some_getLast (hne t hmem)
  refine hlined t hmem ?_
  rw [← h _ (hlast.trans hfeed)]
  exact List.getLast_mem _

/-- A source that ends with the end of a line falls into tokens on its own. --/
theorem tokenize_append {s₁ : String} (h : Lexer.Lines s₁.toList) (s₂ : String) :
    tokenize (s₁ ++ s₂) = tokenize s₁ ++ tokenize s₂ := by
  have hlast := h.newline (Lexer.flatMap_pieces _) (fun _ => Lexer.ne_nil_of_mem_pieces)
    fun _ => Lexer.lined_of_mem_pieces
  rw [tokenize, String.toList_append, Lexer.pieces_append _ h, Lexer.mergeGarbage_append, tokenize, tokenize]
  intro t ht
  rw [hlast t ht]
  decide

theorem opensLine_tokenize {source : String} (h : Lexer.Lines source.toList) : opensLine (tokenize source) = true := by
  rw [opensLine, Option.all_eq_true]
  exact fun t ht => beq_iff_eq.mpr (h.newline (flatMap_tokenize source) (fun _ => ne_nil_of_mem_tokenize)
    (fun _ => lined_of_mem_tokenize) t ht)

/-! ### Places -/

theorem opensLine_snoc (ts : List Token) (t : Token) : opensLine (ts ++ [t]) = (t.kind == .newline) := by
  simp [opensLine]

/-- Behind a token that matters no line begins. --/
theorem opensLine_token (ts : List Token) {t : Token} (ht : t.kind.isTrivia = false) : opensLine (ts ++ [t]) = false := by
  rw [opensLine_snoc]
  cases hkind : t.kind <;> simp_all [TokenKind.isTrivia]

namespace Token

/-- The length of neighbouring tokens in bytes. --/
def total (ts : List Token) : Nat := Tree.sizes (ts.map .leaf)

theorem total_append (ts us : List Token) : total (ts ++ us) = total ts + total us := by
  rw [total, List.map_append, Tree.sizes_append]
  rfl

theorem total_snoc (ts : List Token) (t : Token) : total (ts ++ [t]) = total ts + t.size := by
  rw [total_append]
  exact congrArg (total ts + ·) (Tree.sizes_singleton _)

theorem total_cons (t : Token) (ts : List Token) : total (t :: ts) = t.size + total ts := rfl

theorem spans_append : ∀ (ts us : List Token) (pos : Nat), spans pos (ts ++ us) = spans pos ts ++ spans (pos + total ts) us
  | [], us, pos => rfl
  | t :: ts, us, pos => by
    rw [List.cons_append, spans, spans_append ts, spans, total_cons, Nat.add_assoc, List.cons_append]

theorem length_spans : ∀ (ts : List Token) (pos : Nat), (spans pos ts).length = ts.length
  | [], _ => rfl
  | t :: ts, pos => by rw [spans, List.length_cons, length_spans ts, List.length_cons]

theorem map_fst_spans : ∀ (ts : List Token) (pos : Nat), (spans pos ts).map Prod.fst = ts
  | [], _ => rfl
  | t :: ts, pos => by rw [spans, List.map_cons, map_fst_spans ts]

/-- Cut in two, spans go on where they left off. --/
theorem spans_take_drop (ts : List Token) (n : Nat) :
    spans 0 ts = spans 0 (ts.take n) ++ spans (total (ts.take n)) (ts.drop n) := by
  rw [← Nat.zero_add (total (ts.take n)), ← spans_append, List.take_append_drop]

theorem take_spans (ts : List Token) {n : Nat} (h : n ≤ ts.length) : (spans 0 ts).take n = spans 0 (ts.take n) := by
  rw [spans_take_drop ts n, List.take_left']
  rw [length_spans, List.length_take_of_le h]

theorem drop_spans (ts : List Token) {n : Nat} (h : n ≤ ts.length) :
    (spans 0 ts).drop n = spans (total (ts.take n)) (ts.drop n) := by
  rw [spans_take_drop ts n, List.drop_left']
  rw [length_spans, List.length_take_of_le h]

/-- The end of the last token that matters. --/
def lastStop (ts : List Token) : Nat :=
  (((spans 0 ts).reverse.find? fun t => !t.1.kind.isTrivia).map fun t => t.2.stop).getD 0

theorem lastStop_append {ws : List Token} (h : ∀ w ∈ ws, w.kind.isTrivia = true) (ts : List Token) :
    lastStop (ts ++ ws) = lastStop ts := by
  have hnone : (spans (0 + total ts) ws).reverse.find? (fun t => !t.1.kind.isTrivia) = none := by
    rw [List.find?_eq_none]
    intro x hx
    have hmem := List.mem_map_of_mem (f := Prod.fst) (List.mem_reverse.mp hx)
    rw [map_fst_spans] at hmem
    simp [h _ hmem]
  rw [lastStop, spans_append, List.reverse_append, List.find?_append, hnone]
  rfl

theorem lastStop_snoc {t : Token} (h : t.kind.isTrivia = false) (ts : List Token) :
    lastStop (ts ++ [t]) = total ts + t.size := by
  rw [lastStop, spans_append, List.reverse_append, spans, spans, List.reverse_singleton, List.singleton_append,
    List.find?_cons_of_pos (by simp [h]), Nat.zero_add]
  rfl

end Token

/-- Trivia in front of lexemes goes to the first of them. --/
theorem lexemesFrom_trivia {ws : List Token} (h : ∀ w ∈ ws, w.kind.isTrivia = true) (before leading ts : List Token) :
    lexemesFrom (Token.total before) leading (opensLine before) (ws ++ ts) =
      lexemesFrom (Token.total (before ++ ws)) (leading ++ ws) (opensLine (before ++ ws)) ts := by
  induction ws generalizing before leading with
  | nil => rw [List.append_nil, List.append_nil, List.nil_append]
  | cons w ws ih =>
    obtain ⟨hw, hws⟩ := List.forall_mem_cons.mp h
    rw [List.cons_append, lexemesFrom, if_pos hw, ← Token.total_snoc, ← opensLine_snoc before, ih hws, List.append_assoc,
      List.append_assoc, List.singleton_append]

theorem leading_lexemesFrom : ∀ (ts : List Token) (start : Nat) (leading : List Token) (opens : Bool),
    ∀ l ∈ (lexemesFrom start leading opens ts).1.head?, leading <+: l.leading
  | [], _, _, _ => nofun
  | t :: ts, start, leading, opens => by
    rw [lexemesFrom]
    split
    · exact fun l hl => (List.prefix_append leading [t]).trans (leading_lexemesFrom ts _ _ _ l hl)
    · rintro _ ⟨⟩
      exact List.prefix_rfl

theorem length_lexemesFrom : ∀ (ts : List Token) (start : Nat) (leading : List Token) (opens : Bool),
    (lexemesFrom start leading opens ts).1.length ≤ ts.length
  | [], _, _, _ => Nat.le_refl _
  | t :: ts, start, leading, opens => by
    rw [lexemesFrom]
    split
    · exact Nat.le_succ_of_le (length_lexemesFrom ts _ _ _)
    · exact Nat.succ_le_succ (length_lexemesFrom ts _ _ _)

end Abnf
