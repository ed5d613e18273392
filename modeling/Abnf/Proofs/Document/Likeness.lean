import Abnf.Proofs.Document.Acceptance
import Abnf.Text.Case

/-! Documents that are like one another: token by token they are of the same kinds and, but for how names are spelled, have
    the same texts, and the places of the one are related to those of the other. What the one derives, the other does,
    with expressions that are like one another (`Chunk.Derives.like`), provided that no more trivia comes between the
    parts of its repeats. -/

namespace Abnf

/-- What a name and an offset of one document may be in another. Another spelling is of the same name. --/
structure Likeness where
  spelled : String → String → Prop
  placed : Nat → Nat → Prop
  refl (name : String) : spelled name name
  sameName {a a' : String} (h : spelled a a') : sameName a a' = true

variable (κ : Likeness)

/-! ### Words and expressions -/

/-- Spans whose ends are at related places, in their order. --/
structure Span.Like (s s' : Span) : Prop where
  start : κ.placed s.start s'.start
  stop : κ.placed s.stop s'.stop
  order : s.start ≤ s.stop

/-- A word that is no name. --/
structure Word.Like (w w' : Word) : Prop where
  text : w.text = w'.text
  span : w.span.Like κ w'.span

/-- A word that is a name. --/
structure Word.Names (w w' : Word) : Prop where
  text : κ.spelled w.text w'.text
  span : w.span.Like κ w'.span

structure Repeat.Like (r r' : Repeat) : Prop where
  span : r.span.Like κ r'.span
  op : r.op = r'.op
  min : Option.Rel (Word.Like κ) r.min r'.min
  max : Option.Rel (Word.Like κ) r.max r'.max

mutual

/-- Expressions of the same shape with words that are like one another. Where they stand as a whole does not matter. --/
inductive Expr.Like : Expr → Expr → Prop where
  | alternation {s s' : Span} {es es' : List Expr} (h : Exprs.Like es es') :
      Expr.Like (.alternation s es) (.alternation s' es')
  | concatenation {s s' : Span} {es es' : List Expr} (h : Exprs.Like es es') :
      Expr.Like (.concatenation s es) (.concatenation s' es')
  | repetition {s s' : Span} {count count' : Repeat} {e e' : Expr} (hcount : count.Like κ count') (h : Expr.Like e e') :
      Expr.Like (.repetition s (some count) (some e)) (.repetition s' (some count') (some e'))
  | ref {w w' : Word} (h : w.Names κ w') : Expr.Like (.ref w) (.ref w')
  | str {w w' : Word} (h : w.Like κ w') : Expr.Like (.str w) (.str w')
  | num {w w' : Word} (h : w.Like κ w') : Expr.Like (.num w) (.num w')
  | prose {w w' : Word} (h : w.Like κ w') : Expr.Like (.prose w) (.prose w')
  | group {s s' : Span} {e e' : Expr} (h : Expr.Like e e') : Expr.Like (.group s (some e)) (.group s' (some e'))
  | optional {s s' : Span} {e e' : Expr} (h : Expr.Like e e') :
      Expr.Like (.optional s (some e)) (.optional s' (some e'))

inductive Exprs.Like : List Expr → List Expr → Prop where
  | nil : Exprs.Like [] []
  | cons {e e' : Expr} {es es' : List Expr} (h : Expr.Like e e') (hs : Exprs.Like es es') :
      Exprs.Like (e :: es) (e' :: es')

end

structure DefinedAs.Like (d d' : DefinedAs) : Prop where
  incremental : d.incremental = d'.incremental
  word : d.word.Like κ d'.word

/-- Definitions with all their parts, which are like one another. --/
inductive Definition.Like : Definition → Definition → Prop where
  | mk {w w' : Word} {d d' : DefinedAs} {e e' : Expr} (hname : w.Names κ w') (hsign : d.Like κ d') (hbody : e.Like κ e') :
      Definition.Like ⟨some w, some d, some e⟩ ⟨some w', some d', some e'⟩

/-! ### Lexemes -/

structure Lexeme.Like (l l' : Lexeme) : Prop where
  kind : l.kind = l'.kind
  text : l.kind ≠ .ruleName → l.token.text = l'.token.text
  name : l.kind = .ruleName → κ.spelled l.token.text l'.token.text
  span : l.span.Like κ l'.span
  opensLine : l.opensLine = l'.opensLine

/-- Lexemes that are like one another, in their order. Where the parts of a repeat touch what follows them in the one
    document, they do in the other. --/
inductive Along : List Lexeme → List Lexeme → Prop where
  | nil : Along [] []
  | single {l l' : Lexeme} (h : l.Like κ l') : Along [l] [l']
  | cons {l l' m m' : Lexeme} {ls ls' : List Lexeme} (h : l.Like κ l') (horder : l.span.stop ≤ m.start)
      (htouch : l.kind.startsRepeat = true → m.leading = [] → m'.leading = []) (hs : Along (m :: ls) (m' :: ls')) :
      Along (l :: m :: ls) (l' :: m' :: ls')

variable {κ}

theorem Lexeme.Like.word {l l' : Lexeme} (h : l.Like κ l') (hkind : l.kind ≠ .ruleName) : l.word.Like κ l'.word :=
  ⟨h.text hkind, h.span⟩

theorem Lexeme.Like.names {l l' : Lexeme} (h : l.Like κ l') (hkind : l.kind = .ruleName) : l.word.Names κ l'.word :=
  ⟨h.name hkind, h.span⟩

namespace Along

variable {l m : Lexeme} {ls ms ks' : List Lexeme}

theorem length_eq : ∀ {ls ls' : List Lexeme}, Along κ ls ls' → ls.length = ls'.length
  | _, _, .nil | _, _, .single _ => rfl
  | _, _, .cons _ _ _ hs => congrArg Nat.succ hs.length_eq

theorem forall₂ {ls ls' : List Lexeme} (h : Along κ ls ls') : List.Forall₂ (Lexeme.Like κ) ls ls' := by
  induction h with
  | nil => exact .nil
  | single h => exact .cons h .nil
  | cons h _ _ _ ih => exact .cons h ih

theorem exists_cons (h : Along κ (l :: ls) ks') : ∃ l' ls', ks' = l' :: ls' ∧ l.Like κ l' ∧ Along κ ls ls' := by
  cases h with
  | single h => exact ⟨_, _, rfl, h, .nil⟩
  | cons h _ _ hs => exact ⟨_, _, rfl, h, hs⟩

theorem exists_nil (h : Along κ [] ks') : ks' = [] := by
  cases h
  rfl

theorem exists_singleton (h : Along κ [l] ks') : ∃ l', ks' = [l'] ∧ l.Like κ l' := by
  cases h with
  | single h => exact ⟨_, rfl, h⟩

/-- Lexemes in two parts are like others in two parts. --/
theorem split : ∀ {ls ms ks' : List Lexeme}, Along κ (ls ++ ms) ks' →
    ∃ ls' ms', ks' = ls' ++ ms' ∧ Along κ ls ls' ∧ Along κ ms ms'
  | [], ms, ks', h => ⟨[], ks', rfl, .nil, h⟩
  | [l], ms, ks', h => by
    obtain ⟨l', ms', rfl, hl, hms⟩ := h.exists_cons
    exact ⟨[l'], ms', rfl, .single hl, hms⟩
  | l :: m :: ls, ms, ks', h => by
    rw [List.cons_append, List.cons_append] at h
    cases h with
    | cons hl horder htouch hs =>
      obtain ⟨ks', ms', heq, hls, hms⟩ := split (show Along κ ((m :: ls) ++ ms) _ from hs)
      obtain ⟨m', ls', rfl, -, -⟩ := id hls.exists_cons
      obtain ⟨rfl, rfl⟩ := List.cons.inj heq
      exact ⟨_ :: _ :: _, ms', rfl, .cons hl horder htouch hls, hms⟩

/-- Between the parts of a repeat and behind them nothing stands in the other document either. --/
theorem touching : ∀ {bs : List Lexeme} {m : Lexeme} {ms b' : List Lexeme}, (∀ b ∈ bs, b.kind.startsRepeat = true) →
    Along κ (bs ++ m :: ms) b' → (∀ l ∈ (bs ++ [m]).tail, l.leading = []) →
    ∀ l' ∈ (b'.take (bs.length + 1)).tail, l'.leading = []
  | [], m, ms, b', _, h, _ => by
    obtain ⟨m', ms', rfl, -, -⟩ := h.exists_cons
    exact nofun
  | [b], m, ms, _, hkinds, .cons _ _ htouch _, hleading => by
    refine List.forall_mem_singleton.mpr (htouch (hkinds b List.mem_cons_self) (hleading m List.mem_cons_self))
  | b :: c :: bs, m, ms, _, hkinds, .cons _ _ htouch hs, hleading => by
    obtain ⟨hb, hkinds⟩ := List.forall_mem_cons.mp hkinds
    obtain ⟨hc, hleading⟩ := List.forall_mem_cons.mp hleading
    exact List.forall_mem_cons.mpr ⟨htouch hb hc, touching hkinds (show Along κ ((c :: bs) ++ m :: ms) _ from hs) hleading⟩

/-- The last ones are like one another, and do not end before the first ones begin. --/
theorem last : ∀ {ls ls' : List Lexeme} {l : Lexeme}, Along κ (l :: ls) ls' →
    ∃ m ∈ (l :: ls).getLast?, ∃ m' ∈ ls'.getLast?, m.Like κ m' ∧ l.start ≤ m.span.stop
  | [], _, l, .single h => ⟨l, rfl, _, rfl, h, Nat.le_add_right _ _⟩
  | m :: ms, _, l, .cons _ horder _ hs => by
    obtain ⟨n, hn, n', hn', hlike, hle⟩ := hs.last
    have hl : l.start ≤ l.span.stop := Nat.le_add_right _ _
    rw [List.getLast?_cons_cons, List.getLast?_cons_cons]
    exact ⟨n, hn, n', hn', hlike, by omega⟩

/-- From the first token to the last. --/
theorem extent {l l' : Lexeme} {ls ls' : List Lexeme} (h : Along κ (l :: ls) (l' :: ls')) :
    (Derivation.extent (l :: ls)).Like κ (Derivation.extent (l' :: ls')) := by
  obtain ⟨_, _, ⟨⟩, hl, -⟩ := h.exists_cons
  obtain ⟨m, hm, m', hm', hlike, hle⟩ := h.last
  rw [Derivation.extent, Derivation.extent, Option.mem_def.mp hm, Option.mem_def.mp hm']
  exact ⟨hl.span.start, hlike.span.stop, hle⟩

end Along

/-! ### Derivations -/

namespace Derivation

variable (κ) in
/-- What lexemes derive, those that are like them do, with something like it. --/
def Carries {α : Type} (D : List Lexeme → α → Prop) (Like : α → α → Prop) : Prop :=
  ∀ ⦃ls ls' : List Lexeme⦄ ⦃x : α⦄, D ls x → Along κ ls ls' → ∃ x', D ls' x' ∧ Like x x'

theorem carries_number : Carries κ Number (Option.Rel (Word.Like κ)) := by
  intro ls ls' w h hlike
  cases h with
  | absent =>
    rw [hlike.exists_nil]
    exact ⟨none, .absent, .none⟩
  | present h =>
    obtain ⟨l', rfl, hl⟩ := hlike.exists_singleton
    exact ⟨some l'.word, .present (hl.kind ▸ h), .some (hl.word (by simp [h]))⟩

theorem Sign.like {l l' : Lexeme} {op : RepeatOp} (h : Sign l op) (hl : l.Like κ l') : Sign l' op := by
  cases h with
  | star h => exact .star (hl.kind ▸ h)
  | hash h => exact .hash (hl.kind ▸ h)

theorem carries_bounds : Carries κ Bounds (Repeat.Like κ) := by
  intro ls ls' r h hlike
  cases h with
  | exact h =>
    obtain ⟨l', rfl, hl⟩ := hlike.exists_singleton
    exact ⟨_, .exact (hl.kind ▸ h), ⟨hlike.extent, rfl, .some (hl.word (by simp [h])), .none⟩⟩
  | @signed low high sign min max op hlow hsign hhigh =>
    obtain ⟨low', rest', rfl, hlowlike, hrest⟩ := hlike.split
    obtain ⟨sign', high', rfl, hsignlike, hhighlike⟩ := hrest.exists_cons
    obtain ⟨min', hlow', hmin⟩ := carries_number hlow hlowlike
    obtain ⟨max', hhigh', hmax⟩ := carries_number hhigh hhighlike
    refine ⟨_, .signed hlow' (hsign.like hsignlike) hhigh', ⟨?_, rfl, hmin, hmax⟩⟩
    cases hlowlike with
    | nil => exact hlike.extent
    | single _ => exact hlike.extent
    | cons => cases hlow

theorem Bounds.kinds {bs : List Lexeme} {r : Repeat} (h : Bounds bs r) : ∀ b ∈ bs, b.kind.startsRepeat = true := by
  have hnumber : ∀ {ls : List Lexeme} {w : Option Word}, Number ls w → ∀ l ∈ ls, l.kind.startsRepeat = true := by
    intro ls w h
    cases h with
    | absent => exact nofun
    | present h => exact List.forall_mem_singleton.mpr (by rw [h]; rfl)
  cases h with
  | exact h => exact List.forall_mem_singleton.mpr (by rw [h]; rfl)
  | signed hlow hsign hhigh =>
    refine List.forall_mem_append.mpr ⟨hnumber hlow, List.forall_mem_cons.mpr ⟨?_, hnumber hhigh⟩⟩
    cases hsign with
    | star h | hash h => rw [h]; rfl

section
variable {E : List Lexeme → Expr → Prop} (hE : Carries κ E (Expr.Like κ))
  (hbegins : ∀ ⦃ls e⦄, E ls e → Begins TokenKind.startsElement ls)
include hE hbegins

theorem carries_repetition : Carries κ (Repetition E) (Expr.Like κ) := by
  intro ks ks' e h hlike
  cases h with
  | once h =>
    obtain ⟨e', he', hee⟩ := hE h hlike
    exact ⟨e', .once he', hee⟩
  | @repeated bs ls count e hbs h htouch =>
    obtain ⟨m, ms, rfl, -⟩ := hbegins h
    obtain ⟨bs', ls', rfl, hbslike, hlslike⟩ := hlike.split
    obtain ⟨count', hbs', hcount⟩ := carries_bounds hbs hbslike
    obtain ⟨e', he', hee⟩ := hE h hlslike
    have htouch' := hlike.touching hbs.kinds htouch
    rw [hbslike.length_eq, List.take_length_add_append] at htouch'
    exact ⟨_, .repeated hbs' he' htouch', .repetition hcount hee⟩

theorem carries_items : Carries κ (Items E) (Exprs.Like κ) := by
  intro ls ls' es h
  induction h generalizing ls' with
  | nil => exact fun hlike => ⟨[], hlike.exists_nil ▸ .nil, .nil⟩
  | cons h hs ih =>
    intro hlike
    obtain ⟨ls', ms', rfl, hlslike, hmslike⟩ := hlike.split
    obtain ⟨e', he', hee⟩ := carries_repetition hE hbegins h hlslike
    obtain ⟨es', hes', hees⟩ := ih hmslike
    exact ⟨e' :: es', .cons he' hes', .cons hee hees⟩

theorem carries_concatenation : Carries κ (Concatenation E) (Expr.Like κ) := by
  intro ks ks' e h hlike
  cases h with
  | single h =>
    obtain ⟨e', he', hee⟩ := carries_repetition hE hbegins h hlike
    exact ⟨e', .single he', hee⟩
  | several h hs =>
    obtain ⟨ls', ms', rfl, hlslike, hmslike⟩ := hlike.split
    obtain ⟨e', he', hee⟩ := carries_repetition hE hbegins h hlslike
    obtain ⟨es', hes', hees⟩ := carries_items hE hbegins hs hmslike
    cases id hees with
    | cons => exact ⟨_, .several he' hes', .concatenation (.cons hee hees)⟩

theorem carries_branches : Carries κ (Branches E) (Exprs.Like κ) := by
  intro ls ls' es h
  induction h generalizing ls' with
  | nil => exact fun hlike => ⟨[], hlike.exists_nil ▸ .nil, .nil⟩
  | cons hslash h hs ih =>
    intro hlike
    obtain ⟨slash', rest', rfl, hslashlike, hrest⟩ := hlike.exists_cons
    obtain ⟨ls', ms', rfl, hlslike, hmslike⟩ := hrest.split
    obtain ⟨e', he', hee⟩ := carries_concatenation hE hbegins h hlslike
    obtain ⟨es', hes', hees⟩ := ih hmslike
    exact ⟨e' :: es', .cons (hslashlike.kind ▸ hslash) he' hes', .cons hee hees⟩

theorem carries_alternation : Carries κ (Alternation E) (Expr.Like κ) := by
  intro ks ks' e h hlike
  cases h with
  | single h =>
    obtain ⟨e', he', hee⟩ := carries_concatenation hE hbegins h hlike
    exact ⟨e', .single he', hee⟩
  | several h hs =>
    obtain ⟨ls', ms', rfl, hlslike, hmslike⟩ := hlike.split
    obtain ⟨e', he', hee⟩ := carries_concatenation hE hbegins h hlslike
    obtain ⟨es', hes', hees⟩ := carries_branches hE hbegins hs hmslike
    obtain ⟨l', ls', rfl, -, -⟩ := hlslike.exists_cons
    cases id hees with
    | cons => exact ⟨_, .several he' hes', .alternation (.cons hee hees)⟩

end

theorem carries_simple : Carries κ Simple (Expr.Like κ) := by
  intro ls ls' e h hlike
  cases h with
  | ref h =>
    obtain ⟨l', rfl, hl⟩ := hlike.exists_singleton
    exact ⟨_, .ref (hl.kind ▸ h), .ref (hl.names h)⟩
  | str h =>
    obtain ⟨l', rfl, hl⟩ := hlike.exists_singleton
    exact ⟨_, .str (hl.kind ▸ h), .str (hl.word (by simp [h]))⟩
  | num h =>
    obtain ⟨l', rfl, hl⟩ := hlike.exists_singleton
    exact ⟨_, .num (hl.kind ▸ h), .num (hl.word (by simp [h]))⟩
  | prose h =>
    obtain ⟨l', rfl, hl⟩ := hlike.exists_singleton
    exact ⟨_, .prose (hl.kind ▸ h), .prose (hl.word (by simp [h]))⟩

theorem carries_bracketed {A : List Lexeme → Expr → Prop} (hA : Carries κ A (Expr.Like κ)) :
    Carries κ (Bracketed A) (Expr.Like κ) := by
  intro ks ks' e h hlike
  cases h with
  | group hl h hr | optional hl h hr =>
    obtain ⟨l', rest', rfl, hllike, hrest⟩ := hlike.exists_cons
    obtain ⟨ls', rs', rfl, hlslike, hrslike⟩ := hrest.split
    obtain ⟨r', rfl, hrlike⟩ := hrslike.exists_singleton
    obtain ⟨e', he', hee⟩ := hA h hlslike
    first
    | exact ⟨_, .group (hllike.kind ▸ hl) he' (hrlike.kind ▸ hr), .group hee⟩
    | exact ⟨_, .optional (hllike.kind ▸ hl) he' (hrlike.kind ▸ hr), .optional hee⟩

theorem carries_element : ∀ levels, Carries κ (Element levels) (Expr.Like κ)
  | 0 => carries_simple
  | levels + 1 => by
    have hbracketed := carries_bracketed (carries_alternation (carries_element levels) fun _ _ => Element.begins)
    rintro ls ls' e (h | h) hlike
    · obtain ⟨e', he', hee⟩ := carries_simple h hlike
      exact ⟨e', .inl he', hee⟩
    · obtain ⟨e', he', hee⟩ := hbracketed h hlike
      exact ⟨e', .inr he', hee⟩

end Derivation

/-! ### Chunks and documents -/

variable {limit : Nat}

/-- A chunk like one that derives a definition derives one like it. --/
theorem Chunk.Derives.like {c c' : Chunk} {d : Definition} (h : c.Derives limit d)
    (hlike : Along κ c.lexemes c'.lexemes) : ∃ d', c'.Derives limit d' ∧ d.Like κ d' := by
  cases h with
  | @rule name sign ls e hname hsign h =>
    obtain ⟨name', rest', hhead, hnamelike, hrest⟩ := hlike.exists_cons
    obtain ⟨sign', ls', rfl, hsignlike, hls⟩ := hrest.exists_cons
    obtain ⟨e', he', hee⟩ :=
      Derivation.carries_alternation (Derivation.carries_element limit) (fun _ _ => Derivation.Element.begins) h hls
    obtain rfl : c' = ⟨name', sign' :: ls'⟩ := by
      cases c'
      cases hhead
      rfl
    have hkind : sign.kind ≠ .ruleName := by
      intro hsame
      rw [hsame] at hsign
      cases hsign
    exact ⟨_, .rule (hnamelike.kind ▸ hname) (hsignlike.kind ▸ hsign) he', .mk (hnamelike.names hname)
      ⟨by rw [hsignlike.kind], hsignlike.word hkind⟩ hee⟩

/-- Chunks that are like one another. --/
def Chunk.Like (κ : Likeness) (c c' : Chunk) : Prop := Along κ c.lexemes c'.lexemes

theorem like_of_flatMap {cs cs' : List Chunk}
    (h : List.Forall₂ (fun c c' => List.Forall₂ (Lexeme.Like κ) c.lexemes c'.lexemes) cs cs') :
    Along κ (cs.flatMap Chunk.lexemes) (cs'.flatMap Chunk.lexemes) → List.Forall₂ (Chunk.Like κ) cs cs' := by
  induction h with
  | nil => exact fun _ => .nil
  | cons hc _ ih =>
    intro hlike
    rw [List.flatMap_cons, List.flatMap_cons] at hlike
    obtain ⟨ls', ms', heq, hls, hms⟩ := hlike.split
    obtain ⟨rfl, rfl⟩ := List.append_inj heq (hc.length_eq.symm.trans hls.length_eq)
    exact .cons hls (ih hms)

theorem chunks_like {ls ls' : List Lexeme} (h : Along κ ls ls') : List.Forall₂ (Chunk.Like κ) (chunks ls) (chunks ls') := by
  refine like_of_flatMap (forall₂_chunks (fun _ _ hl => hl.opensLine) h.forall₂) ?_
  rwa [flatMap_chunks, flatMap_chunks]

theorem derives_like {cs cs' : List Chunk} (hlike : List.Forall₂ (Chunk.Like κ) cs cs') :
    ∀ {ds : List Definition}, List.Forall₂ (Chunk.Derives limit) cs ds →
      ∃ ds', List.Forall₂ (Chunk.Derives limit) cs' ds' ∧ List.Forall₂ (Definition.Like κ) ds ds' := by
  induction hlike with
  | nil =>
    intro ds h
    cases h
    exact ⟨[], .nil, .nil⟩
  | cons hc _ ih =>
    intro ds h
    cases h with
    | cons hd hds =>
      obtain ⟨d', hd', hdd⟩ := hd.like hc
      obtain ⟨ds', hds', hdds⟩ := ih hds
      exact ⟨d' :: ds', .cons hd' hds', .cons hdd hdds⟩

/-- A document like one that is read without a word is read without a word, and as definitions like the one's. --/
theorem parse_like {source source' : String} (hlike : Along κ (lexemes (tokenize source)).1 (lexemes (tokenize source')).1)
    (h : (parse source limit).diagnostics = []) : (parse source' limit).diagnostics = [] ∧
      List.Forall₂ (Definition.Like κ) (parse source limit).tree.definitions (parse source' limit).tree.definitions := by
  obtain ⟨ds, hds⟩ := exists_definitions (Parser.document_finds h)
  obtain ⟨ds', hds', hdds⟩ := derives_like (chunks_like hlike) hds
  rw [(parse_of_derives hds).2, (parse_of_derives hds').2]
  exact ⟨(parse_of_derives hds').1, hdds⟩

end Abnf
