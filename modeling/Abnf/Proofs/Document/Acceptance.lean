import Abnf.Proofs.Document.Reading

/-! What is read without a word derives what it is read as, so a document is free of faults just if each of its chunks
    derives a definition (`parse_iff_derives`). All that is told is told of as an error and is not withdrawn (`Honest`),
    and as long as nothing is told each reader has passed lexemes that derive an expression (`Finds`). -/

namespace Abnf
namespace Parser

open Abnf.Derivation

/-! ### States in which nothing has been told -/

/-- Nothing has been told, neither here nor of the last place before. --/
structure State.Quiet (s : State) : Prop where
  reported : s.reported = none
  tooDeep : s.tooDeep = false
  diagnostics : s.diagnostics = []

/-- What has been told is still told, and what has been told since are errors. --/
def State.Told (s s' : State) : Prop := ∃ ds, s'.diagnostics = s.diagnostics ++ ds ∧ ∀ d ∈ ds, d.isError = true

/-- The reader withdraws nothing, and tells of errors only. --/
def Honest (R : Reader) : Prop := ∀ s : State, s.Told (R s).2

/-- From a quiet state of some kind, if nothing is told, the lexemes that are passed derive an expression. --/
def Finds (R : Reader) (D : List Lexeme → Expr → Prop) (Front : State → Prop) : Prop :=
  ∀ s : State, s.Quiet → Front s → (R s).2.diagnostics = [] →
    (R s).2.Quiet ∧ ∃ ls e, D ls e ∧ s.rest = ls ++ (R s).2.rest

namespace State

variable {s : State} {p : TokenKind → Bool}

theorem exists_of_sees (h : s.sees p = true) : ∃ l ls, s.rest = l :: ls ∧ p l.kind = true := by
  rw [sees] at h
  cases hrest : s.rest with
  | nil => rw [hrest] at h; cases h
  | cons l ls => exact ⟨l, ls, rfl, by rwa [hrest] at h⟩

theorem exists_of_touches (h : s.touches p = true) :
    ∃ l ls, s.rest = l :: ls ∧ l.leading = [] ∧ p l.kind = true := by
  rw [touches] at h
  cases hrest : s.rest with
  | nil => rw [hrest] at h; cases h
  | cons l ls =>
    rw [hrest, List.head?_cons, Option.any_some, Bool.and_eq_true, List.isEmpty_iff] at h
    exact ⟨l, ls, rfl, h⟩

@[simp] theorem diagnostics_take (s : State) : s.take.2.diagnostics = s.diagnostics := by
  rw [take]
  split <;> rfl

@[simp] theorem diagnostics_blanks (s : State) : s.blanks.2.diagnostics = s.diagnostics := by
  rw [blanks]
  split <;> rfl

section
variable {s' s'' : State}

theorem Told.of_eq (h : s'.diagnostics = s.diagnostics) : s.Told s' := ⟨[], h.trans (List.append_nil _).symm, nofun⟩

theorem Told.trans (h : s.Told s') (h' : s'.Told s'') : s.Told s'' := by
  obtain ⟨ds, hds, herror⟩ := h
  obtain ⟨ds', hds', herror'⟩ := h'
  exact ⟨ds ++ ds', by rw [hds', hds, List.append_assoc], List.forall_mem_append.mpr ⟨herror, herror'⟩⟩

theorem Told.isError (h : s.Told s') (hs : s.diagnostics = []) : ∀ d ∈ s'.diagnostics, d.isError = true := by
  obtain ⟨ds, hds, herror⟩ := h
  rw [hds, hs, List.nil_append]
  exact herror

theorem Told.eq_nil (h : s.Told s') (hnil : s'.diagnostics = []) : s.diagnostics = [] := by
  obtain ⟨ds, hds, -⟩ := h
  exact (List.append_eq_nil_iff.mp (hds.symm.trans hnil)).1

theorem told_take (s : State) : s.Told s.take.2 := .of_eq (diagnostics_take s)

theorem told_blanks (s : State) : s.Told s.blanks.2 := .of_eq (diagnostics_blanks s)

theorem told_report (s : State) (offset : Nat) {d : Diagnostic} (hd : d.isError = true) : s.Told (s.report offset d) := by
  rw [report]
  split
  · exact .of_eq rfl
  · exact ⟨[d], rfl, List.forall_mem_singleton.mpr hd⟩

end

theorem Quiet.past (h : s.Quiet) (ls rest : List Lexeme) : (s.past ls rest).Quiet :=
  ⟨h.reported, h.tooDeep, h.diagnostics⟩

theorem Quiet.take (h : s.Quiet) : s.take.2.Quiet := by
  rw [State.take]
  split
  · exact h
  · exact ⟨h.reported, h.tooDeep, h.diagnostics⟩

/-- In the quiet a report is heard. --/
theorem Quiet.report (h : s.Quiet) (offset : Nat) (d : Diagnostic) : (s.report offset d).diagnostics ≠ [] := by
  rw [State.report, h.reported, if_neg nofun]
  exact List.append_ne_nil_of_right_ne_nil _ (List.cons_ne_nil _ _)

end State

/-! ### What is told stays told -/

theorem honest_single (kind : NodeKind) : Honest (single kind) := fun s => s.told_take

theorem honest_misfit (kind : Diagnostic.Kind) (l : Lexeme) : Honest (misfit kind l) := fun s =>
  (s.told_report _ rfl).trans (honest_single .error _)

theorem honest_number : Honest number := fun s => by
  rw [number]
  split
  · exact s.told_take
  · exact .of_eq rfl

theorem honest_bounds : Honest bounds := fun s => by
  rw [bounds_eq]
  dsimp only
  split
  · exact (honest_number s).trans ((State.told_take _).trans (honest_number _))
  · exact honest_number s

section
variable {element : Reader} (honest : Honest element)
include honest

theorem honest_repetition : Honest (repetition element) := fun s => by
  rw [repetition]
  split
  · refine (honest_bounds s).trans ?_
    dsimp only
    split
    · exact honest _
    · exact State.told_report _ _ rfl
  · exact honest s

theorem honest_repetitions : ∀ fuel, Honest (repetitions element fuel)
  | 0, _ => .of_eq rfl
  | fuel + 1, s => by
    rw [repetitions]
    split
    · exact s.told_blanks.trans ((honest_repetition honest _).trans (honest_repetitions fuel _))
    · exact .of_eq rfl

theorem honest_concatenation : Honest (concatenation element) := fun s => by
  rw [concatenation]
  split
  · have htold := s.told_blanks.trans (honest_repetition honest _)
    dsimp only
    split <;> exact htold.trans (honest_repetitions honest _ _)
  · dsimp only
    split
    · exact .of_eq rfl
    · exact State.told_report _ _ rfl

theorem honest_branches : ∀ fuel, Honest (branches element fuel)
  | 0, _ => .of_eq rfl
  | fuel + 1, s => by
    rw [branches]
    split
    · exact s.told_take.trans ((honest_concatenation honest _).trans (honest_branches fuel _))
    · exact .of_eq rfl

theorem honest_alternation : Honest (alternation element) := fun s => by
  rw [alternation]
  dsimp only
  split <;> exact (honest_concatenation honest s).trans (honest_branches honest _ _)

theorem honest_bracketed (σ : Scope) (b : Bracket) (l : Lexeme) : Honest (bracketed σ b l element) := fun s => by
  have htold := s.told_take.trans (honest _)
  rw [bracketed]
  dsimp only
  split
  · exact htold.trans (State.told_take _)
  · split
    · exact htold
    · exact htold.trans (State.told_report _ _ rfl)

end

theorem honest_tooDeep (σ : Scope) (b : Bracket) (l : Lexeme) : Honest (tooDeep σ b l) := fun s =>
  s.told_take.trans (State.told_report _ _ rfl)

theorem honest_elementWith (σ : Scope) {body : Option Reader} (honest : ∀ R ∈ body, Honest R) :
    Honest (elementWith σ body) := fun s => by
  rw [elementWith]
  split
  · exact .of_eq rfl
  · split
    -- The two kinds of opening bracket.
    case h_5 | h_6 =>
      cases body with
      | some R => exact honest_bracketed (honest R rfl) σ _ _ s
      | none => exact honest_tooDeep σ _ _ s
    all_goals first | exact honest_single _ s | exact honest_misfit _ _ s

theorem honest_element (σ : Scope) : ∀ levels, Honest (element σ levels)
  | 0 => honest_elementWith σ nofun
  | levels + 1 => honest_elementWith σ (by rintro _ ⟨⟩; exact honest_alternation (honest_element σ levels))

/-! ### What is read in the quiet -/

theorem quiet_number {s : State} (hs : s.Quiet) : (number s).2.Quiet := by
  rw [number]
  split
  · exact hs.take
  · exact hs

theorem quiet_bounds {s : State} (hs : s.Quiet) : (bounds s).2.Quiet := by
  rw [bounds_eq]
  dsimp only
  split
  · exact quiet_number (quiet_number hs).take
  · exact quiet_number hs

theorem number_finds (s : State) :
    ∃ ls w, Number ls w ∧ (∀ l ∈ ls, l.leading = []) ∧ s.rest = ls ++ (number s).2.rest := by
  rw [number]
  split
  · rename_i h
    obtain ⟨l, ls, hrest, hlead, hkind⟩ := State.exists_of_touches h
    rw [State.take_cons hrest]
    exact ⟨[l], _, .present (beq_iff_eq.mp hkind), List.forall_mem_singleton.mpr hlead, hrest⟩
  · exact ⟨[], none, .absent, List.forall_mem_nil _, rfl⟩

/-- If an element touches what has been read of a repeat, there is all of it. --/
theorem bounds_finds {s : State} (hstarts : s.sees TokenKind.startsRepeat = true)
    (htouch : (bounds s).2.touches TokenKind.startsElement = true) :
    ∃ bs count, Bounds bs count ∧ (∀ l ∈ bs, l.leading = []) ∧ s.rest = bs ++ (bounds s).2.rest := by
  obtain ⟨low, min, hlow, hlead, hrest⟩ := number_finds s
  rw [bounds_eq] at htouch ⊢
  dsimp only at htouch ⊢
  split
  · rename_i hsign
    obtain ⟨sign, ls, hrest', hlead', hkind⟩ := State.exists_of_touches hsign
    obtain ⟨high, max, hhigh, hlead'', hrest''⟩ := number_finds ((number s).2.past [sign] ls)
    obtain ⟨op, hop⟩ : ∃ op, Sign sign op := by
      rw [Bool.or_eq_true, beq_iff_eq, beq_iff_eq] at hkind
      exact hkind.elim (fun h => ⟨_, .star h⟩) fun h => ⟨_, .hash h⟩
    rw [State.rest_past] at hrest''
    rw [State.take_cons hrest']
    refine ⟨low ++ sign :: high, _, .signed hlow hop hhigh, ?_, ?_⟩
    · exact List.forall_mem_append.mpr ⟨hlead, List.forall_mem_cons.mpr ⟨hlead', hlead''⟩⟩
    · rw [List.append_assoc, List.cons_append, ← hrest'', ← hrest']
      exact hrest
  · rename_i hsign
    rw [if_neg hsign] at htouch
    cases hlow with
    | present h => exact ⟨_, _, .exact h, hlead, hrest⟩
    | absent =>
      obtain ⟨l, ls, hl, -, hkind⟩ := State.exists_of_touches htouch
      rw [State.sees_cons (hrest.trans hl), TokenKind.not_startsRepeat hkind] at hstarts
      cases hstarts

section
variable {E : List Lexeme → Expr → Prop} {element : Reader}
  (hbegins : ∀ ⦃ls : List Lexeme⦄ ⦃e : Expr⦄, E ls e → Begins TokenKind.startsElement ls) (hloose : Loose E)
  (honest : Honest element) (hfinds : Finds element E (·.sees TokenKind.startsElement))
include hbegins hfinds

theorem repetition_finds :
    Finds (repetition element) (Repetition E) (·.sees TokenKind.startsRepetition) := by
  intro s hs hfront h
  rw [repetition] at h ⊢
  dsimp only at h ⊢
  split at h
  · rename_i hstarts
    rw [if_pos hstarts]
    split at h
    · rename_i htouch
      rw [if_pos htouch]
      obtain ⟨bs, count, hbs, hlead, hrest⟩ := bounds_finds hstarts htouch
      obtain ⟨l, ls, hrest', hlead', hkind⟩ := State.exists_of_touches htouch
      obtain ⟨hquiet, ks, e, he, hrest''⟩ := hfinds _ (quiet_bounds hs) ((State.sees_cons hrest' _).trans hkind) h
      refine ⟨hquiet, bs ++ ks, _, .repeated hbs he ?_, by rw [hrest, hrest'', List.append_assoc]⟩
      obtain ⟨k, ks, rfl, -⟩ := hbegins he
      obtain ⟨rfl, -⟩ := List.cons.inj (hrest'.symm.trans hrest'')
      intro m hm
      obtain hm | hm := List.mem_append.mp (List.mem_of_mem_tail hm)
      · exact hlead m hm
      · obtain rfl := List.mem_singleton.mp hm
        exact hlead'
    · exact absurd h ((quiet_bounds hs).report _ _)
  · rename_i hstarts
    rw [if_neg hstarts]
    obtain ⟨l, ls, hrest, hkind⟩ := State.exists_of_sees hfront
    rw [State.sees_cons hrest, Bool.not_eq_true] at hstarts
    rw [TokenKind.startsRepetition, hstarts, Bool.or_false] at hkind
    obtain ⟨hquiet, ks, e, he, hrest'⟩ := hfinds s hs ((State.sees_cons hrest _).trans hkind) h
    exact ⟨hquiet, ks, e, .once he, hrest'⟩

include hloose

/-- The trivia before an item may be taken first. --/
theorem item_finds {s : State} (hs : s.Quiet) (hfront : s.sees TokenKind.startsRepetition = true)
    (h : (repetition element s.blanks.2).2.diagnostics = []) :
    (repetition element s.blanks.2).2.Quiet ∧
      ∃ ls e, Repetition E ls e ∧ s.rest = ls ++ (repetition element s.blanks.2).2.rest := by
  obtain ⟨l, ls, hrest, hkind⟩ := State.exists_of_sees hfront
  rw [State.blanks_cons hrest] at h ⊢
  obtain ⟨hquiet, ks, e, he, hrest'⟩ := repetition_finds hbegins hfinds (s.past [] ({ l with leading := [] } :: ls))
    (hs.past _ _) hkind h
  obtain ⟨k, ks, rfl, -⟩ := he.begins hbegins
  obtain ⟨rfl, hls⟩ := List.cons.inj (State.rest_past.symm.trans hrest')
  exact ⟨hquiet, l :: ks, e, he.loose hloose l.leading, hrest.trans (congrArg (l :: ·) hls)⟩

include honest

-- Too little fuel would do no harm: what it leaves unread is not part of the list, and whoever reads on tells of it.
theorem items_find : ∀ (fuel : Nat) (s : State), s.Quiet → (repetitions element fuel s).2.diagnostics = [] →
    (repetitions element fuel s).2.Quiet ∧ ∃ ls es, Items E ls es ∧ s.rest = ls ++ (repetitions element fuel s).2.rest
  | 0, s, hs, _ => ⟨hs, [], [], .nil, rfl⟩
  | fuel + 1, s, hs, h => by
    rw [repetitions] at h ⊢
    split at h
    · rename_i hfront
      rw [if_pos hfront]
      obtain ⟨hquiet, ls, e, he, hrest⟩ :=
        item_finds hbegins hloose hfinds hs hfront ((honest_repetitions honest _ _).eq_nil h)
      obtain ⟨hquiet', ms, es, hes, hrest'⟩ := items_find fuel _ hquiet h
      exact ⟨hquiet', ls ++ ms, e :: es, .cons he hes, by rw [hrest, hrest', List.append_assoc]⟩
    · rename_i hfront
      rw [if_neg hfront]
      exact ⟨hs, [], [], .nil, rfl⟩

theorem concatenation_finds : Finds (concatenation element) (Concatenation E) fun _ => True := by
  intro s hs _ h
  rw [concatenation] at h ⊢
  split at h
  · rename_i hfront
    rw [if_pos hfront]
    dsimp only at h ⊢
    have h : (repetitions element (repetition element s.blanks.2).2.rest.length
        (repetition element s.blanks.2).2).2.diagnostics = [] := by split at h <;> exact h
    obtain ⟨hquiet, ls, e, he, hrest⟩ :=
      item_finds hbegins hloose hfinds hs hfront ((honest_repetitions honest _ _).eq_nil h)
    obtain ⟨hquiet', ms, es, hes, hrest'⟩ := items_find hbegins hloose honest hfinds _ _ hquiet h
    have hlist : ∃ f, Concatenation E (ls ++ ms) f := by
      cases hes with
      | nil => exact ⟨e, (List.append_nil ls).symm ▸ .single he⟩
      | cons h hs => exact ⟨_, .several he (.cons h hs)⟩
    obtain ⟨f, hf⟩ := hlist
    rw [hrest', ← List.append_assoc] at hrest
    split <;> exact ⟨hquiet', ls ++ ms, f, hf, hrest⟩
  · rw [hs.tooDeep, if_neg Bool.false_ne_true] at h
    exact absurd h (hs.report _ _)

theorem branches_find : ∀ (fuel : Nat) (s : State), s.Quiet → (branches element fuel s).2.diagnostics = [] →
    (branches element fuel s).2.Quiet ∧ ∃ ls es, Branches E ls es ∧ s.rest = ls ++ (branches element fuel s).2.rest
  | 0, s, hs, _ => ⟨hs, [], [], .nil, rfl⟩
  | fuel + 1, s, hs, h => by
    rw [branches] at h ⊢
    split at h
    · rename_i hslash
      rw [if_pos hslash]
      obtain ⟨slash, ks, hslash', hkind⟩ := State.exists_of_sees hslash
      obtain ⟨hquiet, ls, e, he, hrest⟩ := concatenation_finds hbegins hloose honest hfinds _ hs.take trivial
        ((honest_branches honest _ _).eq_nil h)
      obtain ⟨hquiet', ms, es, hes, hrest'⟩ := branches_find fuel _ hquiet h
      refine ⟨hquiet', slash :: (ls ++ ms), e :: es, .cons (beq_iff_eq.mp hkind) he hes, ?_⟩
      have hks : s.take.2.rest = ks := by rw [State.take_cons hslash', State.rest_past]
      rw [hslash', List.cons_append, List.append_assoc, ← hrest', ← hrest, hks]
    · rename_i hslash
      rw [if_neg hslash]
      exact ⟨hs, [], [], .nil, rfl⟩

theorem alternation_finds : Finds (alternation element) (Alternation E) fun _ => True := by
  intro s hs _ h
  rw [alternation] at h ⊢
  dsimp only at h ⊢
  have h : (branches element (concatenation element s).2.rest.length (concatenation element s).2).2.diagnostics = [] := by
    split at h <;> exact h
  obtain ⟨hquiet, ls, e, he, hrest⟩ := concatenation_finds hbegins hloose honest hfinds s hs trivial
    ((honest_branches honest _ _).eq_nil h)
  obtain ⟨hquiet', ms, es, hes, hrest'⟩ := branches_find hbegins hloose honest hfinds _ _ hquiet h
  have hlist : ∃ f, Alternation E (ls ++ ms) f := by
    cases hes with
    | nil => exact ⟨e, (List.append_nil ls).symm ▸ .single he⟩
    | cons hslash h hs =>
      obtain ⟨l, ls, rfl, -⟩ := he.begins hbegins
      exact ⟨_, .several he (.cons hslash h hs)⟩
  obtain ⟨f, hf⟩ := hlist
  rw [hrest', ← List.append_assoc] at hrest
  split <;> exact ⟨hquiet', ls ++ ms, f, hf, hrest⟩

end

/-! ### Elements -/

theorem told_misfit (kind : Diagnostic.Kind) (l : Lexeme) {s : State} (hs : s.Quiet) :
    (misfit kind l s).2.diagnostics ≠ [] := fun h =>
  hs.report _ _ ((honest_single .error _).eq_nil h)

theorem told_tooDeep (σ : Scope) (b : Bracket) (l : Lexeme) {s : State} (hs : s.Quiet) :
    (tooDeep σ b l s).2.diagnostics ≠ [] :=
  hs.take.report _ _

theorem bracketed_finds (σ : Scope) (b : Bracket) {l : Lexeme} {ls : List Lexeme} {A : List Lexeme → Expr → Prop}
    {body : Reader} (hfinds : Finds body A fun _ => True) {s : State} (hs : s.Quiet) (hrest : s.rest = l :: ls)
    (h : (bracketed σ b l body s).2.diagnostics = []) :
    (bracketed σ b l body s).2.Quiet ∧ ∃ ks r e, A ks e ∧ r.kind = b.closing ∧
      s.rest = l :: (ks ++ [r]) ++ (bracketed σ b l body s).2.rest := by
  rw [bracketed, State.take_cons hrest] at h ⊢
  dsimp only at h ⊢
  split at h
  · rename_i hclose
    rw [if_pos hclose]
    obtain ⟨r, rs, hrest', hkind⟩ := State.exists_of_sees hclose
    rw [State.diagnostics_take] at h
    obtain ⟨hquiet, ks, e, he, hrest''⟩ := hfinds _ (hs.past [l] ls) trivial h
    have hls : ls = ks ++ r :: rs := hrest''.trans (congrArg (ks ++ ·) hrest')
    refine ⟨hquiet.take, ks, r, e, he, beq_iff_eq.mp hkind, ?_⟩
    rw [State.take_cons hrest']
    exact hrest.trans ((congrArg (l :: ·) hls).trans (by simp))
  · have hbody : (body (s.past [l] ls)).2.diagnostics = [] := by
      split at h
      · exact h
      · exact (State.told_report _ _ rfl).eq_nil h
    obtain ⟨hquiet, -⟩ := hfinds _ (hs.past [l] ls) trivial hbody
    rw [hquiet.tooDeep, if_neg Bool.false_ne_true] at h
    exact absurd h (hquiet.report _ _)

theorem elementWith_finds (σ : Scope) {body : Option Reader} {A : List Lexeme → Expr → Prop}
    (hfinds : ∀ R ∈ body, Finds R A fun _ => True) :
    Finds (elementWith σ body) (fun ls e => Simple ls e ∨ body.isSome = true ∧ Bracketed A ls e)
      (·.sees TokenKind.startsElement) := by
  intro s hs hfront h
  obtain ⟨l, ls, hrest, hkind⟩ := State.exists_of_sees hfront
  have hsimple : ∀ {kind : NodeKind} {e : Expr}, Simple [l] e → (single kind s).2.Quiet ∧
      ∃ ks f, (Simple ks f ∨ body.isSome = true ∧ Bracketed A ks f) ∧ s.rest = ks ++ (single kind s).2.rest := by
    intro kind e he
    rw [single, State.take_cons hrest]
    exact ⟨hs.past _ _, [l], e, .inl he, hrest⟩
  have hbracketed : ∀ b : Bracket, (∀ {ks : List Lexeme} {r : Lexeme} {e : Expr}, A ks e → r.kind = b.closing →
      ∃ f, Bracketed A (l :: (ks ++ [r])) f) → ∀ R ∈ body, (bracketed σ b l R s).2.diagnostics = [] →
      (bracketed σ b l R s).2.Quiet ∧ ∃ ks f, (Simple ks f ∨ body.isSome = true ∧ Bracketed A ks f) ∧
        s.rest = ks ++ (bracketed σ b l R s).2.rest := by
    intro b hder R hR h
    obtain ⟨hquiet, ks, r, e, he, hr, hrest'⟩ := bracketed_finds σ b (hfinds R hR) hs hrest h
    obtain ⟨f, hf⟩ := hder he hr
    exact ⟨hquiet, _, f, .inr ⟨Option.isSome_iff_exists.mpr ⟨R, hR⟩, hf⟩, hrest'⟩
  rw [elementWith, hrest] at h ⊢
  dsimp only at h ⊢
  rw [← hrest]
  cases hk : l.kind <;> rw [hk] at h hkind
  case ruleName => exact hsimple (.ref hk)
  case charVal => exact hsimple (.str hk)
  case numVal => exact hsimple (.num hk)
  case proseVal => exact hsimple (.prose hk)
  case parenOpen =>
    cases body with
    | none => exact absurd h (told_tooDeep σ .group l hs)
    | some R => exact hbracketed .group (fun he hr => ⟨_, .group hk he hr⟩) R rfl h
  case bracketOpen =>
    cases body with
    | none => exact absurd h (told_tooDeep σ .optional l hs)
    | some R => exact hbracketed .optional (fun he hr => ⟨_, .optional hk he hr⟩) R rfl h
  case unterminatedStr => exact absurd h (told_misfit .unterminatedString l hs)
  all_goals cases hkind

theorem element_finds (σ : Scope) : ∀ levels, Finds (element σ levels) (Element levels) (·.sees TokenKind.startsElement)
  | 0 => fun s hs hfront h => by
    have hbody : ∀ R ∈ none, Finds R (fun _ _ => False) fun _ => True := by rintro _ ⟨⟩
    obtain ⟨hquiet, ls, e, he | ⟨⟨⟩, -⟩, hrest⟩ := elementWith_finds σ hbody s hs hfront h
    exact ⟨hquiet, ls, e, he, hrest⟩
  | levels + 1 => fun s hs hfront h => by
    have hbody : ∀ R ∈ some (alternation (element σ levels)), Finds R (Alternation (Element levels)) fun _ => True := by
      rintro _ ⟨⟩
      exact alternation_finds (fun _ _ => Element.begins) (Element.loose levels) (honest_element σ levels)
        (element_finds σ levels)
    obtain ⟨hquiet, ls, e, he, hrest⟩ := elementWith_finds σ hbody s hs hfront h
    exact ⟨hquiet, ls, e, he.imp_right And.right, hrest⟩

/-! ### Rules and documents -/

theorem honest_leftover (kind : Option Diagnostic.Kind) : Honest (leftover kind) := fun s => by
  rw [leftover]
  split
  · exact .of_eq rfl
  · cases kind with
    | none => exact s.told_blanks
    | some kind => exact (s.told_report _ rfl).trans (State.told_blanks _)

theorem honest_rule (σ : Scope) : Honest (rule σ) := fun s => by
  rw [rule]
  dsimp only
  split
  · have htold := s.told_take.trans ((State.told_take _).trans (honest_alternation (honest_element σ σ.limit) _))
    exact htold.trans (honest_leftover _ _)
  · exact s.told_take.trans ((State.told_report _ _ rfl).trans (honest_leftover none _))

/-- All that is told of a chunk are errors. --/
theorem isError_of_chunk (σ : Scope) (reported : Option Nat) (c : Chunk) :
    ∀ d ∈ (chunk σ reported c).2.diagnostics, d.isError = true := by
  rw [chunk]
  dsimp only
  split
  · exact ((State.told_blanks _).trans (honest_rule σ _)).isError rfl
  · exact (honest_leftover _ _).isError rfl

theorem isError_of_document (limit stop : Nat) : ∀ (cs : List Chunk) (reported : Option Nat),
    ∀ d ∈ (document limit stop reported cs).2, d.isError = true
  | [], _ => nofun
  | c :: cs, reported => by
    rw [document]
    exact List.forall_mem_append.mpr ⟨isError_of_chunk _ reported c, isError_of_document limit stop cs _⟩

/-- Nothing is left if nothing is told. --/
theorem leftover_eq (kind : Diagnostic.Kind) {s : State} (hs : s.Quiet)
    (h : (leftover (some kind) s).2.diagnostics = []) : leftover (some kind) s = ([], s) ∧ s.rest = [] := by
  rw [leftover] at h ⊢
  split at h
  · rename_i hrest
    rw [hrest]
    exact ⟨rfl, rfl⟩
  · exact absurd ((State.diagnostics_blanks _).symm.trans h) (hs.report _ _)

theorem rule_finds {σ : Scope} {s : State} {name : Lexeme} {ls : List Lexeme} (hs : s.Quiet)
    (hrest : s.rest = name :: ls) (h : (rule σ s).2.diagnostics = []) :
    (rule σ s).2.Quiet ∧ ∃ sign ks e, ls = sign :: ks ∧ sign.kind.isDefinedAs = true ∧
      Alternation (Element σ.limit) ks e := by
  rw [rule, State.take_cons hrest] at h ⊢
  dsimp only at h ⊢
  split at h
  · rename_i hsign
    rw [if_pos hsign]
    obtain ⟨sign, ks, hls, hkind⟩ := State.exists_of_sees hsign
    obtain rfl : ls = sign :: ks := hls
    rw [State.take_cons rfl, State.past_past] at h ⊢
    dsimp only at h ⊢
    obtain ⟨hquiet, ms, e, he, hms⟩ := alternation_finds (fun _ _ => Element.begins) (Element.loose σ.limit)
      (honest_element σ σ.limit) (element_finds σ σ.limit) _ (hs.past _ ks) trivial ((honest_leftover _ _).eq_nil h)
    rw [hquiet.tooDeep] at h ⊢
    obtain ⟨hnothing, hnil⟩ := leftover_eq .unexpectedToken hquiet h
    rw [hnil, List.append_nil] at hms
    obtain rfl : ks = ms := hms
    refine ⟨?_, sign, ks, e, rfl, hkind, he⟩
    rw [if_neg Bool.false_ne_true, hnothing]
    exact hquiet
  · exact absurd ((honest_leftover none _).eq_nil h) ((hs.past _ _).report _ _)

/-- If nothing is told of a chunk, it derives a definition. --/
theorem chunk_finds {limit next : Nat} {c : Chunk} (h : (chunk ⟨limit, next⟩ none c).2.diagnostics = []) :
    (chunk ⟨limit, next⟩ none c).2.reported = none ∧ ∃ d, c.Derives limit d := by
  obtain ⟨name, ls⟩ := c
  let s : State := { rest := name :: ls, lastStop := name.start, tooDeep := false, reported := none, diagnostics := [] }
  have hs : s.Quiet := ⟨rfl, rfl, rfl⟩
  rw [chunk] at h ⊢
  dsimp only at h ⊢
  split at h
  · rename_i hname
    rw [if_pos hname]
    obtain ⟨hquiet, sign, ks, e, rfl, hsign, he⟩ := rule_finds (hs.past [] ({ name with leading := [] } :: ls)) rfl h
    exact ⟨hquiet.reported, _, .rule hname hsign he⟩
  · cases (leftover_eq .expectedRuleName hs h).2

theorem document_finds {limit source : Nat} : ∀ {cs : List Chunk}, (document limit source none cs).2 = [] →
    ∀ c ∈ cs, ∃ d, c.Derives limit d
  | [], _ => nofun
  | c :: cs, h => by
    rw [document] at h
    obtain ⟨hchunk, hmore⟩ := List.append_eq_nil_iff.mp h
    obtain ⟨hreported, hd⟩ := chunk_finds hchunk
    rw [hreported] at hmore
    exact List.forall_mem_cons.mpr ⟨hd, document_finds hmore⟩

end Parser

/-- All that is told of a source are errors. --/
theorem isError_of_parse (source : String) (limit : Nat) : ∀ d ∈ (parse source limit).diagnostics, d.isError = true :=
  Parser.isError_of_document limit _ _ none

theorem hasErrors_parse {source : String} {limit : Nat} :
    Diagnostic.hasErrors (parse source limit).diagnostics = true ↔ (parse source limit).diagnostics ≠ [] := by
  rw [Diagnostic.hasErrors, List.any_eq_true]
  constructor
  · rintro ⟨d, hd, -⟩
    exact List.ne_nil_of_mem hd
  · intro hne
    obtain ⟨d, hd⟩ := List.exists_mem_of_ne_nil _ hne
    exact ⟨d, hd, isError_of_parse source limit d hd⟩

/-- Where no error is told of, nothing is. --/
theorem quiet_of_read {source : String} {limit : Nat} (h : Diagnostic.hasErrors (parse source limit).diagnostics = false) :
    (parse source limit).diagnostics = [] := by
  by_contra hne
  rw [hasErrors_parse.mpr hne] at h
  cases h

theorem exists_definitions {limit : Nat} : ∀ {cs : List Chunk}, (∀ c ∈ cs, ∃ d, c.Derives limit d) →
    ∃ ds, List.Forall₂ (Chunk.Derives limit) cs ds
  | [], _ => ⟨[], .nil⟩
  | c :: cs, h => by
    obtain ⟨⟨d, hd⟩, hcs⟩ := List.forall_mem_cons.mp h
    obtain ⟨ds, hds⟩ := exists_definitions hcs
    exact ⟨d :: ds, .cons hd hds⟩

/-- The parser accepts exactly the documented grammar. A source falls into chunks in one way. Nothing is told of it just
    if each chunk derives a definition in which brackets nest no deeper than the limit, and it has just those. --/
theorem parse_iff_derives (source : String) (limit : Nat) :
    ∃ cs, (∀ cs', Cut (tokenize source) cs' ↔ cs' = cs) ∧
      ((parse source limit).diagnostics = [] ↔ ∀ c ∈ cs, ∃ d, c.Derives limit d) ∧
      ∀ ds, (parse source limit).diagnostics = [] ∧ (parse source limit).tree.definitions = ds ↔
        List.Forall₂ (Chunk.Derives limit) cs ds := by
  have hderives : (parse source limit).diagnostics = [] →
      ∀ c ∈ chunks (lexemes (tokenize source)).1, ∃ d, c.Derives limit d := Parser.document_finds
  refine ⟨chunks (lexemes (tokenize source)).1, fun _ => cut_iff, ⟨hderives, fun h => ?_⟩,
    fun ds => ⟨?_, parse_of_derives⟩⟩
  · obtain ⟨ds, hds⟩ := exists_definitions h
    exact (parse_of_derives hds).1
  · rintro ⟨hquiet, rfl⟩
    obtain ⟨ds, hds⟩ := exists_definitions (hderives hquiet)
    rw [(parse_of_derives hds).2]
    exact hds

end Abnf
