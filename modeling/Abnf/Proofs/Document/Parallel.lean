import Abnf.Proofs.Document.Leaves

/-! Two readings side by side. Readers look at the kinds of tokens, at what touches, and at nothing else: how the tokens
    are spelled, where they stand and what was told before has no part in how the trees are put together. So two readings
    of tokens that are alike make trees that are alike, and whatever a relation says of the two states goes on to hold if
    the steps of reading keep it (`Parallel`, `together_rule`). -/

namespace Abnf

/-- Brackets were not closed. --/
def Diagnostic.Unclosed (d : Diagnostic) : Prop := d.kind = .unclosedGroup ∨ d.kind = .unclosedOption

instance (d : Diagnostic) : Decidable d.Unclosed := inferInstanceAs (Decidable (_ ∨ _))

namespace Parser

/-- A way to tell of any other fault, at a span. --/
structure Marks (f : Span → Diagnostic) : Prop where
  span (span : Span) : (f span).span = span
  other (span : Span) : ¬(f span).Unclosed
  alone (span : Span) : (f span).related = []
  /-- The same is told wherever the span is. --/
  moved (span span' : Span) : f span = { f span' with span }

/-- What is told of brackets that were opened at a lexeme. --/
def unclosed (b : Bracket) (opening : Lexeme) (lastStop : Nat) : Diagnostic :=
  (Diagnostic.of b.unclosed ⟨opening.start, max lastStop opening.span.stop⟩).relatedTo b.openedHere opening.span

/-- Where it is noticed that something is missing: at the next token of the chunk or the first token behind it. --/
def noticed (σ : Scope) (s : State) : Nat := (s.rest.head?.map Lexeme.start).getD σ.next

/-- A way for neighbouring trees to be alike, which is kept where they are put together. --/
structure Treewise (alike : List Tree → List Tree → Prop) : Prop where
  nil : alike [] []
  append {ts ts' us us' : List Tree} (h : alike ts ts') (hs : alike us us') : alike (ts ++ us) (ts' ++ us')
  node {ts ts' : List Tree} (kind : NodeKind) (h : alike ts ts') : alike [.node kind ts] [.node kind ts']
  isEmpty {ts ts' : List Tree} (h : alike ts ts') : ts.isEmpty = ts'.isEmpty

theorem treewise_eq : Treewise Eq where
  nil := rfl
  append := by
    rintro ts _ us _ rfl rfl
    rfl
  node := by
    rintro ts _ kind rfl
    rfl
  isEmpty := by
    rintro ts _ rfl
    rfl

/-- States that stay related by `ρ` while two readers read and make trees that are `alike`. The lexemes ahead are `same`.
    In front of a lexeme, and behind one that was just taken, the states are even `fresh`. --/
structure Parallel (σ σ' : Scope) (same : Lexeme → Lexeme → Prop) (alike : List Tree → List Tree → Prop)
    (ρ fresh : State → State → Prop) : Prop where
  limit : σ.limit = σ'.limit
  trees : Treewise alike
  kind {l l' : Lexeme} (h : same l l') : l.kind = l'.kind
  touching {l l' : Lexeme} (h : same l l') : l.leading.isEmpty = l'.leading.isEmpty
  leaf {l l' : Lexeme} (h : same l l') : alike [.leaf l.token] [.leaf l'.token]
  leading {l l' : Lexeme} (h : same l l') : alike l.blanks l'.blanks
  rest {s s' : State} (h : ρ s s') : List.Forall₂ same s.rest s'.rest
  tooDeep {s s' : State} (h : ρ s s') : s.tooDeep = s'.tooDeep
  weaken {s s' : State} (h : fresh s s') : ρ s s'
  ahead {s s' : State} (h : ρ s s') (hrest : s.rest ≠ []) : fresh s s'
  take {s s' : State} (h : fresh s s') : fresh s.take.2 s'.take.2
  blanks {s s' : State} (h : fresh s s') : fresh s.blanks.2 s'.blanks.2
  takeAll {s s' : State} (h : ρ s s') : ρ s.takeAll.2 s'.takeAll.2
  deepen {s s' : State} (h : ρ s s') : ρ { s with tooDeep := true } { s' with tooDeep := true }
  missing {s s' : State} {f : Span → Diagnostic} (hf : Marks f) (h : fresh s s') :
    ρ (s.tell (f (.empty s.lastStop))) (s'.tell (f (.empty s'.lastStop)))
  marked {s s' : State} {l l' : Lexeme} {f : Span → Diagnostic} (hf : Marks f) (h : fresh s s') (hl : same l l') :
    ρ (s.tell (f l.span)) (s'.tell (f l'.span))
  unclosed {s₀ s₀' s s' : State} {l l' : Lexeme} {ls ls' : List Lexeme} (b : Bracket) (h₀ : fresh s₀ s₀')
    (hl : s₀.rest = l :: ls) (hl' : s₀'.rest = l' :: ls') (h : ρ s s') (hshorter : s.rest.length ≤ ls.length) :
    ρ (s.report (noticed σ s) (unclosed b l s.lastStop)) (s'.report (noticed σ' s') (Parser.unclosed b l' s'.lastStop))

theorem marks_of (kind : Diagnostic.Kind) (h : ¬(kind = .unclosedGroup ∨ kind = .unclosedOption)) :
    Marks (Diagnostic.of kind) := ⟨fun _ => rfl, fun _ => h, fun _ => rfl, fun _ _ => rfl⟩

theorem marks_detailed (kind : Diagnostic.Kind) (h : ¬(kind = .unclosedGroup ∨ kind = .unclosedOption)) (detail : String) :
    Marks fun span => (Diagnostic.of kind span).detailed detail := ⟨fun _ => rfl, fun _ => h, fun _ => rfl, fun _ _ => rfl⟩

/-- A rule behind its name. --/
def afterName (σ : Scope) : Reader := fun s =>
  if s.sees TokenKind.isDefinedAs then
    let (sign, s) := s.take
    let (body, s) := alternation (element σ σ.limit) s
    let (rest, s) := leftover (if s.tooDeep then none else some .unexpectedToken) s
    (sign ++ body ++ rest, s)
  else leftover none (s.tell (.of .expectedDefinedAs (.empty s.lastStop)))

theorem rule_afterName (σ : Scope) (s : State) : rule σ s =
    ([.node .rule (s.take.1 ++ (afterName σ s.take.2).1)], (afterName σ s.take.2).2) := by
  rw [rule, afterName]
  dsimp only
  split
  · simp only [List.append_assoc]
  · rfl

variable {σ σ' : Scope} {same : Lexeme → Lexeme → Prop} {alike : List Tree → List Tree → Prop}
  {ρ fresh : State → State → Prop} {s s' : State}

/-- Two readers make trees that are alike and stay related, from states that are fresh. --/
def Together (alike : List Tree → List Tree → Prop) (fresh ρ : State → State → Prop) (R R' : Reader) : Prop :=
  ∀ ⦃s s' : State⦄, fresh s s' → alike (R s).1 (R' s').1 ∧ ρ (R s).2 (R' s').2

namespace Parallel

variable (par : Parallel σ σ' same alike ρ fresh)
include par

/-! ### Looking ahead -/

theorem sees (h : ρ s s') (p : TokenKind → Bool) : s.sees p = s'.sees p := by
  rw [State.sees, State.sees]
  have hrest := par.rest h
  generalize s.rest = ls at hrest ⊢
  generalize s'.rest = ls' at hrest ⊢
  cases hrest with
  | nil => rfl
  | cons hl _ => exact congrArg p (par.kind hl)

theorem touches (h : ρ s s') (p : TokenKind → Bool) : s.touches p = s'.touches p := by
  rw [State.touches, State.touches]
  have hrest := par.rest h
  generalize s.rest = ls at hrest ⊢
  generalize s'.rest = ls' at hrest ⊢
  cases hrest with
  | nil => rfl
  | cons hl _ => simp only [List.head?_cons, Option.any_some, par.kind hl, par.touching hl]

theorem ahead_of_sees {p : TokenKind → Bool} (h : ρ s s') (hsees : s.sees p = true) : fresh s s' := by
  refine par.ahead h fun hnil => ?_
  rw [State.sees, hnil] at hsees
  cases hsees

theorem length_eq (h : ρ s s') : s.rest.length = s'.rest.length := (par.rest h).length_eq

theorem leaves {l l' : Lexeme} (hl : same l l') : alike l.leaves l'.leaves := par.trees.append (par.leading hl) (par.leaf hl)

theorem together_take : Together alike fresh fresh State.take State.take := by
  intro s s' h
  refine ⟨?_, par.take h⟩
  rw [State.take, State.take]
  have hrest := par.rest (par.weaken h)
  generalize s.rest = ls at hrest ⊢
  generalize s'.rest = ls' at hrest ⊢
  cases hrest with
  | nil => exact par.trees.nil
  | cons hl _ => exact par.leaves hl

theorem together_blanks : Together alike fresh fresh State.blanks State.blanks := by
  intro s s' h
  refine ⟨?_, par.blanks h⟩
  rw [State.blanks, State.blanks]
  have hrest := par.rest (par.weaken h)
  generalize s.rest = ls at hrest ⊢
  generalize s'.rest = ls' at hrest ⊢
  cases hrest with
  | nil => exact par.trees.nil
  | cons hl _ => exact par.leading hl

theorem together_takeAll : Together alike ρ ρ State.takeAll State.takeAll := by
  intro s s' h
  refine ⟨?_, par.takeAll h⟩
  have hall : ∀ {ls ls' : List Lexeme}, List.Forall₂ same ls ls' →
      alike (ls.flatMap Lexeme.leaves) (ls'.flatMap Lexeme.leaves) := by
    intro ls ls' h
    induction h with
    | nil => exact par.trees.nil
    | cons hl _ ih => exact par.trees.append (par.leaves hl) ih
  exact hall (par.rest h)

/-! ### Repeats and lists -/

theorem together_number : Together alike fresh fresh number number := by
  intro s s' h
  rw [number, number, par.touches (par.weaken h)]
  split
  · exact par.together_take h
  · exact ⟨par.trees.nil, h⟩

theorem together_bounds : Together alike fresh fresh bounds bounds := by
  intro s s' h
  obtain ⟨hlow, h₁⟩ := par.together_number h
  rw [bounds_eq, bounds_eq]
  dsimp only
  rw [par.touches (par.weaken h₁)]
  split
  · obtain ⟨hsign, h₂⟩ := par.together_take h₁
    obtain ⟨hhigh, h₃⟩ := par.together_number h₂
    exact ⟨par.trees.node _ (par.trees.append (par.trees.append hlow hsign) hhigh), h₃⟩
  · exact ⟨par.trees.node _ hlow, h₁⟩

section
variable {R R' : Reader} (together : Together alike fresh ρ R R')
include together

theorem together_repetition : Together alike fresh ρ (repetition R) (repetition R') := by
  intro s s' h
  rw [repetition, repetition, par.sees (par.weaken h)]
  split
  · obtain ⟨hcount, h₁⟩ := par.together_bounds h
    dsimp only
    rw [par.touches (par.weaken h₁)]
    split
    · obtain ⟨hitem, h₂⟩ := together h₁
      exact ⟨par.trees.node _ (par.trees.append hcount hitem), h₂⟩
    · exact ⟨par.trees.node _ hcount, par.missing (marks_detailed .expectedElement (by decide) _) h₁⟩
  · exact together h

theorem together_repetitions : ∀ n, Together alike ρ ρ (repetitions R n) (repetitions R' n)
  | 0, _, _, h => ⟨par.trees.nil, h⟩
  | n + 1, s, s', h => by
    rw [repetitions, repetitions, ← par.sees h]
    split
    · rename_i hsees
      obtain ⟨hblanks, h₁⟩ := par.together_blanks (par.ahead_of_sees h hsees)
      obtain ⟨hitem, h₂⟩ := par.together_repetition together h₁
      obtain ⟨hitems, h₃⟩ := together_repetitions n h₂
      dsimp only
      exact ⟨par.trees.append (par.trees.append hblanks hitem) hitems, h₃⟩
    · exact ⟨par.trees.nil, h⟩

theorem together_concatenation : Together alike fresh ρ (concatenation R) (concatenation R') := by
  intro s s' h
  rw [concatenation, concatenation, par.sees (par.weaken h)]
  split
  · obtain ⟨hblanks, h₁⟩ := par.together_blanks h
    obtain ⟨hfirst, h₂⟩ := par.together_repetition together h₁
    obtain ⟨hmore, h₃⟩ := par.together_repetitions together (repetition R s.blanks.2).2.rest.length h₂
    dsimp only
    rw [← par.length_eq h₂, ← par.trees.isEmpty hmore]
    split
    · exact ⟨par.trees.append hblanks hfirst, h₃⟩
    · exact ⟨par.trees.append hblanks (par.trees.node _ (par.trees.append hfirst hmore)), h₃⟩
  · dsimp only
    rw [par.tooDeep (par.weaken h)]
    split
    · exact ⟨par.trees.nil, par.weaken h⟩
    · exact ⟨par.trees.nil, par.missing (marks_of .expectedElement (by decide)) h⟩

theorem together_branches : ∀ n, Together alike ρ ρ (branches R n) (branches R' n)
  | 0, _, _, h => ⟨par.trees.nil, h⟩
  | n + 1, s, s', h => by
    rw [branches, branches, ← par.sees h]
    split
    · rename_i hsees
      obtain ⟨hslash, h₁⟩ := par.together_take (par.ahead_of_sees h hsees)
      obtain ⟨hbranch, h₂⟩ := par.together_concatenation together h₁
      obtain ⟨hmore, h₃⟩ := together_branches n h₂
      dsimp only
      exact ⟨par.trees.append (par.trees.append hslash hbranch) hmore, h₃⟩
    · exact ⟨par.trees.nil, h⟩

theorem together_alternation : Together alike fresh ρ (alternation R) (alternation R') := by
  intro s s' h
  obtain ⟨hfirst, h₁⟩ := par.together_concatenation together h
  obtain ⟨hmore, h₂⟩ := par.together_branches together (concatenation R s).2.rest.length h₁
  rw [alternation, alternation]
  dsimp only
  rw [← par.length_eq h₁, ← par.trees.isEmpty hmore]
  split
  · exact ⟨hfirst, h₂⟩
  · exact ⟨par.trees.node _ (par.trees.append hfirst hmore), h₂⟩

/-! ### Elements -/

theorem together_bracketed (keeps : Keeps R) (b : Bracket) {l l' : Lexeme} {ls ls' : List Lexeme} (h : fresh s s')
    (hl : s.rest = l :: ls) (hl' : s'.rest = l' :: ls') :
    alike (bracketed σ b l R s).1 (bracketed σ' b l' R' s').1 ∧
      ρ (bracketed σ b l R s).2 (bracketed σ' b l' R' s').2 := by
  obtain ⟨hleft, h₁⟩ := par.together_take h
  obtain ⟨hinner, h₂⟩ := together h₁
  have hshorter : (R s.take.2).2.rest.length ≤ ls.length := by
    have htake : s.take.2.rest = ls := by rw [State.take_cons hl]; rfl
    exact htake ▸ (keeps s.take.2).shorter
  rw [bracketed, bracketed]
  dsimp only
  have hopen := par.trees.append hleft hinner
  rw [← par.sees h₂]
  split
  · rename_i hsees
    obtain ⟨hright, h₃⟩ := par.together_take (par.ahead_of_sees h₂ hsees)
    exact ⟨par.trees.node _ (par.trees.append hopen hright), par.weaken h₃⟩
  · rw [par.tooDeep h₂]
    split
    · exact ⟨par.trees.node _ hopen, h₂⟩
    · exact ⟨par.trees.node _ hopen, par.unclosed b h hl hl' h₂ hshorter⟩

end

theorem together_single (kind : NodeKind) : Together alike fresh ρ (single kind) (single kind) := fun _ _ h =>
  ⟨par.trees.node kind (par.together_take h).1, par.weaken (par.together_take h).2⟩

theorem together_misfit {kind : Diagnostic.Kind} (hf : Marks (Diagnostic.of kind)) {l l' : Lexeme} (hl : same l l')
    (h : fresh s s') (hrest : s.rest ≠ []) :
    alike (misfit kind l s).1 (misfit kind l' s').1 ∧ ρ (misfit kind l s).2 (misfit kind l' s').2 := by
  have h₁ := par.marked hf h hl
  refine par.together_single .error (par.ahead h₁ ?_)
  rwa [State.tell, State.rest_report]

theorem together_tooDeep (b : Bracket) {l l' : Lexeme} (hl : same l l') :
    Together alike fresh ρ (Parser.tooDeep σ b l) (Parser.tooDeep σ' b l') := by
  intro s s' h
  have hf : Marks fun span => (Diagnostic.of .nestingTooDeep span).detailed s!"more than {σ.limit} levels" :=
    marks_detailed .nestingTooDeep (by decide) _
  obtain ⟨hleft, h₁⟩ := par.together_take h
  obtain ⟨hunread, h₂⟩ := par.together_takeAll (par.deepen (par.marked hf h₁ hl))
  rw [Parser.tooDeep, Parser.tooDeep, ← par.limit]
  exact ⟨par.trees.node _ (par.trees.append hleft (par.trees.node _ hunread)), h₂⟩

/-- What stands behind an opening bracket: `body` and the closing one, or nothing that is read if brackets are too deep. --/
def opened (σ : Scope) (body : Option Reader) (b : Bracket) (l : Lexeme) : Reader :=
  match body with
  | some R => bracketed σ b l R
  | none => Parser.tooDeep σ b l

theorem together_elementWith {body body' : Option Reader} (keeps : ∀ R ∈ body, Keeps R)
    (hbody : Option.Rel (Together alike fresh ρ) body body') :
    Together alike fresh ρ (elementWith σ body) (elementWith σ' body') := by
  intro s s' h
  have hall := par.rest (par.weaken h)
  rw [elementWith, elementWith]
  rcases hs : s.rest with _ | ⟨l, ls⟩ <;> rcases hs' : s'.rest with _ | ⟨l', ls'⟩ <;> rw [hs, hs'] at hall
  · exact ⟨par.trees.nil, par.weaken h⟩
  · cases hall
  · cases hall
  have hrest : s.rest ≠ [] := by
    rw [hs]
    exact List.cons_ne_nil _ _
  cases hall with
  | cons hl _ =>
  have hbrackets : ∀ b, alike (opened σ body b l s).1 (opened σ' body' b l' s').1 ∧
      ρ (opened σ body b l s).2 (opened σ' body' b l' s').2 := by
    intro b
    cases hbody with
    | some hR => exact par.together_bracketed hR (keeps _ rfl) b h hs hs'
    | none => exact par.together_tooDeep b hl h
  dsimp only
  rw [par.kind hl]
  split
  -- The two kinds of opening bracket.
  case h_5 | h_6 => exact hbrackets _
  case h_7 => exact par.together_misfit (marks_of .unterminatedString (by decide)) hl h hrest
  case h_8 => exact par.together_misfit (marks_of .unexpectedToken (by decide)) hl h hrest
  all_goals exact par.together_single _ h

theorem together_element : ∀ levels, Together alike fresh ρ (element σ levels) (element σ' levels)
  | 0 => par.together_elementWith nofun .none
  | levels + 1 => par.together_elementWith (by rintro _ ⟨⟩; exact keeps_alternation (keeps_element σ levels))
      (.some (par.together_alternation (together_element levels)))

/-! ### Rules -/

theorem together_leftover (kind : Option Diagnostic.Kind) (hf : ∀ x ∈ kind, Marks (Diagnostic.of x)) :
    Together alike ρ ρ (leftover kind) (leftover kind) := by
  intro s s' h
  have hall := par.rest h
  have hrest : ∀ {t t' : State}, ρ t t' → t.rest = s.rest → s.rest ≠ [] →
      alike (t.blanks.1 ++ [Tree.node .error t.blanks.2.takeAll.1])
        (t'.blanks.1 ++ [Tree.node .error t'.blanks.2.takeAll.1]) ∧
      ρ t.blanks.2.takeAll.2 t'.blanks.2.takeAll.2 := by
    intro t t' ht hrest hne
    obtain ⟨hblanks, h₁⟩ := par.together_blanks (par.ahead ht (by rwa [hrest]))
    obtain ⟨hleft, h₂⟩ := par.together_takeAll (par.weaken h₁)
    exact ⟨par.trees.append hblanks (par.trees.node _ hleft), h₂⟩
  rw [leftover, leftover]
  rcases hs : s.rest with _ | ⟨l, ls⟩ <;> rcases hs' : s'.rest with _ | ⟨l', ls'⟩ <;> rw [hs, hs'] at hall
  · exact ⟨par.trees.nil, h⟩
  · cases hall
  · cases hall
  have hne : s.rest ≠ [] := by
    rw [hs]
    exact List.cons_ne_nil _ _
  cases hall with
  | cons hl _ =>
  cases kind with
  | none => exact hrest h rfl hne
  | some kind => exact hrest (par.marked (hf kind rfl) (par.ahead h hne) hl) (State.rest_report _ _ _) hne

theorem together_afterName : Together alike fresh ρ (afterName σ) (afterName σ') := by
  intro s s' h
  rw [afterName, afterName]
  dsimp only
  rw [par.sees (par.weaken h)]
  split
  · obtain ⟨hsign, h₂⟩ := par.together_take h
    obtain ⟨hbody, h₃⟩ := par.together_alternation (par.together_element σ'.limit) h₂
    have hf : ∀ deep : Bool, ∀ x ∈ if deep then none else some Diagnostic.Kind.unexpectedToken,
        Marks (Diagnostic.of x) := by
      rintro (_ | _) _ ⟨⟩
      exact marks_of _ (by decide)
    obtain ⟨hrest, h₄⟩ := par.together_leftover _ (hf _) h₃
    rw [par.limit, ← par.tooDeep h₃]
    exact ⟨par.trees.append (par.trees.append hsign hbody) hrest, h₄⟩
  · exact par.together_leftover none nofun (par.missing (marks_of .expectedDefinedAs (by decide)) h)

theorem together_rule : Together alike fresh ρ (rule σ) (rule σ') := by
  intro s s' h
  obtain ⟨hname, h₁⟩ := par.together_take h
  obtain ⟨hbody, h₂⟩ := par.together_afterName h₁
  rw [rule_afterName, rule_afterName]
  exact ⟨par.trees.node _ (par.trees.append hname hbody), h₂⟩

end Parallel
end Parser
end Abnf
