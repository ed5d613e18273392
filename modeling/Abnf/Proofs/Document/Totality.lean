import Abnf.Proofs.Document.Standing

/-! The machine reads what the readers read, one procedure for each reader, and comes to no fault on the way
    (`Machine.parse_eq`). So reading is total, and loses no token (`parse_lossless`). -/

namespace Abnf
namespace Parser.Machine

open Checked

variable {β μ : Type} {B : Builder β μ} {doc : Input} {ts trailing : List Token} {m m' : State β} {l : Lexeme}
  {ls rest : List Lexeme} {stop : Nat} {k : Site} {s s' : Parser.State} {x : List Tree × Parser.State} {us vs : List Tree}
  {p : TokenKind → Bool}

/-! ### Repeats -/

/-- The sign of a repeat and the number after it, if there are any. --/
def signed : Reader := fun s =>
  if s.touches fun k => k == .star || k == .hash then
    let (sign, s) := s.take
    let (high, s) := Parser.number s
    (sign ++ high, s)
  else ([], s)

theorem bounds_signed (s : Parser.State) : Parser.bounds s =
    ([.node .bounds ((Parser.number s).1 ++ (signed (Parser.number s).2).1)], (signed (Parser.number s).2).2) := by
  rw [Parser.bounds_eq, signed]
  dsimp only
  split
  · rw [List.append_assoc]
  · rw [List.append_nil]

theorem keeps_signed : Keeps signed := fun s => by
  rw [signed]
  split
  · exact (passes_take s).append (keeps_number _)
  · exact .nil rfl

theorem not_trivia_number : ∀ t : TokenKind, t.isTrivia = true → (t == .number) = false := by
  intro t ht
  cases t <;> first | rfl | cases ht

theorem not_trivia_sign : ∀ t : TokenKind, t.isTrivia = true → (t == .star || t == .hash) = false := by
  intro t ht
  cases t <;> first | rfl | cases ht

theorem not_trivia_startsElement : ∀ t : TokenKind, t.isTrivia = true → t.startsElement = false := by
  intro t ht
  cases t <;> first | rfl | cases ht

section
variable (hdoc : doc.tokens = Token.spans 0 k.tokens)
include hdoc

/-- What touches is at the place itself. --/
theorem bare_of_touches (h : Stands k m s) (near : Near k m s) (hp : ∀ t, t.isTrivia = true → p t = false)
    (htouch : s.touches p = true) : Bare k.tokens m ∧ ∃ l rest, s.rest = l :: rest ∧ l.leading = [] := by
  obtain ⟨l, rest, hrest, hlead, -⟩ := Parser.State.exists_of_touches htouch
  rw [← h.touches hdoc near hp, here_eq hdoc] at htouch
  refine ⟨fun t ht => ?_, l, rest, hrest, hlead⟩
  rw [ht, Option.any_some] at htouch
  cases htrivia : t.kind.isTrivia
  · rfl
  · rw [hp _ htrivia] at htouch
    cases htouch

theorem number_reaches (h : Stands k m s) (near : Near k m s) :
    ∃ m', number B doc m = .ok m' ∧ Reaches B k m (Parser.number s) m' ∧ Near k m' (Parser.number s).2 := by
  rw [number, Parser.number, h.touches hdoc near not_trivia_number]
  split
  · rename_i htouch
    obtain ⟨hbare, l, rest, hrest, -⟩ := bare_of_touches hdoc h near not_trivia_number htouch
    obtain ⟨m₁, hbump, hreach, near₁⟩ := bump_reaches (B := B) hdoc h hbare hrest
    exact ⟨m₁, hbump, hreach, near₁ _⟩
  · exact ⟨m, rfl, .refl h, near⟩

theorem sign_reaches (h : Stands k m s) (near : Near k m s) :
    ∃ m', sign B doc m = .ok m' ∧ Reaches B k m (signed s) m' ∧ Near k m' (signed s).2 := by
  rw [sign, signed, h.touches hdoc near not_trivia_sign]
  split
  · rename_i htouch
    obtain ⟨hbare, l, rest, hrest, -⟩ := bare_of_touches hdoc h near not_trivia_sign htouch
    obtain ⟨m₁, hbump, hreach, near₁⟩ := bump_reaches (B := B) hdoc h hbare hrest
    obtain ⟨m₂, hnumber, hreach', near₂⟩ := number_reaches (B := B) hdoc hreach.stands (near₁ _)
    rw [hbump, ok_bind]
    exact ⟨m₂, hnumber, hreach.trans hreach', near₂⟩
  · exact ⟨m, rfl, .refl h, near⟩

theorem bounds_reaches (sound : B.Sound) (h : Stands k m s) (hbare : Bare k.tokens m) (hrest : s.rest = l :: rest) (hlead : l.leading = []) :
    ∃ m', bounds B doc m = .ok m' ∧ Reaches B k m (Parser.bounds s) m' ∧ Near k m' (Parser.bounds s).2 := by
  obtain ⟨hstands, hblanks, near₀⟩ := enter_stands (B := B) h hbare hrest .bounds
  rw [Parser.State.blanks_bare hrest hlead] at hstands hblanks near₀
  obtain ⟨m₁, hnumber, hreach, near₁⟩ := number_reaches (B := B) hdoc hstands near₀
  obtain ⟨m₂, hsign, hreach', near₂⟩ := sign_reaches (B := B) hdoc hreach.stands near₁
  obtain ⟨m₃, hleave, hreach'', hbuffer, hposition⟩ := (hreach.trans hreach').leave sound hblanks
  rw [bounds, hnumber, ok_bind, hsign, ok_bind, bounds_signed]
  refine ⟨m₃, hleave, hreach'', hbuffer.trans near₂.buffer, fun hnil => ?_⟩
  rw [hposition]
  exact near₂.opens hnil

end

/-! ### Lists -/

/-- In front of a lexeme, brackets nested `depth` deep, the machine does what the reader does behind its trivia. --/
def Plays (B : Builder β μ) (k : Site) (depth : Nat) (P : State β → Checked Empty (State β)) (R : Reader) : Prop :=
  ∀ ⦃m : State β⦄ ⦃s : Parser.State⦄ ⦃l : Lexeme⦄ ⦃rest : List Lexeme⦄, Stands k m s → Bare k.tokens m →
    s.rest = l :: rest → m.depth = depth →
    ∃ m', P m = .ok m' ∧ Reaches B k m (s.blanks.1 ++ (R s.blanks.2).1, (R s.blanks.2).2) m'

/-- In front of a token without trivia the reader makes a tree and moves on. --/
def Progresses (R : Reader) : Prop :=
  ∀ ⦃s : Parser.State⦄ ⦃l : Lexeme⦄ ⦃rest : List Lexeme⦄, s.rest = l :: rest → l.leading = [] →
    (R s).1 ≠ [] ∧ (R s).2.rest.length < s.rest.length

theorem length_take (h : s.rest = l :: rest) : s.take.2.rest.length < s.rest.length := by
  rw [Parser.State.take_cons h, h]
  exact Nat.lt_succ_self _

/-- The element after a repeat. --/
def follows (element : Reader) : Reader := fun s =>
  if s.touches TokenKind.startsElement then element s
  else
    let missing := Diagnostic.of .expectedElement (.empty s.lastStop)
    ([], s.tell (missing.detailed "no element directly after the repeat"))

theorem repetition_follows (element : Reader) (s : Parser.State) : Parser.repetition element s =
    if s.sees TokenKind.startsRepeat then
      ([.node .repetition ((Parser.bounds s).1 ++ (follows element (Parser.bounds s).2).1)],
        (follows element (Parser.bounds s).2).2)
    else element s := by
  rw [Parser.repetition, follows]
  dsimp only
  split
  · split
    · rfl
    · rw [List.append_nil]
  · rfl

theorem keeps_follows {element : Reader} (keeps : Keeps element) : Keeps (follows element) := fun s => by
  rw [follows]
  split
  · exact keeps s
  · exact (Passes.nil rfl).report _ _

theorem length_bounds (h : s.sees TokenKind.startsRepeat = true) (hrest : s.rest = l :: rest)
    (hlead : l.leading = []) : (Parser.bounds s).2.rest.length < s.rest.length := by
  have htouch : ∀ p : TokenKind → Bool, s.touches p = p l.kind := State.touches_cons hrest hlead
  rw [State.sees_cons hrest] at h
  rw [bounds_signed, Parser.number, htouch]
  split
  · exact Nat.lt_of_le_of_lt (keeps_signed _).shorter (length_take hrest)
  · rename_i hnumber
    have hsign : (l.kind == .star || l.kind == .hash) = true := by
      revert h hnumber
      cases l.kind <;> decide
    rw [signed, htouch, if_pos hsign]
    exact Nat.lt_of_le_of_lt (keeps_number _).shorter (length_take hrest)

theorem repetitions_nil (element : Reader) (n : Nat) (h : s.sees TokenKind.startsRepetition = false) :
    Parser.repetitions element n s = ([], s) := by
  cases n with
  | zero => rfl
  | succ n => rw [Parser.repetitions, h, if_neg Bool.false_ne_true]

theorem branches_nil (element : Reader) (n : Nat) (h : s.sees (· == .slash) = false) :
    Parser.branches element n s = ([], s) := by
  cases n with
  | zero => rfl
  | succ n => rw [Parser.branches, h, if_neg Bool.false_ne_true]

theorem branches_ne_nil (element : Reader) (h : s.sees (· == .slash) = true) :
    (Parser.branches element s.rest.length s).1 ≠ [] := by
  obtain ⟨l, rest, hrest, -⟩ := State.exists_of_sees h
  have hslash : s.take.1 ≠ [] := by
    rw [State.take_cons hrest]
    exact List.append_ne_nil_of_right_ne_nil _ (List.cons_ne_nil _ _)
  rw [hrest, List.length_cons, Parser.branches, if_pos h]
  exact List.append_ne_nil_of_left_ne_nil (List.append_ne_nil_of_left_ne_nil hslash _) _

section
variable {element : Reader} (keeps : Keeps element) (progresses : Progresses element)
include keeps progresses

theorem progresses_repetition : Progresses (Parser.repetition element) := by
  intro s l rest hrest hlead
  rw [repetition_follows]
  split
  · rename_i hstarts
    exact ⟨List.cons_ne_nil _ _, Nat.lt_of_le_of_lt (keeps_follows keeps _).shorter (length_bounds hstarts hrest hlead)⟩
  · exact progresses hrest hlead

theorem repetitions_ne_nil (h : s.sees TokenKind.startsRepetition = true) :
    (Parser.repetitions element s.rest.length s).1 ≠ [] := by
  obtain ⟨l, rest, hrest, -⟩ := State.exists_of_sees h
  have hblanks : s.blanks.2.rest = { l with leading := [] } :: rest := by rw [State.blanks_cons hrest]; rfl
  have hne := (progresses_repetition keeps progresses hblanks rfl).1
  rw [hrest, List.length_cons, Parser.repetitions, if_pos h]
  exact List.append_ne_nil_of_left_ne_nil (List.append_ne_nil_of_right_ne_nil _ hne) _

end

section
variable (hdoc : doc.tokens = Token.spans 0 k.tokens) {depth : Nat}
  {P : State β → Checked Empty (State β)} {R : Reader} (plays : Plays B k depth P R)
include hdoc plays

theorem repeated_reaches (h : Stands k m s) (near : Near k m s) (hdepth : m.depth = depth) :
    ∃ m', repeated doc P m = .ok m' ∧ Reaches B k m (follows R s) m' := by
  rw [repeated, h.touches hdoc near not_trivia_startsElement, follows]
  split
  · rename_i htouch
    obtain ⟨hbare, l, rest, hrest, hlead⟩ := bare_of_touches hdoc h near not_trivia_startsElement htouch
    have hplays := plays h hbare hrest hdepth
    rw [State.blanks_bare hrest hlead] at hplays
    exact hplays
  · rw [h.ahead.afterLast hdoc, ok_bind]
    exact ⟨_, rfl, (Reaches.refl h).report _ _⟩

variable (sound : B.Sound)
include sound

theorem plays_repetition : Plays B k depth (repetition B doc P) (Parser.repetition R) := by
  intro m s l rest h hbare hrest hdepth
  have hhere : here doc TokenKind.startsRepeat m = l.kind.startsRepeat := by
    rw [h.ahead.here hdoc hbare, hrest]
    rfl
  have hsees : s.blanks.2.sees TokenKind.startsRepeat = l.kind.startsRepeat := by
    rw [State.blanks_cons hrest]
    rfl
  rw [repetition, skip_of_bare hdoc hbare, hhere, repetition_follows, hsees]
  split
  · rename_i hstarts
    obtain ⟨hstands, hblanks, -⟩ := enter_stands (B := B) h hbare hrest .repetition
    have hrest' : s.blanks.2.rest = { l with leading := [] } :: rest := by rw [State.blanks_cons hrest]; rfl
    obtain ⟨m₁, hbounds, hreach, near⟩ := bounds_reaches hdoc sound hstands hbare hrest' rfl
    obtain ⟨m₂, hrepeated, hreach'⟩ := repeated_reaches hdoc plays hreach.stands near (hreach.depth.trans hdepth)
    obtain ⟨m₃, hleave, hreach'', -⟩ := (hreach.trans hreach').leave sound hblanks
    rw [hbounds, ok_bind, hrepeated]
    exact ⟨m₃, hleave, hreach''⟩
  · exact plays h hbare hrest hdepth

theorem repetitions_reaches (keeps : Keeps R) (progresses : Progresses R) : ∀ (n fuel : Nat) {m : State β} {s : Parser.State},
    Stands k m s → m.depth = depth → s.rest.length ≤ n → s.rest.length < fuel →
    ∃ m', repetitions B doc P fuel m = .ok m' ∧ Reaches B k m (Parser.repetitions R n s) m'
  | n, 0, _, _, _, _, _, hfuel => absurd hfuel (Nat.not_lt_zero _)
  | n, fuel + 1, m, s, h, hdepth, hn, hfuel => by
    rw [repetitions, h.continues hdoc, ok_bind]
    dsimp only
    split
    · rename_i hsees
      obtain ⟨l, rest, hrest, hkind⟩ := State.exists_of_sees hsees
      have hblanks : s.blanks.2.rest = { l with leading := [] } :: rest := by rw [State.blanks_cons hrest]; rfl
      obtain ⟨m₁, hplays, hreach⟩ := plays_repetition hdoc plays sound (h.skip hdoc) (bare_skip hdoc m) hrest hdepth
      have hlt := (progresses_repetition keeps progresses hblanks rfl).2
      have hlen : s.blanks.2.rest.length = s.rest.length := by rw [hblanks, hrest]; rfl
      cases n with
      | zero =>
        rw [hrest] at hn
        cases hn
      | succ n =>
        obtain ⟨m₂, hmore, hreach'⟩ := repetitions_reaches keeps progresses n fuel hreach.stands
          (hreach.depth.trans hdepth) (by dsimp only; omega) (by dsimp only; omega)
        rw [hplays, ok_bind, hmore, Parser.repetitions, if_pos hsees]
        exact ⟨m₂, rfl, (hreach.trans hreach').stands, (hreach.trans hreach').places, (hreach.trans hreach').depth⟩
    · rename_i hsees
      rw [repetitions_nil R n ((Bool.not_eq_true _).mp hsees)]
      exact ⟨_, rfl, h.skip hdoc, .nil _, rfl⟩

theorem concatenation_reaches (keeps : Keeps R) (progresses : Progresses R) (h : Stands k m s) (hdepth : m.depth = depth) :
    ∃ m', concatenation B doc P m = .ok m' ∧ Reaches B k m (Parser.concatenation R s) m' := by
  have hskip := h.skip hdoc
  rw [concatenation, h.continues hdoc, ok_bind, Parser.concatenation]
  dsimp only
  split
  · rename_i hsees
    obtain ⟨l, rest, hrest, -⟩ := State.exists_of_sees hsees
    obtain ⟨hstands, hblanks⟩ := drain_stands (B := B) hskip (bare_skip hdoc m) hrest
    have hrest' : s.blanks.2.rest = { l with leading := [] } :: rest := by rw [State.blanks_cons hrest]; rfl
    obtain ⟨m₁, hfirst, hreach⟩ := plays_repetition hdoc plays sound hstands (bare_skip hdoc m) hrest' hdepth
    rw [State.blanks_bare hrest' rfl, List.nil_append] at hreach
    rw [hfirst, ok_bind, hreach.stands.continues hdoc, ok_bind]
    have hreach₁ : Reaches B k (drain B (skip doc m)) (Parser.repetition R s.blanks.2) (skip doc m₁) :=
      ⟨hreach.stands.skip hdoc, hreach.places, hreach.depth⟩
    dsimp only
    cases hmore : (Parser.repetition R s.blanks.2).2.sees TokenKind.startsRepetition
    · rw [repetitions_nil R _ hmore, if_neg Bool.false_ne_true, if_pos List.isEmpty_nil]
      exact ⟨_, rfl, hreach₁.stands, hblanks.append hreach₁.places, hreach₁.depth⟩
    · obtain ⟨m₂, henter, hreach₂⟩ := hreach₁.enterAt sound .concatenation
      have hrounds : (Parser.repetition R s.blanks.2).2.rest.length < rounds doc := by
        rw [rounds, hdoc, Token.length_spans]
        exact Nat.lt_succ_of_le hreach₁.stands.length_le
      obtain ⟨m₃, hloop, hreach₃⟩ := repetitions_reaches hdoc plays sound keeps progresses _ _ hreach₂.stands
        (hreach₂.depth.trans hdepth) (Nat.le_refl _) hrounds
      obtain ⟨m₄, hleave, hreach₄, -⟩ := (hreach₂.trans hreach₃).leave sound hblanks
      have hne := repetitions_ne_nil keeps progresses hmore
      rw [if_pos rfl, henter, ok_bind, hloop, if_neg (by rwa [List.isEmpty_iff])]
      exact ⟨m₄, hleave, hreach₄.stands, hreach₄.places, hreach₄.depth⟩
  · have hstay : Reaches B k m ([], s) (skip doc m) := ⟨hskip, .nil _, rfl⟩
    rw [hskip.ahead.afterLast hdoc, ok_bind, hskip.tooDeep]
    refine ⟨_, rfl, ?_⟩
    split
    · exact hstay
    · exact hstay.report _ _

theorem branches_reaches (keeps : Keeps R) (progresses : Progresses R) : ∀ (n fuel : Nat) {m : State β} {s : Parser.State},
    Stands k m s → m.depth = depth → s.rest.length ≤ n → s.rest.length < fuel →
    ∃ m', branches B doc P fuel m = .ok m' ∧ Reaches B k m (Parser.branches R n s) m'
  | n, 0, _, _, _, _, _, hfuel => absurd hfuel (Nat.not_lt_zero _)
  | n, fuel + 1, m, s, h, hdepth, hn, hfuel => by
    rw [branches, h.continues hdoc, ok_bind]
    dsimp only
    split
    · rename_i hsees
      obtain ⟨l, rest, hrest, -⟩ := State.exists_of_sees hsees
      obtain ⟨m₁, hbump, hreach, -⟩ := bump_reaches (B := B) hdoc (h.skip hdoc) (bare_skip hdoc m) hrest
      obtain ⟨m₂, hbranch, hreach'⟩ :=
        concatenation_reaches hdoc plays sound keeps progresses hreach.stands (hreach.depth.trans hdepth)
      have htake := length_take hrest
      have hshorter := (keeps_concatenation keeps s.take.2).shorter
      cases n with
      | zero =>
        rw [hrest] at hn
        cases hn
      | succ n =>
        obtain ⟨m₃, hmore, hreach''⟩ := branches_reaches keeps progresses n fuel hreach'.stands
          (hreach'.depth.trans (hreach.depth.trans hdepth)) (by omega) (by omega)
        rw [hbump, ok_bind, hbranch, ok_bind, hmore, Parser.branches, if_pos hsees]
        have htrans := (hreach.trans hreach').trans hreach''
        exact ⟨m₃, rfl, htrans.stands, htrans.places, htrans.depth⟩
    · rename_i hsees
      rw [branches_nil R n ((Bool.not_eq_true _).mp hsees)]
      exact ⟨_, rfl, h.skip hdoc, .nil _, rfl⟩

theorem alternation_reaches (keeps : Keeps R) (progresses : Progresses R) (h : Stands k m s) (hdepth : m.depth = depth)
    (hbuffer : m.buffer = []) :
    ∃ m', alternation B doc P m = .ok m' ∧ Reaches B k m (Parser.alternation R s) m' := by
  -- Nothing is handed over before the mark.
  have hdrain : drain B m = m := by rw [drain, hbuffer, List.foldl_nil, ← hbuffer]
  obtain ⟨m₁, hfirst, hreach⟩ := concatenation_reaches hdoc plays sound keeps progresses h hdepth
  have hreach₁ : Reaches B k (drain B m) (Parser.concatenation R s) (skip doc m₁) := by
    rw [hdrain]
    exact ⟨hreach.stands.skip hdoc, hreach.places, hreach.depth⟩
  rw [alternation, Parser.alternation]
  dsimp only
  rw [hdrain, hfirst, ok_bind, hreach.stands.continues hdoc, ok_bind]
  dsimp only
  cases hmore : (Parser.concatenation R s).2.sees (· == .slash)
  · rw [branches_nil R _ hmore, if_neg Bool.false_ne_true, if_pos List.isEmpty_nil]
    rw [hdrain] at hreach₁
    exact ⟨_, rfl, hreach₁⟩
  · obtain ⟨m₂, henter, hreach₂⟩ := hreach₁.enterAt sound .alternation
    have hrounds : (Parser.concatenation R s).2.rest.length < rounds doc := by
      rw [rounds, hdoc, Token.length_spans]
      exact Nat.lt_succ_of_le hreach₁.stands.length_le
    obtain ⟨m₃, hloop, hreach₃⟩ := branches_reaches hdoc plays sound keeps progresses _ _ hreach₂.stands
      (hreach₂.depth.trans hdepth) (Nat.le_refl _) hrounds
    have hplaces : B.Places [] m.builder (drain B m).builder := by
      rw [hdrain]
      exact .nil _
    obtain ⟨m₄, hleave, hreach₄, -⟩ := (hreach₂.trans hreach₃).leave sound hplaces
    have hne := branches_ne_nil R hmore
    rw [hdrain] at henter
    rw [if_pos rfl, henter, ok_bind, hloop, if_neg (by rwa [List.isEmpty_iff])]
    exact ⟨m₄, hleave, hreach₄⟩

end

/-! ### Elements -/

theorem plays_single (hdoc : doc.tokens = Token.spans 0 k.tokens) (sound : B.Sound) (kind : NodeKind) (depth : Nat) :
    Plays B k depth (bumpAs B doc kind) (single kind) := by
  intro m s l rest h hbare hrest hdepth
  obtain ⟨hstands, hblanks, -⟩ := enter_stands (B := B) h hbare hrest kind
  have hrest' : s.blanks.2.rest = { l with leading := [] } :: rest := by rw [State.blanks_cons hrest]; rfl
  obtain ⟨m₁, hbump, hreach, -⟩ := bump_reaches (B := B) hdoc hstands hbare hrest'
  obtain ⟨m₂, hleave, hreach', -⟩ := hreach.leave sound hblanks
  rw [bumpAs, hbump]
  exact ⟨m₂, hleave, hreach'⟩

/-- What the brackets end with. --/
def closes (σ : Scope) (b : Bracket) (opening : Lexeme) : Reader := fun s =>
  if s.sees (· == b.closing) then s.take
  else if s.tooDeep then ([], s)
  else
    let noticed := (s.rest.head?.map Lexeme.start).getD σ.next
    let span := ⟨opening.start, max s.lastStop opening.span.stop⟩
    ([], s.report noticed ((Diagnostic.of b.unclosed span).relatedTo b.openedHere opening.span))

theorem bracketed_closes (σ : Scope) (b : Bracket) (opening : Lexeme) (body : Reader) (s : Parser.State) :
    Parser.bracketed σ b opening body s =
      ([.node b.node (s.take.1 ++ (body s.take.2).1 ++ (closes σ b opening (body s.take.2).2).1)],
        (closes σ b opening (body s.take.2).2).2) := by
  rw [Parser.bracketed, closes]
  dsimp only
  split
  · rfl
  · split <;> rw [List.append_nil]

theorem keeps_closes (σ : Scope) (b : Bracket) (opening : Lexeme) : Keeps (closes σ b opening) := fun s => by
  rw [closes]
  split
  · exact passes_take s
  · split
    · exact .nil rfl
    · exact (Passes.nil rfl).report _ _

theorem progresses_elementWith (σ : Scope) {body : Option Reader} (keeps : ∀ R ∈ body, Keeps R) :
    Progresses (Parser.elementWith σ body) := by
  intro s l rest hrest hlead
  have hsingle : ∀ kind, (single kind s).1 ≠ [] ∧ (single kind s).2.rest.length < s.rest.length := fun kind =>
    ⟨List.cons_ne_nil _ _, length_take hrest⟩
  have hmisfit : ∀ kind, (misfit kind l s).1 ≠ [] ∧ (misfit kind l s).2.rest.length < s.rest.length := fun kind => by
    have hrest' : (s.tell (.of kind l.span)).rest = l :: rest := (State.rest_report _ _ _).trans hrest
    refine ⟨List.cons_ne_nil _ _, ?_⟩
    rw [hrest, ← hrest']
    exact length_take hrest'
  have hbrackets : ∀ b (R : Reader), Keeps R → (Parser.bracketed σ b l R s).1 ≠ [] ∧
      (Parser.bracketed σ b l R s).2.rest.length < s.rest.length := fun b R keeps => by
    rw [bracketed_closes]
    exact ⟨List.cons_ne_nil _ _, Nat.lt_of_le_of_lt (Nat.le_trans (keeps_closes σ b l _).shorter (keeps _).shorter)
      (length_take hrest)⟩
  have hdeep : ∀ b, (tooDeep σ b l s).1 ≠ [] ∧ (tooDeep σ b l s).2.rest.length < s.rest.length := fun b => by
    rw [hrest]
    exact ⟨List.cons_ne_nil _ _, Nat.succ_pos _⟩
  rw [Parser.elementWith]
  split
  · simp_all
  · rename_i l' ls hrest'
    obtain ⟨rfl, rfl⟩ := List.cons.inj (hrest.symm.trans hrest')
    split
    -- The two kinds of opening bracket.
    case h_5 | h_6 =>
      cases body with
      | some R => exact hbrackets _ R (keeps R rfl)
      | none => exact hdeep _
    all_goals first | exact hsingle _ | exact hmisfit _

theorem progresses_element (σ : Scope) : ∀ levels, Progresses (Parser.element σ levels)
  | 0 => progresses_elementWith σ nofun
  | levels + 1 => progresses_elementWith σ (by rintro _ ⟨⟩; exact keeps_alternation (keeps_element σ levels))

/-- Brackets nested too deep, behind the opening one. --/
def unreadable (σ : Scope) (opening : Lexeme) : Reader := fun s =>
  let s := s.tell ((Diagnostic.of .nestingTooDeep opening.span).detailed s!"more than {σ.limit} levels")
  let (unread, s) := { s with tooDeep := true }.takeAll
  ([.node .error unread], s)

theorem blanks_tell (s : Parser.State) (d : Diagnostic) : (s.tell d).blanks = (s.blanks.1, s.blanks.2.tell d) := by
  rw [Parser.State.tell, Parser.State.tell, Parser.State.report, Parser.State.report, Parser.State.blanks,
    Parser.State.blanks]
  split <;> split <;> simp_all

theorem tell_stands (h : Stands k m s) (hbare : Bare k.tokens m) (d : Diagnostic) :
    Stands k (tell d m) (s.tell d) ∧ Bare k.tokens (tell d m) := by
  refine ⟨h.report _ _, fun t ht => hbare t ?_⟩
  rwa [tell, position_report] at ht

section
variable (hdoc : doc.tokens = Token.spans 0 k.tokens)
include hdoc

theorem currentSpan_eq (h : Ahead k.tokens m ls trailing stop) :
    currentSpan doc m = ((ls.head?.map Lexeme.span).getD (.empty doc.stop), skip doc m) := by
  rw [currentSpan, (h.skip hdoc).lookup hdoc (bare_skip hdoc m), Option.map_map]
  rfl

theorem error_eq (h : Ahead k.tokens m (l :: ls) trailing stop) (hbare : Bare k.tokens m) (kind : Diagnostic.Kind) :
    error doc kind m = tell (.of kind l.span) m := by
  rw [error, currentSpan_eq hdoc h, skip_of_bare hdoc hbare]
  rfl

theorem plays_misfit (sound : B.Sound) (kind : Diagnostic.Kind) (h : Stands k m s) (hbare : Bare k.tokens m)
    (hrest : s.rest = l :: rest) :
    ∃ m', errorAndBump B doc kind m = .ok m' ∧
      Reaches B k m (s.blanks.1 ++ (misfit kind l s.blanks.2).1, (misfit kind l s.blanks.2).2) m' := by
  have hahead := h.ahead
  rw [hrest, List.cons_append] at hahead
  obtain ⟨hstands, hbare'⟩ := tell_stands h hbare (.of kind l.span)
  have hrest' : (s.tell (.of kind l.span)).rest = l :: rest := by
    rw [Parser.State.tell, State.rest_report, hrest]
  obtain ⟨m', hbump, hreach⟩ := plays_single hdoc sound .error _ hstands hbare' hrest' rfl
  rw [blanks_tell] at hreach
  have hend : atEnd doc (tell (.of kind l.span) m) = false := by
    rw [hstands.ahead.atEnd hdoc hbare', hrest']
    rfl
  rw [errorAndBump, error_eq hdoc hahead hbare, hend, if_neg Bool.false_ne_true, hbump]
  exact ⟨m', rfl, hreach.of_tell⟩

theorem close_reaches {σ : Scope} (hnext : σ.next = (k.later.head?.map Lexeme.start).getD doc.stop) (b : Bracket) (opening : Lexeme) (h : Stands k m s) :
    ∃ m', close B doc b opening.span m = .ok m' ∧ Reaches B k m (closes σ b opening s) m' := by
  have hskip := h.skip hdoc
  have hstay : Reaches B k m ([], s) (skip doc m) := ⟨hskip, .nil _, rfl⟩
  rw [close, h.continues hdoc, ok_bind, closes]
  dsimp only
  split
  · rename_i hsees
    obtain ⟨l, rest, hrest, -⟩ := State.exists_of_sees hsees
    obtain ⟨m', hbump, hreach, -⟩ := bump_reaches (B := B) hdoc hskip (bare_skip hdoc m) hrest
    exact ⟨m', hbump, hreach.stands, hreach.places, hreach.depth⟩
  · rw [hskip.tooDeep]
    split
    · exact ⟨_, rfl, hstay⟩
    · have hnoticed : (((s.rest ++ k.later).head?.map Lexeme.span).getD (.empty doc.stop)).start =
          (s.rest.head?.map Lexeme.start).getD σ.next := by
        rw [hnext]
        rcases s.rest with _ | ⟨l, ls⟩
        · rcases k.later with _ | ⟨l, ls⟩ <;> rfl
        · rfl
      have hle : opening.span.start ≤ max s.lastStop opening.span.stop :=
        Nat.le_trans (Nat.le_add_right _ _) (Nat.le_max_right _ _)
      rw [unclosed, currentSpan_eq hdoc hskip.ahead, skip_of_bare hdoc (bare_skip hdoc m)]
      dsimp only
      rw [hskip.ahead.afterLast hdoc, ok_bind, ensure_eq (decide_eq_true hle), ok_bind, hnoticed]
      exact ⟨_, rfl, hstay.report _ _⟩

theorem giveUp_reaches (sound : B.Sound) {σ : Scope} (hlimit : σ.limit = doc.limit) (opening : Lexeme)
    (h : Stands k m s) (hbuffer : m.buffer = []) :
    ∃ m', giveUp B doc opening.span m = .ok m' ∧ Reaches B k m (unreadable σ opening s) m' := by
  let fault := (Diagnostic.of .nestingTooDeep opening.span).detailed s!"more than {σ.limit} levels"
  have hdeep : Stands k { tell fault m with tooDeep := true } { s.tell fault with tooDeep := true } :=
    (h.report _ _).withTooDeep true
  obtain ⟨hstands, hplaces⟩ := enter_unbuffered (B := B) hdeep ((buffer_report _ _ m).trans hbuffer) .error
  obtain ⟨m₁, hloop, hreach⟩ := bumpRest_reaches (B := B) hdoc (rounds doc) hstands (by
    rw [rounds, hdoc, Token.length_spans]
    exact Nat.lt_succ_of_le hstands.length_le)
  obtain ⟨m₂, hleave, hreach', -⟩ := hreach.leave sound hplaces
  rw [giveUp, ← hlimit]
  dsimp only
  rw [hloop, ok_bind]
  refine ⟨m₂, hleave, hreach'.stands, ?_, hreach'.depth.trans (depth_report _ _ m)⟩
  have hfinal := hreach'.places
  rwa [show ({ tell fault m with tooDeep := true } : State β).builder = m.builder from builder_report _ _ m] at hfinal

/-- Between brackets, with nothing in the buffer, a body does what its reader does; without a reader the brackets are
    nested too deep. --/
def Inner (B : Builder β μ) (k : Site) (limit depth : Nat) (body : State β → Checked Empty (State β)) :
    Option Reader → Prop
  | none => limit ≤ depth
  | some R => depth < limit ∧ ∀ ⦃m : State β⦄ ⦃s : Parser.State⦄, Stands k m s → m.depth = depth + 1 → m.buffer = [] →
      ∃ m', body m = .ok m' ∧ Reaches B k m (R s) m'

theorem bracketed_reaches (sound : B.Sound) {σ : Scope} (hlimit : σ.limit = doc.limit)
    (hnext : σ.next = (k.later.head?.map Lexeme.start).getD doc.stop) {depth : Nat}
    {body : State β → Checked Empty (State β)} {R : Option Reader} (inner : Inner B k doc.limit depth body R) (b : Bracket)
    (h : Stands k m s) (hbare : Bare k.tokens m) (hrest : s.rest = l :: rest) (hdepth : m.depth = depth) :
    ∃ m', bracketed B doc body b m = .ok m' ∧ Reaches B k m (s.blanks.1 ++ (match R with
        | some R => Parser.bracketed σ b l R s.blanks.2
        | none => tooDeep σ b l s.blanks.2).1, (match R with
        | some R => Parser.bracketed σ b l R s.blanks.2
        | none => tooDeep σ b l s.blanks.2).2) m' := by
  obtain ⟨hstands, hblanks, -⟩ := enter_stands (B := B) h hbare hrest b.node
  have hrest' : s.blanks.2.rest = { l with leading := [] } :: rest := by rw [State.blanks_cons hrest]; rfl
  obtain ⟨m₁, hbump, hreach, near⟩ := bump_reaches (B := B) hdoc hstands hbare hrest'
  have hdepth₁ : m₁.depth = depth := hreach.depth.trans hdepth
  have hopening : currentSpan doc m = (l.span, m) := by
    rw [currentSpan_eq hdoc h.ahead, hrest, skip_of_bare hdoc hbare]
    rfl
  rw [bracketed, hopening]
  dsimp only
  rw [hbump, ok_bind, hdepth₁]
  cases R with
  | none =>
    obtain ⟨m₂, hgive, hreach₂⟩ := giveUp_reaches hdoc sound hlimit l hreach.stands (near s).buffer
    obtain ⟨m₃, hleave, hreach₃, -⟩ := (hreach.trans hreach₂).leave sound hblanks
    have hlimit : doc.limit ≤ depth := inner
    rw [if_pos hlimit, hgive]
    exact ⟨m₃, hleave, hreach₃⟩
  | some R =>
    obtain ⟨hlt, hbody⟩ := inner
    have hin : Stands k { m₁ with depth := m₁.depth + 1 } s.blanks.2.take.2 := hreach.stands.withDepth _
    obtain ⟨m₂, hinner, hreach₂⟩ := hbody hin (congrArg (· + 1) hdepth₁) (near s).buffer
    have hout : Stands k { m₂ with depth := m₂.depth - 1 } (R s.blanks.2.take.2).2 := hreach₂.stands.withDepth _
    obtain ⟨m₃, hclose, hreach₃⟩ := close_reaches (B := B) hdoc hnext b l hout
    have hall : Reaches B k (enter B b.node m) (s.blanks.2.take.1 ++ (R s.blanks.2.take.2).1 ++
        (closes σ b l (R s.blanks.2.take.2).2).1, (closes σ b l (R s.blanks.2.take.2).2).2) m₃ := by
      refine ⟨hreach₃.stands, (hreach.places.append hreach₂.places).append hreach₃.places, ?_⟩
      rw [hreach₃.depth]
      dsimp only
      rw [hreach₂.depth]
      exact hreach.depth
    obtain ⟨m₄, hleave, hreach₄, -⟩ := hall.leave sound hblanks
    rw [if_neg (Nat.not_le.mpr hlt), ← hdepth₁, hinner, ok_bind, hclose]
    simp only [bracketed_closes]
    exact ⟨m₄, hleave, hreach₄⟩

theorem plays_elementWith (sound : B.Sound) {σ : Scope} (hlimit : σ.limit = doc.limit)
    (hnext : σ.next = (k.later.head?.map Lexeme.start).getD doc.stop) {depth : Nat}
    {body : State β → Checked Empty (State β)} {R : Option Reader} (inner : Inner B k doc.limit depth body R) :
    Plays B k depth (elementWith B doc body) (Parser.elementWith σ R) := by
  intro m s l rest h hbare hrest hdepth
  have hlookup : doc.tokens[m.position]?.map (fun t => t.1.kind) = some l.kind := by
    rw [h.ahead.lookup hdoc hbare, hrest]
    rfl
  have hrest' : s.blanks.2.rest = { l with leading := [] } :: rest := by rw [State.blanks_cons hrest]; rfl
  have hsingle : ∀ kind, ∃ m', bumpAs B doc kind m = .ok m' ∧
      Reaches B k m (s.blanks.1 ++ (single kind s.blanks.2).1, (single kind s.blanks.2).2) m' := fun kind =>
    plays_single hdoc sound kind depth h hbare hrest hdepth
  have hmisfit : ∀ kind, ∃ m', errorAndBump B doc kind m = .ok m' ∧
      Reaches B k m (s.blanks.1 ++ (misfit kind l s.blanks.2).1, (misfit kind l s.blanks.2).2) m' := fun kind =>
    plays_misfit hdoc sound kind h hbare hrest
  have hbracketed := fun b => bracketed_reaches hdoc sound hlimit hnext inner b h hbare hrest hdepth
  rw [elementWith, skip_of_bare hdoc hbare, hlookup, Parser.elementWith, hrest']
  dsimp only
  have hkind : Lexeme.kind { l with leading := [] } = l.kind := rfl
  rw [hkind]
  cases l.kind
  case ruleName => exact hsingle .ref
  case charVal => exact hsingle .str
  case numVal => exact hsingle .num
  case proseVal => exact hsingle .prose
  case parenOpen => cases R <;> exact hbracketed .group
  case bracketOpen => cases R <;> exact hbracketed .optional
  case unterminatedStr => exact hmisfit .unterminatedString
  all_goals exact hmisfit .unexpectedToken

/-- With room for as many calls as brackets may still nest, the machine reads elements as their readers do. --/
theorem plays_element (sound : B.Sound) {σ : Scope} (hlimit : σ.limit = doc.limit)
    (hnext : σ.next = (k.later.head?.map Lexeme.start).getD doc.stop) : ∀ (levels room depth : Nat), levels ≤ room →
    depth + levels = doc.limit → Plays B k depth (element B doc room) (Parser.element σ levels)
  | 0, room, depth, _, hdepth => by
    have hinner : ∀ body, Inner B k doc.limit depth body none := fun _ => Nat.le_of_eq hdepth.symm
    cases room <;> exact plays_elementWith hdoc sound hlimit hnext (hinner _)
  | levels + 1, 0, _, hroom, _ => absurd hroom (Nat.not_succ_le_zero _)
  | levels + 1, room + 1, depth, hroom, hdepth => by
    have plays := plays_element sound hlimit hnext levels room (depth + 1) (Nat.le_of_succ_le_succ hroom) (by omega)
    refine plays_elementWith hdoc sound hlimit hnext ⟨by omega, fun m s h hdepth hbuffer => ?_⟩
    exact alternation_reaches hdoc plays sound (keeps_element σ levels) (progresses_element σ levels) h hdepth hbuffer

/-! ### Rules and documents -/

/-- The rest of a chunk goes under an error node. --/
theorem bumpRest_wrapped (sound : B.Sound) (h : Stands k m s) (hbare : Bare k.tokens m) (hrest : s.rest = l :: rest) :
    ∃ m', (do leave B (← bumpRest B doc (rounds doc) (enter B .error m))) = .ok m' ∧
      Reaches B k m (s.blanks.1 ++ [.node .error s.blanks.2.takeAll.1], s.blanks.2.takeAll.2) m' := by
  obtain ⟨hstands, hblanks, -⟩ := enter_stands (B := B) h hbare hrest .error
  have hrounds : s.blanks.2.rest.length < rounds doc := by
    rw [rounds, hdoc, Token.length_spans]
    exact Nat.lt_succ_of_le hstands.length_le
  obtain ⟨m₁, hloop, hreach⟩ := bumpRest_reaches (B := B) hdoc _ hstands hrounds
  obtain ⟨m₂, hleave, hreach', -⟩ := hreach.leave sound hblanks
  rw [hloop]
  exact ⟨m₂, hleave, hreach'⟩

theorem skipRest_reaches (sound : B.Sound) (tells : Bool) (h : Stands k m s) :
    ∃ m', skipRest B doc tells m = .ok m' ∧
      Reaches B k m (leftover (if tells && !s.tooDeep then some .unexpectedToken else none) s) m' := by
  have hskip := h.skip hdoc
  have hbare := bare_skip hdoc m
  rw [skipRest, h.opensRule hdoc, ok_bind, leftover]
  dsimp only
  rw [hskip.ahead.atEnd hdoc hbare, hskip.tooDeep]
  rcases hrest : s.rest with _ | ⟨l, rest⟩
  · rw [if_pos (by cases k.later <;> rfl)]
    exact ⟨_, rfl, hskip, .nil _, rfl⟩
  · rw [if_neg (by simp)]
    dsimp only
    split
    · have hahead := hskip.ahead
      rw [hrest, List.cons_append] at hahead
      obtain ⟨hstands, hbare'⟩ := tell_stands hskip hbare (.of .unexpectedToken l.span)
      have hrest' : (s.tell (.of .unexpectedToken l.span)).rest = l :: rest := (State.rest_report _ _ _).trans hrest
      obtain ⟨m', hwrapped, hreach⟩ := bumpRest_wrapped hdoc sound hstands hbare' hrest'
      rw [error_eq hdoc hahead hbare]
      have hreach := hreach.of_tell
      exact ⟨m', hwrapped, hreach.stands, hreach.places, hreach.depth⟩
    · obtain ⟨m', hwrapped, hreach⟩ := bumpRest_wrapped hdoc sound hskip hbare hrest
      exact ⟨m', hwrapped, hreach.stands, hreach.places, hreach.depth⟩

/-- A chunk begins with a token of any kind, in the first column or not. --/
theorem open_reaches (kind : NodeKind) (hahead : Ahead k.tokens m (l :: (rest ++ k.later)) k.trailing stop)
    (hbare : Bare k.tokens m) (hinside : ∀ l ∈ rest, l.opensLine = false) (hbeyond : ∀ l ∈ k.later.head?, l.opensLine = true)
    (hrest : s.rest = l :: rest) (htooDeep : m.tooDeep = s.tooDeep) (hreported : m.reported = s.reported)
    (hdiagnostics : m.diagnostics = k.told ++ s.diagnostics) :
    B.Places s.blanks.1 m.builder (drain B m).builder ∧ ∃ m', bump B doc (enter B kind m) = .ok m' ∧
      Reaches B k (enter B kind m) s.blanks.2.take m' ∧ ∀ s', Near k m' s' := by
  obtain ⟨hblanks, hdrained⟩ := hahead.drain (B := B) hbare
  have hentered : Ahead k.tokens (enter B kind m) ({ l with leading := [] } :: (rest ++ k.later)) k.trailing stop :=
    ⟨hdrained.le, hdrained.view, hdrained.last⟩
  obtain ⟨b, hplaces, hbump, hahead', hopens⟩ := hentered.bump (B := B) hdoc hbare
  rw [State.blanks_cons hrest]
  exact ⟨hblanks, _, hbump, ⟨⟨hahead', hinside, hbeyond, htooDeep, hreported, hdiagnostics⟩, hplaces, rfl⟩,
    fun _ => ⟨rfl, fun _ => hopens⟩⟩

section
variable (sound : B.Sound) {c : Chunk} {σ : Scope}
  (hahead : Ahead k.tokens m (c.lexemes ++ k.later) k.trailing stop) (hbare : Bare k.tokens m)
  (hinside : ∀ l ∈ c.tail, l.opensLine = false) (hbeyond : ∀ l ∈ k.later.head?, l.opensLine = true)
  (hdiagnostics : m.diagnostics = k.told)
include sound hahead hbare hinside hbeyond hdiagnostics

theorem rule_reaches (hlimit : σ.limit = doc.limit)
    (hnext : σ.next = (k.later.head?.map Lexeme.start).getD doc.stop) (hdepth : m.depth = 0) :
    ∃ m', rule B doc m = .ok m' ∧ Reaches B k m ((front m.reported c).blanks.1 ++
      (Parser.rule σ (front m.reported c).blanks.2).1, (Parser.rule σ (front m.reported c).blanks.2).2) m' := by
  have hahead₀ : Ahead k.tokens { m with tooDeep := false } (c.head :: (c.tail ++ k.later)) k.trailing stop :=
    ⟨hahead.le, hahead.view, hahead.last⟩
  have hdiagnostics₀ : m.diagnostics = k.told ++ (front m.reported c).diagnostics :=
    hdiagnostics.trans (List.append_nil _).symm
  obtain ⟨hblanks, m₁, hname, hreach₁, near₁⟩ := open_reaches (B := B) (s := front m.reported c) hdoc .rule hahead₀ hbare
    hinside hbeyond rfl rfl rfl hdiagnostics₀
  rw [rule, hname, ok_bind, hreach₁.stands.continues hdoc, ok_bind, Parser.rule]
  dsimp only
  generalize (front m.reported c).blanks.2.take = named at hreach₁ near₁
  cases hsees : named.2.sees TokenKind.isDefinedAs
  · let missing := Diagnostic.of .expectedDefinedAs (.empty named.2.lastStop)
    have hskip := hreach₁.stands.skip hdoc
    obtain ⟨m₂, hrest, hreach₂⟩ := skipRest_reaches (B := B) hdoc sound false (hskip.report missing.span.start missing)
    have hrest : skipRest B doc false (tell missing (skip doc m₁)) = .ok m₂ := hrest
    have hreach₂ : Reaches B k (tell missing (skip doc m₁)) (leftover none (named.2.tell missing)) m₂ := hreach₂
    have hreach₂ := hreach₂.of_tell
    have hreach₂ : Reaches B k m₁ (leftover none (named.2.tell missing)) m₂ :=
      ⟨hreach₂.stands, hreach₂.places, hreach₂.depth⟩
    obtain ⟨m₃, hleave, hreach₃, -⟩ := (hreach₁.trans hreach₂).leave sound hblanks
    rw [if_neg Bool.false_ne_true, if_neg Bool.false_ne_true, hskip.ahead.afterLast hdoc, ok_bind]
    dsimp only
    rw [hrest]
    exact ⟨m₃, hleave, hreach₃.stands, hreach₃.places, hreach₃.depth⟩
  · obtain ⟨sign, rest, hrest, -⟩ := State.exists_of_sees hsees
    obtain ⟨m₂, hbump, hreach₂, near₂⟩ :=
      bump_reaches (B := B) hdoc (hreach₁.stands.skip hdoc) (bare_skip hdoc m₁) hrest
    have plays := plays_element (B := B) hdoc sound hlimit hnext doc.limit doc.limit 0 (Nat.le_refl _) (Nat.zero_add _)
    have hdepth₂ : m₂.depth = 0 := hreach₂.depth.trans (hreach₁.depth.trans hdepth)
    obtain ⟨m₃, hbody, hreach₃⟩ := alternation_reaches hdoc plays sound (keeps_element σ doc.limit)
      (progresses_element σ doc.limit) hreach₂.stands hdepth₂ (near₂ named.2).buffer
    obtain ⟨m₄, hrest, hreach₄⟩ := skipRest_reaches (B := B) hdoc sound true hreach₃.stands
    have hreach₂ : Reaches B k m₁ named.2.take m₂ := ⟨hreach₂.stands, hreach₂.places, hreach₂.depth⟩
    have hreach := ((hreach₁.trans hreach₂).trans hreach₃).trans hreach₄
    obtain ⟨m₅, hleave, hreach₅, -⟩ := hreach.leave sound hblanks
    have hkind : ∀ deep : Bool, (if true && !deep then some Diagnostic.Kind.unexpectedToken else none) =
        if deep then none else some .unexpectedToken := by decide
    rw [hkind, ← hlimit] at hreach₅
    rw [if_pos rfl, if_pos rfl, hbump, ok_bind, hbody, ok_bind, hrest]
    exact ⟨m₅, hleave, hreach₅.stands, hreach₅.places, hreach₅.depth⟩

/-- Brackets nested too deep in the rule before make no difference to tokens that are no rule. --/
theorem errorUntilRule_reaches :
    ∃ m', errorUntilRule B doc .expectedRuleName m = .ok m' ∧
      Reaches B k m (leftover (some .expectedRuleName) { front m.reported c with tooDeep := m.tooDeep }) m' := by
  let missing := Diagnostic.of .expectedRuleName c.head.span
  let s := ({ front m.reported c with tooDeep := m.tooDeep } : Parser.State).tell missing
  have hrest : s.rest = c.head :: c.tail := State.rest_report _ _ _
  have hahead₀ : Ahead k.tokens (tell missing m) (c.head :: (c.tail ++ k.later)) k.trailing stop :=
    hahead.report _ _
  have hbare₀ : Bare k.tokens (tell missing m) := by rwa [Bare, tell, position_report]
  have htold : (tell missing m).tooDeep = s.tooDeep ∧ (tell missing m).reported = s.reported ∧
      (tell missing m).diagnostics = k.told ++ s.diagnostics := by
    dsimp only [s, tell, report, Parser.State.tell, Parser.State.report, front]
    rw [← hdiagnostics]
    split
    · exact ⟨rfl, rfl, (List.append_nil _).symm⟩
    · exact ⟨rfl, rfl, rfl⟩
  obtain ⟨hblanks, m₁, hfirst, hreach₁, -⟩ := open_reaches (B := B) hdoc .error hahead₀ hbare₀ hinside hbeyond hrest
    htold.1 htold.2.1 htold.2.2
  have hrounds : s.blanks.2.take.2.rest.length < rounds doc := by
    rw [rounds, hdoc, Token.length_spans]
    exact Nat.lt_succ_of_le hreach₁.stands.length_le
  obtain ⟨m₂, hloop, hreach₂⟩ := bumpRest_reaches (B := B) hdoc _ hreach₁.stands hrounds
  obtain ⟨m₃, hleave, hreach₃, -⟩ := (hreach₁.trans hreach₂).leave sound hblanks
  have hreach₃ := hreach₃.of_tell
  have hend : atEnd doc m = false := hahead.atEnd hdoc hbare
  rw [errorUntilRule, skip_of_bare hdoc hbare, hend, if_neg Bool.false_ne_true, error_eq hdoc hahead hbare, hfirst, ok_bind,
    hloop]
  have hrest' : s.blanks.2.rest = { c.head with leading := [] } :: c.tail := by rw [State.blanks_cons hrest]; rfl
  have hleft : leftover (some .expectedRuleName) { front m.reported c with tooDeep := m.tooDeep } =
      (s.blanks.1 ++ [.node .error s.blanks.2.takeAll.1], s.blanks.2.takeAll.2) := rfl
  rw [State.takeAll_cons hrest'] at hleft
  rw [hleft]
  exact ⟨m₃, hleave, hreach₃⟩

end

end

/-- Whether brackets were nested too deep in the rule before does not show. --/
theorem leftover_front (tooDeep : Bool) (reported : Option Nat) (c : Chunk) :
    leftover (some .expectedRuleName) { front reported c with tooDeep } =
      ((leftover (some .expectedRuleName) (front reported c)).1,
        { (leftover (some .expectedRuleName) (front reported c)).2 with tooDeep }) := by
  dsimp only [leftover, front, Chunk.lexemes, Parser.State.tell, Parser.State.report]
  split <;> rfl

/-- Behind a chunk, with its trees made and its faults told of. --/
structure Behind (B : Builder β μ) (k : Site) (m : State β) (x : List Tree × Parser.State) (m' : State β) : Prop where
  ahead : ∃ stop, Ahead k.tokens m' k.later k.trailing stop
  places : B.Places x.1 m.builder m'.builder
  depth : m'.depth = m.depth
  reported : m'.reported = x.2.reported
  diagnostics : m'.diagnostics = k.told ++ x.2.diagnostics

theorem Reaches.behind (h : Reaches B k m x m') (hrest : x.2.rest = []) : Behind B k m x m' where
  ahead := by
    have hahead := h.stands.ahead
    rw [hrest, List.nil_append] at hahead
    exact ⟨_, hahead⟩
  places := h.places
  depth := h.depth
  reported := h.stands.reported
  diagnostics := h.stands.diagnostics

/-- One round of the loop over rules reads one chunk. --/
theorem chunk_reaches (hdoc : doc.tokens = Token.spans 0 k.tokens) (sound : B.Sound) {c : Chunk} {σ : Scope}
    (hahead : Ahead k.tokens m (c.lexemes ++ k.later) k.trailing stop) (hbare : Bare k.tokens m)
    (hinside : ∀ l ∈ c.tail, l.opensLine = false) (hbeyond : ∀ l ∈ k.later.head?, l.opensLine = true)
    (hdiagnostics : m.diagnostics = k.told) (hlimit : σ.limit = doc.limit)
    (hnext : σ.next = (k.later.head?.map Lexeme.start).getD doc.stop) (hdepth : m.depth = 0) :
    ∃ m', (if here doc (· == .ruleName) m then rule B doc m else errorUntilRule B doc .expectedRuleName m) = .ok m' ∧
      Behind B k m (chunk σ m.reported c) m' := by
  have hhere : here doc (· == .ruleName) m = (c.head.kind == .ruleName) := hahead.here hdoc hbare _
  rw [hhere, chunk_eq]
  dsimp only
  by_cases hname : c.head.kind = .ruleName
  · obtain ⟨m', hrule, hreach⟩ :=
      rule_reaches hdoc sound hahead hbare hinside hbeyond hdiagnostics hlimit hnext hdepth
    rw [if_pos (beq_iff_eq.mpr hname), if_pos hname, hrule]
    exact ⟨m', rfl, hreach.behind (rest_rule σ _)⟩
  · obtain ⟨m', herror, hreach⟩ := errorUntilRule_reaches hdoc sound hahead hbare hinside hbeyond hdiagnostics
    rw [if_neg (by rwa [beq_iff_eq]), if_neg hname, herror]
    have hbehind := hreach.behind (rest_leftover _ _)
    rw [leftover_front] at hbehind
    exact ⟨m', rfl, hbehind.ahead, hbehind.places, hbehind.depth, hbehind.reported, hbehind.diagnostics⟩

theorem rules_reaches (hdoc : doc.tokens = Token.spans 0 ts) (sound : B.Sound) : ∀ (cs : List Chunk) (fuel : Nat)
    {m : State β} {stop : Nat}, Ahead ts m (cs.flatMap Chunk.lexemes) trailing stop →
    (∀ c ∈ cs, ∀ l ∈ c.tail, l.opensLine = false) → (∀ c ∈ cs.tail, c.head.opensLine = true) → m.depth = 0 →
    cs.length < fuel →
    ∃ m', rules B doc fuel m = .ok m' ∧ (∃ stop, Ahead ts m' [] trailing stop) ∧ Bare ts m' ∧
      B.Places (document doc.limit doc.stop m.reported cs).1 m.builder m'.builder ∧
      m'.diagnostics = m.diagnostics ++ (document doc.limit doc.stop m.reported cs).2
  | [], fuel + 1, m, stop, hahead, _, _, _, _ => by
    have hskip := hahead.skip hdoc
    have hbare := bare_skip hdoc m
    rw [rules, hskip.atEnd hdoc hbare]
    exact ⟨_, rfl, ⟨_, hskip⟩, hbare, .nil _, (List.append_nil _).symm⟩
  | c :: cs, fuel + 1, m, stop, hahead, htails, hheads, hdepth, hfuel => by
    let next := (cs.head?.map fun c => c.head.start).getD doc.stop
    let k : Site := ⟨ts, cs.flatMap Chunk.lexemes, trailing, m.diagnostics⟩
    have hskip := hahead.skip hdoc
    have hbare := bare_skip hdoc m
    obtain ⟨hinside, htails⟩ := List.forall_mem_cons.mp htails
    have hhead : k.later.head? = cs.head?.map Chunk.head := by cases cs <;> rfl
    have hbeyond : ∀ l ∈ k.later.head?, l.opensLine = true := by
      intro l hl
      rw [hhead] at hl
      obtain ⟨c', hc', rfl⟩ := Option.map_eq_some_iff.mp hl
      exact hheads c' (List.mem_of_head? hc')
    have hnext : next = (k.later.head?.map Lexeme.start).getD doc.stop := by
      rw [hhead, Option.map_map]
      rfl
    obtain ⟨m₁, hround, hbehind⟩ := chunk_reaches (B := B) (k := k) (σ := ⟨doc.limit, next⟩) hdoc sound hskip hbare hinside
      hbeyond rfl rfl hnext hdepth
    obtain ⟨stop₁, hahead₁⟩ := hbehind.ahead
    obtain ⟨m₂, hloop, hend, hbare₂, hplaces, hdiagnostics⟩ := rules_reaches hdoc sound cs fuel hahead₁ htails
      (fun c hc => hheads c (List.mem_of_mem_tail hc)) (hbehind.depth.trans hdepth) (Nat.lt_of_succ_lt_succ hfuel)
    rw [hbehind.reported] at hplaces hdiagnostics
    refine ⟨m₂, ?_, hend, hbare₂, hbehind.places.append hplaces, ?_⟩
    · have hmore : atEnd doc (skip doc m) = false := hskip.atEnd hdoc hbare
      rw [rules, hmore, if_neg Bool.false_ne_true]
      split at hround
      · rename_i hname
        rw [if_pos hname, hround]
        exact hloop
      · rename_i hname
        rw [if_neg hname, hround]
        exact hloop
    · rw [hdiagnostics, hbehind.diagnostics, List.append_assoc]
      rfl

/-- The machine reads every document, and comes to no fault. --/
theorem parse_eq (sound : B.Sound) (source : String) (limit : Nat) : parse B source limit = .ok (Abnf.parse source limit) := by
  let ts := tokenize source
  let doc : Input := ⟨Token.spans 0 ts, source.utf8ByteSize, limit⟩
  let start : State β :=
    { position := 0, buffer := [], builder := B.empty, depth := 0, tooDeep := false, reported := none, diagnostics := [] }
  have hahead : Ahead ts (enter B .root start) ((chunks (lexemes ts).1).flatMap Chunk.lexemes) (lexemes ts).2 0 := by
    rw [flatMap_chunks]
    exact ⟨Nat.zero_le _, rfl, rfl⟩
  have hrounds : (chunks (lexemes ts).1).length < rounds doc := by
    rw [rounds, Token.length_spans]
    exact Nat.lt_succ_of_le (Nat.le_trans (length_chunks _) (length_lexemesFrom ts 0 [] true))
  obtain ⟨m₁, hloop, ⟨stop, hend⟩, hbare, hplaces, hdiagnostics⟩ := rules_reaches (show doc.tokens = _ from rfl) sound _ (rounds doc) hahead
    (tails_chunks _) (cut_iff.mpr rfl).heads rfl hrounds
  -- The trivia at the end of the document is still in the buffer.
  have htrailing := Builder.places_leaves (B := B) m₁.buffer m₁.builder
  rw [(hend.nil hbare).2] at htrailing
  have hall := hplaces.append htrailing
  obtain ⟨b, hleave⟩ := sound.leave hall
  have hfinish := sound.finish (hall.node hleave)
  rw [parse, hloop, ok_bind, leave, drain, (hend.nil hbare).2]
  dsimp only
  rw [hleave, ok_bind]
  change (do return (⟨← B.finish b, m₁.diagnostics⟩ : Parse)) = _
  rw [hfinish, hdiagnostics]
  rfl

end Parser.Machine

/-- Reading is total and loses nothing. The tokens of a source are not empty and cover it, each stands where the one
    before it ends, garbage is in one piece, and no line ends inside a token. With any sound builder the machine reads
    them to the end, at any limit and without a fault, into a single tree with just these tokens as its leaves. --/
theorem parse_lossless {β μ : Type} (B : Builder β μ) (sound : B.Sound) (source : String) (limit : Nat) :
    Token.Cover source 0 (Token.spans 0 (tokenize source)) ∧ List.IsChain Token.Apart (tokenize source) ∧
      (∀ t ∈ tokenize source, t.Lined) ∧ Parser.Machine.parse B source limit = .ok (parse source limit) ∧
      ∃ children, (parse source limit).tree = .node .root children ∧ Tree.forestTokens children = tokenize source ∧
        String.join ((Tree.forestTokens children).map Token.text) = source := by
  have hleaves := tokens_parse source limit
  obtain ⟨children, htree⟩ : ∃ children, (parse source limit).tree = .node .root children := ⟨_, rfl⟩
  rw [htree, Tree.tokens] at hleaves
  refine ⟨covers_tokenize source, isChain_tokenize source, fun t => lined_of_mem_tokenize,
    Parser.Machine.parse_eq sound source limit, children, htree, hleaves, ?_⟩
  rw [hleaves, join_tokenize]

theorem parse_lossless_stack : Builder.stack.Sound ∧
    Parser.Machine.parse Builder.stack "a = (b\n= c\n" 1 = .ok (parse "a = (b\n= c\n" 1) :=
  ⟨Builder.sound_stack, (parse_lossless Builder.stack Builder.sound_stack "a = (b\n= c\n" 1).2.2.2.1⟩

end Abnf
