import Abnf.Proofs.Compile.Likeness
import Abnf.Proofs.Compile.Meaning
import Mathlib.Data.List.Chain

/-! Layout does not change meaning. Blanks, comments and line ends mean nothing but for two things: a token in the first
    column begins a rule, and a repeat touches what it repeats. A source with other trivia is therefore compiled to the
    same grammar as long as the same tokens stand in the first column and nothing comes behind the parts of a repeat
    (`compile_layout`). -/

namespace Abnf

/-- What matters of a source: the tokens that are no trivia, and which of them stand in the first column. --/
def significant (source : String) : List (Token × Bool) :=
  (lexemes (tokenize source)).1.map fun l => (l.token, l.opensLine)

/-- Nothing that means nothing stands directly behind a number or the sign of a repeat. --/
def Touching (ts : List Token) : Prop :=
  ts.IsChain fun t u => t.kind.startsRepeat = true → u.kind.isTrivia = false

instance (ts : List Token) : Decidable (Touching ts) := inferInstanceAs (Decidable (List.IsChain _ ts))

/-- The same tokens, wherever they stand. --/
def Likeness.anywhere : Likeness where
  spelled := Eq
  placed _ _ := True
  refl _ := rfl
  sameName := @sameName_of_eq

/-- What matters of a lexeme: its token, and whether it stands in the first column. --/
def Lexeme.mark (l : Lexeme) : Token × Bool := (l.token, l.opensLine)

theorem Lexeme.like_of_mark {l l' : Lexeme} (h : l.mark = l'.mark) : l.Like .anywhere l' where
  kind := congrArg (fun m => m.1.kind) h
  text _ := congrArg (fun m => m.1.text) h
  name _ := show l.token.text = l'.token.text from congrArg (fun m => m.1.text) h
  span := ⟨trivial, trivial, Nat.le_add_right _ _⟩
  opensLine := congrArg Prod.snd h

theorem Slot.Like.eq {s s' : Slot} (h : s.Like .anywhere s') : s = s' := by
  cases s
  cases s'
  cases h.name
  cases h.root
  rfl

theorem Grammar.Like.eq {g g' : Grammar} (h : g.Like .anywhere g') : g = g' := by
  have hslots : g.slots.toList = g'.slots.toList := List.forall₂_eq_eq_eq ▸ h.slots.imp fun _ _ => Slot.Like.eq
  cases g
  cases g'
  cases h.name
  cases h.nodes
  cases h.firstSets
  cases Array.toList_inj.mp hslots
  rfl

/-- What touches among tokens touches among lexemes. --/
theorem Significant.touching {before ts : List Token} {ls : List Lexeme} (h : Significant before ts ls)
    (htouch : Touching ts) : ls.IsChain fun l m => l.kind.startsRepeat = true → m.leading = [] := by
  induction h with
  | nil => exact .nil
  | @cons before leading ts t ls _ _ hs ih =>
    have hchain : Touching (t :: ts) := htouch.right_of_append
    have hrest := ih hchain.tail
    cases hs with
    | nil => exact .singleton _
    | @cons _ blanks us u ls hblanks hu hs =>
      refine List.isChain_cons_cons.mpr ⟨fun hkind => ?_, hrest⟩
      cases blanks with
      | nil => rfl
      | cons b bs =>
        -- The first blank would stand right behind the part of a repeat.
        have hb : b.kind.isTrivia = false := (List.isChain_cons_cons.mp hchain).1 hkind
        rw [hblanks b List.mem_cons_self] at hb
        cases hb

/-- Lexemes among which repeats touch what they repeat are like the same ones with other trivia. --/
theorem Tiles.along_anywhere : ∀ {ls ls' : List Lexeme} {pos stop : Nat}, Tiles pos ls stop →
    List.Forall₂ (Lexeme.Like .anywhere) ls ls' →
    (ls'.IsChain fun l m => l.kind.startsRepeat = true → m.leading = []) → Along .anywhere ls ls'
  | [], _, _, _, _, .nil, _ => .nil
  | [_], _, _, _, _, .cons h .nil, _ => .single h
  | l :: m :: ls, _, _, _, ⟨_, _, htiles⟩, .cons h (.cons hm hs), htouch => by
    obtain ⟨hnext, hrest⟩ := List.isChain_cons_cons.mp htouch
    exact .cons h (htiles.1 ▸ Nat.le_add_right _ _) (fun hkind _ => hnext (h.kind ▸ hkind))
      (htiles.along_anywhere (.cons hm hs) hrest)

/-- Lexemes of the same marks, where repeats touch what they repeat. --/
theorem along_of_marks {ls ls' : List Lexeme} {pos stop : Nat} (htiles : Tiles pos ls stop)
    (h : ls.map Lexeme.mark = ls'.map Lexeme.mark)
    (htouch : ls'.IsChain fun l m => l.kind.startsRepeat = true → m.leading = []) : Along .anywhere ls ls' := by
  rw [← List.forall₂_eq_eq_eq, List.forall₂_map_left_iff, List.forall₂_map_right_iff] at h
  exact htiles.along_anywhere (h.imp fun _ _ => Lexeme.like_of_mark) htouch

/-- Layout does not change meaning. A source with the tokens of one that is compiled, the same of them in the first column
    and none of its repeats torn apart, is compiled to the same grammar. --/
theorem compile_layout {source source' : String} {o : CompileOptions} {c : Compilation} (h : compile source o = .ok c)
    (hsame : significant source = significant source') (htouch : Touching (tokenize source')) :
    ∃ c', compile source' o = .ok c' ∧ c'.grammar = c.grammar := by
  obtain ⟨stop, htiles⟩ := tiles_lexemes (tokenize source)
  have halong := along_of_marks htiles hsame ((significant_lexemes _).touching htouch)
  have hcompiled := compile_along o halong (quiet_of_read (read_of_compile h))
  rw [h] at hcompiled
  generalize compile source' o = x at hcompiled ⊢
  cases hcompiled with
  | ok hc => exact ⟨_, rfl, hc.1.eq.symm⟩

/-- A rule over several lines with comments, and on one line with other blanks. --/
theorem compile_layout_listing :
    let source := "list = 1*2( \"a\" / b ) ; two\r\n   c\r\n\r\nb = %x41-5A\r\nlist =/ 3b\r\n"
    let source' := "; letters\nlist=1*2(\"a\"/b)c\nb\t= ; large\n %x41-5A\nlist =/\n  3b"
    let o : CompileOptions := { allowIncomplete := true }
    significant source = significant source' ∧ Touching (tokenize source') ∧
      ∃ c c', compile source o = .ok c ∧ compile source' o = .ok c' ∧ c'.grammar = c.grammar := by
  intro source source' o
  have hsame : significant source = significant source' := by decide +kernel
  have htouch : Touching (tokenize source') := by decide +kernel
  have hok : (compile source o).toOption.isSome := by decide +kernel
  refine ⟨hsame, htouch, ?_⟩
  cases hc : compile source o with
  | error ds =>
    rw [hc] at hok
    cases hok
  | ok c =>
    obtain ⟨c', hc', hgrammar⟩ := compile_layout hc hsame htouch
    exact ⟨c, c', rfl, hc', hgrammar⟩

end Abnf
