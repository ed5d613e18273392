import Abnf.Proofs.Document.Tokens
import Abnf.Text.Case
import Mathlib.Data.List.Forall2
import Mathlib.Data.String.Basic

/-! Letter case and tokens. Every class of characters that the lexer knows takes in a letter in both cases or in none, so a
    source whose letters are written in another case is cut in the same places, into tokens of the same kinds
    (`tokenize_letters`). -/

namespace Abnf

/-- The same character, but perhaps the other case of a letter. --/
def SameLetter (c d : Char) : Prop := c.toLower = d.toLower

/-- Texts of the same characters but for the case of letters. --/
def SameLetters (a b : List Char) : Prop := List.Forall₂ SameLetter a b

/-! ### Characters -/

/-- Beyond ASCII no character has another case. --/
theorem toLower_eq_self {c : Char} (hc : 128 ≤ c.toNat) : c.toLower = c := by
  have hupper : ¬(c.val ≥ 'A'.val ∧ c.val ≤ 'Z'.val) := fun h =>
    Nat.not_lt_of_le hc (Nat.lt_of_le_of_lt h.2 (by decide))
  exact dif_neg hupper

/-- What does not depend on the case of an ASCII letter does not depend on letter case. --/
theorem SameLetter.congr {α : Type} {f : Char → α} (hf : ∀ n < 128, f (Char.ofNat n).toLower = f (Char.ofNat n)) {c d : Char}
    (h : SameLetter c d) : f c = f d := by
  have hfold : ∀ c : Char, f c.toLower = f c := by
    intro c
    by_cases hc : c.toNat < 128
    · have hascii := hf c.toNat hc
      rwa [Char.ofNat_toNat] at hascii
    · rw [toLower_eq_self (Nat.le_of_not_lt hc)]
  rw [← hfold c, h, hfold d]

/-- The other case of a letter is no other character. --/
theorem SameLetter.beq {c d : Char} (h : SameLetter c d) {x : Char}
    (hx : ∀ n < 128, ((Char.ofNat n).toLower == x) = (Char.ofNat n == x)) : (c == x) = (d == x) := h.congr (f := (· == x)) hx

theorem SameLetter.utf8Size_eq {c d : Char} (h : SameLetter c d) : c.utf8Size = d.utf8Size := h.congr (by decide)

namespace Lexer

section
variable {cs ds : List Char} (h : SameLetters cs ds)
include h

theorem run_letters {p : Char → Bool} (hp : ∀ n < 128, p (Char.ofNat n).toLower = p (Char.ofNat n)) : run p cs = run p ds := by
  rw [run, run]
  induction h with
  | nil => rfl
  | cons hc _ ih =>
    rw [List.takeWhile_cons, List.takeWhile_cons, hc.congr hp]
    split
    · exact congrArg Nat.succ ih
    · rfl

/-- The next character is the same if it is no letter. --/
theorem head?_letters {x : Char} (hx : ∀ n < 128, ((Char.ofNat n).toLower == x) = (Char.ofNat n == x)) :
    cs.head? = some x ↔ ds.head? = some x := by
  cases h with
  | nil => exact Iff.rfl
  | cons hc _ =>
    rw [List.head?_cons, List.head?_cons, Option.some_inj, Option.some_inj, ← beq_iff_eq, hc.beq hx, beq_iff_eq]

theorem quoted_letters : quoted cs = quoted ds := by
  have hrun := run_letters h (p := isQuoted) (by decide)
  have hquote : (cs.drop (run isQuoted ds)).head? = some '"' ↔ (ds.drop (run isQuoted ds)).head? = some '"' :=
    head?_letters (List.forall₂_drop _ h) (by decide)
  simp only [quoted, hrun, hquote]

theorem prose_letters : prose cs = prose ds := by
  have hrun := run_letters h (p := isProse) (by decide)
  have hbracket : (cs.drop (run isProse ds)).head? = some '>' ↔ (ds.drop (run isProse ds)).head? = some '>' :=
    head?_letters (List.forall₂_drop _ h) (by decide)
  simp only [prose, hrun, hbracket]

theorem percent_letters : percent cs = percent ds := by
  cases h with
  | nil => rfl
  | @cons c d cs ds hc hcs =>
    rw [percent.eq_def, percent.eq_def (d :: ds)]
    dsimp only
    rw [hc.congr (f := isCaseMark) (by decide), hc.congr (f := isBaseMark) (by decide),
      run_letters hcs (p := isNumChar) (by decide)]
    cases hcs with
    | nil => rfl
    | @cons a b cs ds ha hcs =>
      have hquote : a = '"' ↔ b = '"' := by rw [← beq_iff_eq, ha.beq (by decide), beq_iff_eq]
      by_cases hb : b = '"'
      · obtain rfl := hquote.mpr hb
        subst hb
        simp only [quoted_letters hcs]
      · simp [hb, hquote.not.mpr hb]

/-- The token at the front is of the same kind and the same length. --/
theorem front_letters {c d : Char} (hc : SameLetter c d) : front c cs = front d ds := by
  have hslash : cs.head? = some '/' ↔ ds.head? = some '/' := head?_letters h (by decide)
  have hnewline : cs.head? = some '\n' ↔ ds.head? = some '\n' := head?_letters h (by decide)
  simp only [front, hslash, hnewline]
  rw [hc.beq (x := '(') (by decide), hc.beq (x := ')') (by decide), hc.beq (x := '[') (by decide),
    hc.beq (x := ']') (by decide), hc.beq (x := '=') (by decide), hc.beq (x := '/') (by decide),
    hc.beq (x := '*') (by decide), hc.beq (x := '#') (by decide), hc.congr (f := Char.isDigit) (by decide),
    hc.congr (f := Char.isAlpha) (by decide), hc.beq (x := '"') (by decide), hc.beq (x := '%') (by decide),
    hc.beq (x := '<') (by decide), hc.congr (f := isBlank) (by decide), hc.beq (x := '\n') (by decide),
    hc.beq (x := '\r') (by decide), hc.beq (x := ';') (by decide), run_letters h (p := Char.isDigit) (by decide),
    run_letters h (p := isNameChar) (by decide), quoted_letters h, percent_letters h, prose_letters h,
    run_letters h (p := isBlank) (by decide), run_letters h (p := fun d => !isLineEnd d) (by decide)]

end
end Lexer

/-! ### Tokens -/

/-- Tokens of one kind, of the same characters but for the case of letters. --/
structure Token.SameLetters (t u : Token) : Prop where
  kind : t.kind = u.kind
  text : Abnf.SameLetters t.text.toList u.text.toList

namespace Lexer

theorem pieces_letters {cs : List Char} : ∀ {ds : List Char}, SameLetters cs ds →
    List.Forall₂ Token.SameLetters (pieces cs) (pieces ds) := by
  induction cs using pieces.induct with
  | case1 =>
    intro ds h
    cases h
    rw [pieces]
    exact .nil
  | case2 c cs ih =>
    intro ds h
    cases h with
    | @cons _ d _ ds hc hcs =>
      have hfront := front_letters hcs hc
      rw [pieces, pieces, ← hfront]
      refine .cons ⟨rfl, ?_⟩ (ih (List.forall₂_drop _ hcs))
      rw [String.toList_ofList, String.toList_ofList]
      exact .cons hc (List.forall₂_take _ hcs)

theorem mergeGarbage_letters {ts us : List Token} (h : List.Forall₂ Token.SameLetters ts us) :
    List.Forall₂ Token.SameLetters (mergeGarbage ts) (mergeGarbage us) := by
  induction h with
  | nil => exact .nil
  | cons ht _ ih =>
    rw [mergeGarbage, mergeGarbage]
    generalize mergeGarbage _ = ts at ih ⊢
    generalize mergeGarbage _ = us at ih ⊢
    cases ih with
    | nil => exact .cons ht .nil
    | cons hu hus =>
      dsimp only
      rw [ht.kind, hu.kind]
      split
      · refine .cons ⟨rfl, ?_⟩ hus
        rw [String.toList_append, String.toList_append]
        exact List.rel_append ht.text hu.text
      · exact .cons ht (.cons hu hus)

end Lexer

theorem tokenize_letters {source source' : String} (h : SameLetters source.toList source'.toList) :
    List.Forall₂ Token.SameLetters (tokenize source) (tokenize source') :=
  Lexer.mergeGarbage_letters (Lexer.pieces_letters h)

/-! ### Names in other spellings -/

/-- The same token, or a name of which letters are in another case. --/
structure Token.Respelled (t u : Token) : Prop where
  kind : t.kind = u.kind
  name : t.kind = .ruleName → Abnf.SameLetters t.text.toList u.text.toList
  text : t.kind ≠ .ruleName → t.text = u.text

/-- A source in which names are perhaps spelled in other cases. Nothing is said of how the new text is cut into tokens. --/
def Respelled (source source' : String) : Prop :=
  ∃ us, List.Forall₂ Token.Respelled (tokenize source) us ∧ source' = String.join (us.map Token.text)

/-- Two spellings are of one name just if their letters differ in case at most. --/
theorem sameName_iff_letters {a b : String} : sameName a b = true ↔ SameLetters a.toList b.toList := by
  rw [sameName, beq_iff_eq, ← String.toList_inj, foldCase, foldCase, String.toList_map, String.toList_map,
    ← List.forall₂_eq_eq_eq, List.forall₂_map_left_iff, List.forall₂_map_right_iff]
  exact Iff.rfl

instance (c d : Char) : Decidable (SameLetter c d) := inferInstanceAs (Decidable (_ = _))

instance (a b : List Char) : Decidable (SameLetters a b) := inferInstanceAs (Decidable (List.Forall₂ SameLetter a b))

instance (t u : Token) : Decidable (t.Respelled u) :=
  decidable_of_iff (t.kind = u.kind ∧ (t.kind = .ruleName → SameLetters t.text.toList u.text.toList) ∧
      (t.kind ≠ .ruleName → t.text.toList = u.text.toList))
    ⟨fun h => ⟨h.1, h.2.1, fun hk => String.toList_inj.mp (h.2.2 hk)⟩,
      fun h => ⟨h.kind, h.name, fun hk => String.toList_inj.mpr (h.text hk)⟩⟩

theorem SameLetters.refl (a : List Char) : SameLetters a a := List.forall₂_same.mpr fun _ _ => rfl

theorem Token.Respelled.letters {t u : Token} (h : t.Respelled u) : t.SameLetters u := by
  refine ⟨h.kind, ?_⟩
  by_cases hkind : t.kind = .ruleName
  · exact h.name hkind
  · rw [h.text hkind]
    exact .refl _

theorem SameLetters.utf8ByteSize_eq {a b : String} (h : SameLetters a.toList b.toList) :
    a.utf8ByteSize = b.utf8ByteSize := by
  have hlen : ∀ {cs ds : List Char}, SameLetters cs ds → String.utf8Len cs = String.utf8Len ds := by
    intro cs ds h
    induction h with
    | nil => rfl
    | cons hc _ ih => rw [String.utf8Len_cons, String.utf8Len_cons, ih, hc.utf8Size_eq]
  rw [← String.ofList_toList (s := a), ← String.ofList_toList (s := b), String.utf8ByteSize_ofList,
    String.utf8ByteSize_ofList, hlen h]

theorem forall₂_both {α : Type} {R : α → α → Prop} {xs ys : List α} (h : List.Forall₂ R xs ys) :
    ∀ {zs : List α}, List.Forall₂ R xs zs → List.Forall₂ (fun y z => ∃ x, R x y ∧ R x z) ys zs := by
  induction h with
  | nil =>
    rintro _ ⟨⟩
    exact .nil
  | cons hxy _ ih =>
    rintro _ (_ | ⟨hxz, hs⟩)
    exact .cons ⟨_, hxy, hxz⟩ (ih hs)

/-- Tokens of the same kinds and lengths make up the same text in one way. --/
theorem eq_of_flatMap {ts us : List Token} (h : List.Forall₂ (fun t u : Token => t.kind = u.kind ∧
      t.text.toList.length = u.text.toList.length) ts us) :
    ts.flatMap (·.text.toList) = us.flatMap (·.text.toList) → ts = us := by
  induction h with
  | nil => exact fun _ => rfl
  | @cons t u ts us hu _ ih =>
    intro heq
    rw [List.flatMap_cons, List.flatMap_cons] at heq
    obtain ⟨htext, hrest⟩ := List.append_inj heq hu.2
    obtain ⟨kind, text⟩ := t
    cases hu.1
    cases String.toList_inj.mp htext
    rw [ih hrest]

theorem Respelled.letters {source source' : String} (h : Respelled source source') :
    SameLetters source.toList source'.toList := by
  obtain ⟨us, hus, rfl⟩ := h
  rw [String.toList_join, List.flatMap_map, ← flatMap_tokenize source]
  exact List.rel_flatMap hus fun _ _ ht => ht.letters.text

/-- In another spelling the tokens are those that the old ones were turned into. --/
theorem Respelled.tokens {source source' : String} (h : Respelled source source') :
    List.Forall₂ Token.Respelled (tokenize source) (tokenize source') := by
  have hcut := tokenize_letters h.letters
  obtain ⟨us, hus, rfl⟩ := h
  have htext : us.flatMap (·.text.toList) = (tokenize (String.join (us.map Token.text))).flatMap (·.text.toList) := by
    rw [flatMap_tokenize, String.toList_join, List.flatMap_map]
  have hletters : List.Forall₂ Token.SameLetters (tokenize source) us := hus.imp fun _ _ => Token.Respelled.letters
  have heq : us = tokenize (String.join (us.map Token.text)) := by
    refine eq_of_flatMap ((forall₂_both hletters hcut).imp ?_) htext
    rintro u v ⟨t, hu, hv⟩
    exact ⟨hu.kind.symm.trans hv.kind, hu.text.length_eq.symm.trans hv.text.length_eq⟩
  rwa [← heq]

end Abnf
