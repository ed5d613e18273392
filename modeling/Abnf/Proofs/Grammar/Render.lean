import Abnf.Grammar.Render
import Abnf.Proofs.Document.Spelling
import Abnf.Proofs.Grammar.Pattern

/-! The texts of patterns. The text of a pattern is that of its marks (`chars_marks`), and if the pattern is clear the
    marks are what the text is cut into (`stand_marks`). Not all patterns are clear: a repetition right under a
    repetition runs together with it, and a literal that ignores case but cannot stand in quotes is written
    byte by byte, which tells cases apart. -/

namespace Abnf

namespace Pattern

variable {ρ : Type}

/-! ### Clear patterns -/

/-- How loosely a pattern binds: alternatives most, then sequences, then repeats. --/
def rank : Pattern ρ → Nat
  | choice _ => 3
  | sequence _ => 2
  | repetition _ min max => if min = 0 ∧ max = some 1 then 0 else 1
  | _ => 0

theorem needsBrackets_true (p : Pattern ρ) : p.needsBrackets true = decide (2 ≤ p.rank) := by
  cases p with
  | repetition p min max =>
    rw [rank]
    split <;> rfl
  | _ => rfl

theorem needsBrackets_false (p : Pattern ρ) : p.needsBrackets false = decide (3 ≤ p.rank) := by
  cases p with
  | repetition p min max =>
    rw [rank]
    split <;> rfl
  | _ => rfl

/-- Whether bytes can stand in quotes. --/
def quotable (bytes : List UInt8) : Bool := bytes.all fun b => Byte.isPrintable b && b != 0x22

/-- Whether no byte is a letter. --/
def caseless (bytes : List UInt8) : Bool := bytes.all fun b => Byte.lower b == b && Byte.upper b == b

mutual

/-- Whether the text of a pattern says what the pattern means. --/
def legible : Pattern ρ → Bool
  | literal bytes ignoreCase => !ignoreCase || quotable bytes || caseless bytes
  | sequence ps | choice ps => legibles ps
  | repetition p min max => (rank p != 1 || (min == 0 && max == some 1)) && legible p
  | fold p => legible p
  | charRange .. | ruleRef _ => true

def legibles : List (Pattern ρ) → Bool
  | [] => true
  | p :: ps => legible p && legibles ps

end

mutual

/-- A pattern whose text is that of an expression, and says what the pattern means. --/
def Clear (name : ρ → String) : Pattern ρ → Prop
  | literal bytes ignoreCase => ignoreCase = true → quotable bytes = true ∨ caseless bytes = true
  | charRange lo hi => lo ≤ hi ∧ hi ≤ maxCodePoint
  | sequence ps | choice ps => 2 ≤ ps.length ∧ ClearAll name ps
  | repetition p min max => (∀ m ∈ max, min ≤ m) ∧ (rank p = 1 → min = 0 ∧ max = some 1) ∧ Clear name p
  | ruleRef r => isName (name r) = true
  | fold p => Clear name p

def ClearAll (name : ρ → String) : List (Pattern ρ) → Prop
  | [] => True
  | p :: ps => Clear name p ∧ ClearAll name ps

end

/-! ### Marks -/

/-- Brackets around marks, if they are asked for. --/
def bracketMarks (b : Bool) (ms : Bool → List Mark) (spaced : Bool) : List Mark :=
  if b then ⟨spaced, .parenOpen, "("⟩ :: (ms false ++ [⟨false, .parenClose, ")"⟩]) else ms spaced

/-- The marks of what stands in front of a repeated element. --/
def boundsMarks (spaced : Bool) (min : UInt32) : Option UInt32 → List Mark
  | none =>
    if min = 0 then [⟨spaced, .star, "*"⟩] else [⟨spaced, .number, min.toNat.repr⟩, ⟨false, .star, "*"⟩]
  | some max =>
    if min = max then [⟨spaced, .number, min.toNat.repr⟩]
    else if min = 0 then [⟨spaced, .star, "*"⟩, ⟨false, .number, max.toNat.repr⟩]
    else [⟨spaced, .number, min.toNat.repr⟩, ⟨false, .star, "*"⟩, ⟨false, .number, max.toNat.repr⟩]

mutual

/-- The marks of a pattern's text, behind a blank or not. --/
def marks (name : ρ → String) : Pattern ρ → (spaced : Bool) → List Mark
  | literal bytes ignoreCase, spaced =>
    [⟨spaced, if quotable bytes then .charVal else .numVal, renderLiteral bytes ignoreCase⟩]
  | charRange lo hi, spaced => [⟨spaced, .numVal, renderRange lo hi⟩]
  | sequence ps, spaced => operandMarks name true [] [] ps spaced
  | choice ps, spaced => operandMarks name false [] [⟨true, .slash, "/"⟩] ps spaced
  | repetition p min max, spaced =>
    if min = 0 ∧ max = some 1 then
      ⟨spaced, .bracketOpen, "["⟩ :: (marks name p false ++ [⟨false, .bracketClose, "]"⟩])
    else boundsMarks spaced min max ++ bracketMarks (needsBrackets true p) (fun spaced => marks name p spaced) false
  | ruleRef r, spaced => [⟨spaced, .ruleName, name r⟩]
  | fold p, spaced => bracketMarks true (fun spaced => marks name p spaced) spaced

/-- The marks of operands: `front` stands before the first of them, `sep` before each of the others. --/
def operandMarks (name : ρ → String) (tight : Bool) (front sep : List Mark) :
    List (Pattern ρ) → (spaced : Bool) → List Mark
  | [], _ => []
  | p :: ps, spaced =>
    front ++ bracketMarks (needsBrackets tight p) (fun spaced => marks name p spaced) spaced ++
      operandMarks name tight sep sep ps true

end

section
variable (name : ρ → String)

theorem chars_bracketMarks {b : Bool} {ms : Bool → List Mark} {s : String}
    (h : ∀ spaced, (ms spaced).flatMap Mark.chars = Mark.space spaced ++ s.toList) (spaced : Bool) :
    (bracketMarks b ms spaced).flatMap Mark.chars = Mark.space spaced ++ (bracketIf b s).toList := by
  cases b with
  | false => exact h spaced
  | true =>
    rw [bracketMarks, if_pos rfl, List.flatMap_cons, List.flatMap_append, h, bracketIf, if_pos rfl,
      String.toList_append, String.toList_append, Mark.chars]
    simp only [List.append_assoc]
    rfl

theorem chars_boundsMarks (spaced : Bool) (min : UInt32) (max : Option UInt32) :
    (boundsMarks spaced min max).flatMap Mark.chars = Mark.space spaced ++ (renderBounds min max).toList := by
  have hone : ∀ (spaced : Bool) (kind : TokenKind) (s : String),
      (Mark.mk spaced ⟨kind, s⟩).chars = Mark.space spaced ++ s.toList := fun _ _ _ => rfl
  cases max with
  | none =>
    rw [boundsMarks, renderBounds]
    split
    · rw [List.flatMap_singleton, hone]
    · rw [List.flatMap_cons, List.flatMap_singleton, hone, hone, List.append_assoc]
      exact congrArg _ String.toList_append.symm
  | some max =>
    rw [boundsMarks, renderBounds]
    split
    · rw [List.flatMap_singleton, hone]
      rfl
    · split
      · rw [List.flatMap_cons, List.flatMap_singleton, hone, hone, List.append_assoc]
        exact congrArg _ String.toList_append.symm
      · rw [List.flatMap_cons, List.flatMap_cons, List.flatMap_singleton, hone, hone, hone, List.append_assoc]
        exact congrArg _ (String.toList_append.trans (by rw [String.toList_append, List.append_assoc]; rfl)).symm

mutual

/-- The text of a pattern is that of its marks. --/
theorem chars_marks : ∀ {p : Pattern ρ}, p.Clear name → ∀ spaced,
    (p.marks name spaced).flatMap Mark.chars = Mark.space spaced ++ (p.render name).toList
  | .literal .., _, _ | .charRange .., _, _ | .ruleRef _, _, _ => List.flatMap_singleton _ _
  | .sequence ps, h, spaced => by
    rw [marks, render, String.toList_intercalate]
    exact chars_operandMarks h.2 (List.length_pos_iff.mp (Nat.lt_of_succ_lt h.1)) spaced
  | .choice ps, h, spaced => by
    rw [marks, render, String.toList_intercalate]
    exact chars_operandMarks h.2 (List.length_pos_iff.mp (Nat.lt_of_succ_lt h.1)) spaced
  | .repetition p min max, h, spaced => by
    rw [marks, render]
    split
    · rw [List.flatMap_cons, List.flatMap_append, chars_marks h.2.2, String.toList_append, String.toList_append,
        Mark.chars]
      simp only [List.append_assoc]
      rfl
    · rw [List.flatMap_append, chars_boundsMarks, chars_bracketMarks (chars_marks h.2.2), String.toList_append,
        List.append_assoc]
      rfl
  | .fold p, h, spaced => by
    rw [marks, render]
    have hp : p.Clear name := h
    exact chars_bracketMarks (b := true) (chars_marks hp) spaced

theorem chars_operandMarks {tight : Bool} {front sep : List Mark} : ∀ {ps : List (Pattern ρ)}, ClearAll name ps → ps ≠ [] →
    ∀ spaced, (operandMarks name tight front sep ps spaced).flatMap Mark.chars =
      front.flatMap Mark.chars ++ (Mark.space spaced ++
        (sep.flatMap Mark.chars ++ [' ']).intercalate ((renderOperands name tight ps).map String.toList))
  | [], _, hne, _ => absurd rfl hne
  | [p], ⟨hp, _⟩, _, spaced => by
    rw [operandMarks, List.flatMap_append, List.flatMap_append, chars_bracketMarks (chars_marks hp), operandMarks]
    simp [renderOperands]
  | p :: q :: ps, ⟨hp, hps⟩, _, spaced => by
    rw [operandMarks, List.flatMap_append, List.flatMap_append, chars_bracketMarks (chars_marks hp),
      chars_operandMarks hps nofun]
    simp [renderOperands, List.intercalate_cons_cons, Mark.space]

end

end

/-! ### What the text is cut into -/

theorem forall_mem_intercalate {α : Type} {P : α → Prop} {sep : List α} (hsep : ∀ c ∈ sep, P c) :
    ∀ {xs : List (List α)}, (∀ x ∈ xs, ∀ c ∈ x, P c) → ∀ c ∈ sep.intercalate xs, P c
  | [], _ => nofun
  | [x], h => by
    rw [List.intercalate_singleton]
    exact h x List.mem_cons_self
  | x :: y :: xs, h => by
    obtain ⟨hx, hxs⟩ := List.forall_mem_cons.mp h
    rw [List.intercalate_cons_cons]
    exact List.forall_mem_append.mpr ⟨List.forall_mem_append.mpr ⟨hx, hsep⟩, forall_mem_intercalate hsep hxs⟩

theorem isNumChar_padded (n : Nat) : ∀ c ∈ (Hex.padded n).toList, Lexer.isNumChar c = true := by
  intro c hc
  rw [Lexer.isNumChar, Digits.isAlphanum_padded n c hc]
  rfl

theorem isQuoted_of_quotable {bytes : List UInt8} (h : quotable bytes = true) :
    ∀ c ∈ bytes.map fun b => Char.ofNat b.toNat, Lexer.isQuoted c = true := by
  intro c hc
  obtain ⟨b, hb, rfl⟩ := List.mem_map.mp hc
  have hall : ∀ n : Fin 256, (Byte.isPrintable (UInt8.ofNat n) && UInt8.ofNat n != 0x22) = true →
      Lexer.isQuoted (Char.ofNat n) = true := by decide +kernel
  refine hall ⟨b.toNat, b.toNat_lt⟩ ?_
  rw [UInt8.ofNat_toNat]
  exact List.all_eq_true.mp h b hb

theorem toList_renderLiteral_quoted {bytes : List UInt8} (h : quotable bytes = true) (ignoreCase : Bool) :
    (renderLiteral bytes ignoreCase).toList = (if ignoreCase then [] else ['%', 's']) ++
      '"' :: ((bytes.map fun b => Char.ofNat b.toNat) ++ ['"']) := by
  rw [show renderLiteral bytes ignoreCase = _ from if_pos h]
  cases ignoreCase <;> simp [String.toList_append, String.toList_ofList]

theorem toList_renderLiteral_numeric {bytes : List UInt8} (h : quotable bytes = false) (ignoreCase : Bool) :
    (renderLiteral bytes ignoreCase).toList =
      '%' :: 'x' :: ['.'].intercalate (bytes.map fun b => (Hex.padded b.toNat).toList) := by
  rw [show renderLiteral bytes ignoreCase = _ from if_neg (Bool.eq_false_iff.mp h), String.toList_append,
    String.toList_intercalate, List.map_map]
  rfl

theorem toList_renderRange (lo hi : UInt32) : (renderRange lo hi).toList =
    '%' :: 'x' :: if lo = hi then (Hex.padded lo.toNat).toList
      else (Hex.padded lo.toNat).toList ++ '-' :: (Hex.padded hi.toNat).toList := by
  rw [renderRange]
  split
  · rw [String.toList_append]
    rfl
  · rw [String.toList_append, String.toList_append, String.toList_append, List.append_assoc, List.append_assoc]
    rfl

section
variable {rest : List Char}

theorem stands_literal (h : Closes rest) (bytes : List UInt8) (ignoreCase : Bool) :
    (Token.mk (if quotable bytes then .charVal else .numVal) (renderLiteral bytes ignoreCase)).Stands rest := by
  cases hq : quotable bytes with
  | true =>
    have htext := toList_renderLiteral_quoted hq ignoreCase
    cases ignoreCase with
    | true => exact Token.stands_quoted (isQuoted_of_quotable hq) rest htext
    | false => exact Token.stands_exact (isQuoted_of_quotable hq) rest htext
  | false =>
    refine Token.stands_numVal (forall_mem_intercalate ?_ ?_) h.isNumChar (toList_renderLiteral_numeric hq ignoreCase)
    · exact List.forall_mem_singleton.mpr rfl
    · intro x hx
      obtain ⟨b, -, rfl⟩ := List.mem_map.mp hx
      exact isNumChar_padded b.toNat

theorem stands_range (h : Closes rest) (lo hi : UInt32) : (Token.mk .numVal (renderRange lo hi)).Stands rest := by
  refine Token.stands_numVal ?_ h.isNumChar (toList_renderRange lo hi)
  split
  · exact isNumChar_padded lo.toNat
  · exact List.forall_mem_append.mpr ⟨isNumChar_padded lo.toNat, List.forall_mem_cons.mpr ⟨rfl, isNumChar_padded hi.toNat⟩⟩

/-- The bounds stand in front of anything but a digit. --/
theorem stand_boundsMarks (h : ∀ c ∈ rest.head?, c.isDigit = false) (spaced : Bool) (min : UInt32) (max : Option UInt32) :
    Mark.Stand (boundsMarks spaced min max) rest := by
  have hstar : ∀ c ∈ ('*' :: rest).head?, c.isDigit = false := by
    rintro c ⟨⟩
    rfl
  cases max with
  | none =>
    rw [boundsMarks]
    split
    · exact ⟨Token.stands_sign .star rfl (fun _ => rfl) rfl nofun _, trivial⟩
    · exact ⟨Token.stands_number _ hstar, Token.stands_sign .star rfl (fun _ => rfl) rfl nofun _, trivial⟩
  | some max =>
    have hstar' : ∀ c ∈ ('*' :: (max.toNat.repr.toList ++ [] ++ rest)).head?, c.isDigit = false := by
      rintro c ⟨⟩
      rfl
    rw [boundsMarks]
    split
    · exact ⟨Token.stands_number _ h, trivial⟩
    · split
      · exact ⟨Token.stands_sign .star rfl (fun _ => rfl) rfl nofun _, Token.stands_number _ h, trivial⟩
      · exact ⟨Token.stands_number _ hstar', Token.stands_sign .star rfl (fun _ => rfl) rfl nofun _,
          Token.stands_number _ h, trivial⟩

theorem stand_bracketMarks {b : Bool} {ms : Bool → List Mark}
    (hms : ∀ (spaced : Bool) (rest : List Char), Closes rest → Mark.Stand (ms spaced) rest) (spaced : Bool)
    (h : Closes rest) : Mark.Stand (bracketMarks b ms spaced) rest := by
  cases b with
  | false => exact hms spaced rest h
  | true =>
    refine ⟨Token.stands_sign .parenOpen rfl (fun _ => rfl) rfl nofun _, Mark.stand_append.mpr ⟨hms false _ ?_, ?_⟩⟩
    swap
    · exact ⟨Token.stands_sign .parenClose rfl (fun _ => rfl) rfl nofun _, trivial⟩
    rintro c ⟨⟩
    exact Or.inr (Or.inl rfl)

end

section
variable (name : ρ → String) {rest : List Char}

/-- What comes behind an operand ends it. --/
theorem closes_operandMarks {tight : Bool} {sep : List Mark} (hsep : ∀ m ∈ sep.head?, m.spaced = true) (h : Closes rest)
    {ps : List (Pattern ρ)} (hps : ClearAll name ps) :
    Closes ((operandMarks name tight sep sep ps true).flatMap Mark.chars ++ rest) := by
  cases ps with
  | nil => exact h
  | cons p ps =>
    rw [chars_operandMarks name hps nofun]
    cases sep with
    | nil =>
      rintro c ⟨⟩
      exact Or.inl rfl
    | cons m sep =>
      rw [List.flatMap_cons, Mark.chars, hsep m rfl]
      rintro c ⟨⟩
      exact Or.inl rfl

/-- A repeated element begins right behind its bounds, and not with a digit. --/
theorem exists_operand_cons {p : Pattern ρ} (hp : p.Clear name) (hrank : p.rank ≠ 1) : ∃ t ms c cs,
    bracketMarks (needsBrackets true p) (fun spaced => marks name p spaced) false = ⟨false, t⟩ :: ms ∧
      t.text.toList = c :: cs ∧ c.isDigit = false := by
  cases p with
  | literal bytes ignoreCase =>
    cases hq : quotable bytes with
    | true =>
      have htext := toList_renderLiteral_quoted hq ignoreCase
      cases ignoreCase with
      | true => exact ⟨_, [], _, _, rfl, htext, rfl⟩
      | false => exact ⟨_, [], _, _, rfl, htext, rfl⟩
    | false => exact ⟨_, [], _, _, rfl, toList_renderLiteral_numeric hq ignoreCase, rfl⟩
  | charRange lo hi => exact ⟨_, [], _, _, rfl, toList_renderRange lo hi, rfl⟩
  | sequence ps | choice ps | fold p => exact ⟨_, _, _, _, rfl, rfl, rfl⟩
  | repetition p min max =>
    have hoption : min = 0 ∧ max = some 1 := by
      rw [rank] at hrank
      by_contra hne
      exact hrank (if_neg hne)
    rw [show needsBrackets true (p.repetition min max) = false from rfl, bracketMarks, if_neg Bool.false_ne_true, marks,
      if_pos hoption]
    exact ⟨_, _, _, _, rfl, rfl, rfl⟩
  | ruleRef r =>
    have hname : isName (name r) = true := hp
    unfold isName at hname
    split at hname
    · cases hname
    · rename_i d cs htext
      exact ⟨_, [], d, cs, rfl, htext, Lexer.isDigit_of_isAlpha ((Bool.and_eq_true _ _).mp hname).1⟩

mutual

/-- The text of a clear pattern is cut into its marks, in front of whatever ends it. --/
theorem stand_marks : ∀ {p : Pattern ρ}, p.Clear name → ∀ (spaced : Bool) (rest : List Char), Closes rest →
    Mark.Stand (p.marks name spaced) rest
  | .literal bytes ignoreCase, _, _, _, h => ⟨stands_literal h bytes ignoreCase, trivial⟩
  | .charRange lo hi, _, _, _, h => ⟨stands_range h lo hi, trivial⟩
  | .ruleRef r, hp, _, _, h => ⟨Token.stands_ruleName hp h.isNameChar, trivial⟩
  | .sequence ps, hp, spaced, rest, h => by
    have hnone : ∀ rest, Mark.Stand [] rest := fun _ => trivial
    rw [marks]
    exact stand_operandMarks hnone hnone nofun hp.2 spaced rest h
  | .choice ps, hp, spaced, rest, h => by
    have hnone : ∀ rest, Mark.Stand [] rest := fun _ => trivial
    have hslash : ∀ rest, Mark.Stand [⟨true, .slash, "/"⟩] rest :=
      fun _ => ⟨Token.stands_sign .slash rfl (fun _ => rfl) rfl nofun _, trivial⟩
    rw [marks]
    exact stand_operandMarks hnone hslash (fun m hm => by cases hm; rfl) hp.2 spaced rest h
  | .repetition p min max, hp, spaced, rest, h => by
    rw [marks]
    split
    · refine ⟨Token.stands_sign .bracketOpen rfl (fun _ => rfl) rfl nofun _, Mark.stand_append.mpr ⟨?_, ?_, trivial⟩⟩
      · refine stand_marks hp.2.2 false _ ?_
        rintro c ⟨⟩
        exact Or.inr (Or.inr (Or.inl rfl))
      · exact Token.stands_sign .bracketClose rfl (fun _ => rfl) rfl nofun _
    · rename_i hne
      refine Mark.stand_append.mpr ⟨stand_boundsMarks (fun c hc => ?_) spaced min max, ?_⟩
      · obtain ⟨t, ms, d, cs, hcons, htext, hd⟩ := exists_operand_cons name hp.2.2 fun hrank => hne (hp.2.1 hrank)
        rw [hcons, List.flatMap_cons, Mark.chars, htext] at hc
        cases hc
        exact hd
      · exact stand_bracketMarks (stand_marks hp.2.2) false h
  | .fold p, hp, spaced, rest, h => by
    rw [marks]
    exact stand_bracketMarks (stand_marks (p := p) hp) spaced h

theorem stand_operandMarks {tight : Bool} {front sep : List Mark} (hfront : ∀ rest, Mark.Stand front rest)
    (hsep : ∀ rest, Mark.Stand sep rest) (hspaced : ∀ m ∈ sep.head?, m.spaced = true) :
    ∀ {ps : List (Pattern ρ)}, ClearAll name ps → ∀ (spaced : Bool) (rest : List Char), Closes rest →
      Mark.Stand (operandMarks name tight front sep ps spaced) rest
  | [], _, _, _, _ => trivial
  | p :: ps, ⟨hp, hps⟩, spaced, rest, h => by
    rw [operandMarks, Mark.stand_append, Mark.stand_append]
    refine ⟨⟨hfront _, stand_bracketMarks (stand_marks hp) spaced ?_⟩, ?_⟩
    · exact closes_operandMarks name hspaced h hps
    · exact stand_operandMarks hsep hsep hspaced hps true rest h

end

end

end Pattern
end Abnf
