import Abnf.Compile.Assembly
import Abnf.Proofs.Document.LetterCase
import Abnf.Proofs.Text.Number

/-! What is written in the words of a document: numbers by digits of a base, bases by a letter, texts in quotes. All of it is
    said of the words alone. The functions that take words apart find the same, in numbers and bases whatever they are
    given (`Digits.number?_eq`, `NumVal.base?_eq`), in strings where they are given what the lexer takes for a string
    (`Assembly.unquote_of_mem_tokenize`). -/

namespace Abnf

namespace Notation

/-! ### Numbers -/

/-- The digits of all bases, each at the place of its value. --/
def digits : List Char := "0123456789abcdefghijklmnopqrstuvwxyz".toList

/-- The value of a digit of a base, which may be a letter in either case. --/
def digit? (base : Nat) (c : Char) : Option Nat := (digits.idxOf? c.toLower).filter (· < base)

/-- The number that digits of a base spell, of which there has to be one at least. --/
def number? (base : Nat) (cs : List Char) : Option Nat :=
  if cs = [] then none else (cs.mapM (digit? base)).map fun ds => Nat.ofDigits base ds.reverse

/-- The base that a letter in either case names. --/
def radix? (mark : Char) : Option Nat := [('b', 2), ('d', 10), ('x', 16)].lookup mark.toLower

/-! ### Strings -/

/-- What stands in front of the next quote. --/
def content (cs : List Char) : List Char := cs.takeWhile (· ≠ '"')

/-- Whether a string has to be read in the case in which it is written, and the text in its quotes: `"…"` and `%i"…"` are
    read in any case, `%s"…"` is not. --/
def quoted? : List Char → Option (Bool × List Char)
  | '"' :: cs => some (false, content cs)
  | '%' :: mark :: '"' :: cs => ([('i', false), ('s', true)].lookup mark.toLower).map (·, content cs)
  | _ => none

end Notation

/-! ### How numbers are read -/

namespace Digits

theorem lt_of_value? {c : Char} {n : Nat} (h : value? c = some n) : c.toNat < 128 := by
  have hlast : ∀ {d : Char}, c.val ≤ d.val → d.toNat < 128 → c.toNat < 128 := fun hle =>
    Nat.lt_of_le_of_lt (UInt32.le_iff_toNat_le.mp hle)
  unfold value? at h
  split at h
  · rename_i hdigit
    exact hlast (of_decide_eq_true ((Bool.and_eq_true _ _).mp hdigit).2) (by decide)
  · split at h
    · rename_i hlower
      exact hlast (of_decide_eq_true ((Bool.and_eq_true _ _).mp hlower).2) (by decide)
    · split at h
      · rename_i hupper
        exact hlast (of_decide_eq_true hupper).2 (by decide)
      · cases h

theorem value?_eq (c : Char) : value? c = Notation.digits.idxOf? c.toLower := by
  by_cases hc : c.toNat < 128
  · have hascii : ∀ n < 128, value? (Char.ofNat n) = Notation.digits.idxOf? (Char.ofNat n).toLower := by decide +kernel
    rw [← Char.ofNat_toNat c]
    exact hascii c.toNat hc
  · have hdigits : Notation.digits.all (·.toNat < 128) = true := by decide
    have hvalue : value? c = none := Option.eq_none_iff_forall_ne_some.mpr fun n h => hc (lt_of_value? h)
    rw [toLower_eq_self (Nat.le_of_not_lt hc), hvalue, eq_comm, List.idxOf?_eq_none_iff]
    exact fun hmem => hc (of_decide_eq_true (List.all_eq_true.mp hdigits c hmem))

theorem valueIn?_eq (base : Nat) : valueIn? base = Notation.digit? base :=
  funext fun c => by rw [valueIn?, Notation.digit?, value?_eq]

theorem number?_eq (base : Nat) : number? base = Notation.number? base := by
  funext cs
  rw [number?, Notation.number?, valueIn?_eq]
  simp only [foldl_eq_ofDigits, List.isEmpty_iff]

end Digits

namespace NumVal

theorem base?_eq (mark : Char) : base? mark = Notation.radix? mark := by
  by_cases hc : mark.toNat < 128
  · have hascii : ∀ n < 128, base? (Char.ofNat n) = Notation.radix? (Char.ofNat n) := by decide
    rw [← Char.ofNat_toNat mark]
    exact hascii mark.toNat hc
  · have hne : ∀ d : Char, d.toNat < 128 → (mark == d) = false := fun d hd => beq_false_of_ne fun h => hc (h ▸ hd)
    rw [Notation.radix?, toLower_eq_self (Nat.le_of_not_lt hc)]
    simp only [List.lookup_cons, List.lookup_nil, hne 'b' (by decide), hne 'd' (by decide), hne 'x' (by decide)]
    unfold base?
    split
    · cases hne 'b' (by decide)
    · cases hne 'B' (by decide)
    · cases hne 'd' (by decide)
    · cases hne 'D' (by decide)
    · cases hne 'x' (by decide)
    · cases hne 'X' (by decide)
    · rfl

end NumVal

/-! ### How strings are taken apart -/

namespace Lexer

variable {c : Char} {cs : List Char}

/-- What closes a string is the quote behind its text. --/
theorem take_quoted (h : (quoted cs).1 = .charVal) : ∃ text, (∀ x ∈ text, isQuoted x = true) ∧
    cs.take (quoted cs).2 = text ++ ['"'] := by
  unfold quoted at h ⊢
  dsimp only at h ⊢
  split at h
  · rename_i hclose
    rw [if_pos hclose]
    refine ⟨cs.takeWhile isQuoted, fun x hx => List.mem_takeWhile_imp hx, ?_⟩
    rw [List.head?_drop] at hclose
    rw [List.take_add_one, hclose, run, ← List.prefix_iff_eq_take.mp (List.takeWhile_prefix isQuoted)]
    rfl
  · cases h

theorem ne_ite {b : Prop} [Decidable b] {kind k k' : TokenKind} (hk : k ≠ kind) (hk' : k' ≠ kind) :
    (if b then k else k') ≠ kind := by
  split
  · exact hk
  · exact hk'

theorem prose_ne_charVal (cs : List Char) : (prose cs).1 ≠ .charVal := by
  rw [prose, apply_ite Prod.fst]
  dsimp only
  exact ne_ite (by decide) (by decide)

/-- A string begins with a quote, or with a sign in front of it. --/
theorem front_charVal (h : (front c cs).1 = .charVal) :
    c = '"' ∧ front c cs = quoted cs ∨ c = '%' ∧ front c cs = percent cs := by
  by_cases hquote : c = '"'
  · subst hquote
    exact .inl ⟨rfl, rfl⟩
  · by_cases hpercent : c = '%'
    · subst hpercent
      exact .inr ⟨rfl, rfl⟩
    · refine absurd h ?_
      simp only [front, beq_iff_eq, hquote, hpercent, if_false, apply_ite Prod.fst]
      repeat' apply ne_ite
      all_goals first
        | exact prose_ne_charVal cs
        | decide

/-- Behind the sign stands a letter that tells of the case, and then the quote. --/
theorem percent_charVal (h : (percent cs).1 = .charVal) : ∃ mark rest, isCaseMark mark = true ∧ cs = mark :: '"' :: rest ∧
    (quoted rest).1 = .charVal ∧ (percent cs).2 = (quoted rest).2 + 2 := by
  rcases cs with _ | ⟨mark, cs⟩
  · cases h
  · unfold percent at h ⊢
    dsimp only at h ⊢
    split at h
    · rename_i hmark
      rw [if_pos hmark]
      split at h
      · exact ⟨mark, _, hmark, rfl, h, rfl⟩
      · cases h
    · split at h <;> cases h

/-- The text of a string, and how it is told whether letters have to be in their case. --/
theorem exists_text (h : (front c cs).1 = .charVal) : ∃ text, (∀ x ∈ text, isQuoted x = true) ∧
    (c :: cs.take (front c cs).2 = '"' :: (text ++ ['"']) ∨
      ∃ mark, isCaseMark mark = true ∧ c :: cs.take (front c cs).2 = '%' :: mark :: '"' :: (text ++ ['"'])) := by
  obtain ⟨rfl, hfront⟩ | ⟨rfl, hfront⟩ := front_charVal h
  · rw [hfront] at h ⊢
    obtain ⟨text, htext, htake⟩ := take_quoted h
    exact ⟨text, htext, .inl (by rw [htake])⟩
  · rw [hfront] at h ⊢
    obtain ⟨mark, rest, hmark, rfl, hquoted, hlength⟩ := percent_charVal h
    obtain ⟨text, htext, htake⟩ := take_quoted hquoted
    exact ⟨text, htext, .inr ⟨mark, hmark, by rw [hlength, List.take_succ_cons, List.take_succ_cons, htake]⟩⟩

end Lexer

namespace Notation

theorem content_append {text : List Char} (h : ∀ x ∈ text, Lexer.isQuoted x = true) : content (text ++ ['"']) = text := by
  have hne : ∀ x ∈ text, decide (x ≠ '"') = true := by
    intro x hx
    have hquoted := h x hx
    simp only [Lexer.isQuoted, Bool.and_eq_true, bne_iff_ne] at hquoted
    exact decide_eq_true hquoted.1.1
  rw [content, List.takeWhile_append_of_pos hne]
  exact List.append_nil text

end Notation

namespace Assembly

/-- What the lexer takes for a string has its text between quotes, and is read in its case just if it is marked so. --/
theorem unquote_of_mem_pieces {t : Token} : ∀ {cs : List Char}, t ∈ Lexer.pieces cs → t.kind = .charVal →
    ∃ exact text, Notation.quoted? t.text.toList = some (exact, text) ∧ unquote t.text = (text, exact)
  | [], h, _ => by
    rw [Lexer.pieces] at h
    cases h
  | c :: cs, h, hkind => by
    rw [Lexer.pieces] at h
    rcases List.mem_cons.mp h with rfl | h
    · obtain ⟨text, htext, hform⟩ := Lexer.exists_text hkind
      rw [unquote, String.toList_ofList]
      rcases hform with heq | ⟨mark, hmark, heq⟩
      · rw [heq]
        exact ⟨false, text, by rw [Notation.quoted?, Notation.content_append htext], by simp⟩
      · rw [heq, Notation.quoted?, Notation.content_append htext]
        simp only [Lexer.isCaseMark, Bool.or_eq_true, beq_iff_eq, or_assoc] at hmark
        rcases hmark with rfl | rfl | rfl | rfl
        · exact ⟨true, text, rfl, by simp⟩
        · exact ⟨true, text, rfl, by simp⟩
        · exact ⟨false, text, rfl, by simp⟩
        · exact ⟨false, text, rfl, by simp⟩
    · exact unquote_of_mem_pieces h hkind
  termination_by cs => cs.length
  decreasing_by simp only [List.length_drop, List.length_cons]; omega

theorem unquote_of_mem_tokenize {source : String} {t : Token} (h : t ∈ tokenize source) (hkind : t.kind = .charVal) :
    ∃ exact text, Notation.quoted? t.text.toList = some (exact, text) ∧ unquote t.text = (text, exact) :=
  Lexer.forall_mem_mergeGarbage (P := fun t => t.kind = .charVal → _) (fun _ _ _ _ _ _ => nofun)
    (fun _ ht => unquote_of_mem_pieces ht) t h hkind

end Assembly
end Abnf
