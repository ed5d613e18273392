import Abnf.Compile
import Abnf.Proofs.Compile.Values
import Abnf.Proofs.Document.Derivation
import Abnf.Proofs.Grammar.Render
import Abnf.Proofs.Binary.Pattern

/-! What the texts of patterns are compiled to. The text of a clear pattern derives an expression
    (`Pattern.reads_of_clear`), and the nodes that this expression is made into are those of the pattern, but for brackets,
    repetitions of once and no more, and the notation of literals that cannot stand in quotes (`Pattern.reread`). -/

namespace Abnf

open List (Forall₂)

/-! ### Values -/

namespace Digits

theorem not_mem_padded {c : Char} (hc : c.isAlphanum = false) (n : Nat) : c ∉ (Hex.padded n).toList := by
  intro hmem
  rw [isAlphanum_padded n c hmem] at hc
  cases hc

end Digits

namespace NumVal

theorem codePoint_padded {v : UInt32} (h : v ≤ maxCodePoint) : codePoint 16 (Hex.padded v.toNat).toList = .ok v := by
  rw [codePoint, Digits.number?_padded]
  dsimp only
  rw [if_pos (UInt32.le_iff_toNat_le.mp h), UInt32.ofNat_toNat]

theorem codePoint_byte (b : UInt8) : codePoint 16 (Hex.padded b.toNat).toList = .ok b.toUInt32 := by
  have hle : b.toUInt32 ≤ maxCodePoint := by
    have := b.toNat_lt
    rw [UInt32.le_iff_toNat_le, UInt8.toNat_toUInt32]
    show b.toNat ≤ 0x10FFFF
    omega
  have h := codePoint_padded hle
  rwa [UInt8.toNat_toUInt32] at h

theorem mapM_codePoint_bytes : ∀ bs : List UInt8,
    (bs.map fun b => (Hex.padded b.toNat).toList).mapM (codePoint 16) = .ok (bs.map UInt8.toUInt32)
  | [] => rfl
  | b :: bs => by
    rw [List.map_cons, List.mapM_cons, codePoint_byte, mapM_codePoint_bytes bs]
    rfl

theorem dotted_bytes (bs : List UInt8) : dotted (bs.map UInt8.toUInt32) = .ok (.literal bs false) := by
  have hall : (bs.map UInt8.toUInt32).all (· < byteLimit) = true := by
    rw [List.all_map, List.all_eq_true]
    intro b _
    exact decide_eq_true (UInt32.lt_iff_toNat_lt.mpr b.toNat_lt)
  have hsame : (bs.map UInt8.toUInt32).map UInt32.toUInt8 = bs := by
    rw [List.map_map]
    exact List.map_id'' (fun b => UInt8.toUInt8_toUInt32 b) bs
  rw [dotted, if_pos hall, hsame]

/-- A range is read back. --/
theorem node_renderRange {lo hi : UInt32} (hle : lo ≤ hi) (hmax : hi ≤ maxCodePoint) :
    node (Pattern.renderRange lo hi) = .ok (.charRange lo hi) := by
  have hdash := Digits.not_mem_padded (c := '-') rfl
  have hdot := Digits.not_mem_padded (c := '.') rfl
  rw [node, Pattern.toList_renderRange]
  by_cases heq : lo = hi
  · subst heq
    simp only [if_true, base?, List.contains_eq_mem, hdash, hdot, decide_false, Bool.false_eq_true, if_false,
      codePoint_padded hmax]
    rfl
  · have hlo : lo ≤ maxCodePoint := UInt32.le_trans hle hmax
    have hsplit : Digits.split '-' ((Hex.padded lo.toNat).toList ++ '-' :: (Hex.padded hi.toNat).toList) =
        [(Hex.padded lo.toNat).toList, (Hex.padded hi.toNat).toList] := by
      rw [Digits.split_append (hdash _), Digits.split_of_not_mem (hdash _)]
    have hmem : '-' ∈ (Hex.padded lo.toNat).toList ++ '-' :: (Hex.padded hi.toNat).toList := by simp
    have hnot : '.' ∉ (Hex.padded lo.toNat).toList ++ '-' :: (Hex.padded hi.toNat).toList := by simp [hdot]
    simp only [if_neg heq, base?, List.contains_eq_mem, decide_eq_true hmem, decide_eq_false hnot, if_true, hsplit,
      Bool.false_eq_true, if_false]
    rw [range, codePoint_padded hlo, codePoint_padded hmax]
    exact if_pos hle

/-- The node that a literal is read back as that cannot stand in quotes. --/
def bytesNode : List UInt8 → Node
  | [b] => .char b.toUInt32
  | bs => .literal bs false

theorem node_renderLiteral {bs : List UInt8} (h : Pattern.quotable bs = false) (ignoreCase : Bool) :
    node (Pattern.renderLiteral bs ignoreCase) = .ok (bytesNode bs) := by
  have hdash := Digits.not_mem_padded (c := '-') rfl
  have hdot := Digits.not_mem_padded (c := '.') rfl
  have hnot : '-' ∉ ['.'].intercalate (bs.map fun b => (Hex.padded b.toNat).toList) := by
    intro hmem
    refine Pattern.forall_mem_intercalate (P := (· ≠ '-')) ?_ ?_ '-' hmem rfl
    · exact List.forall_mem_singleton.mpr nofun
    · rintro x hx c hc rfl
      obtain ⟨b, -, rfl⟩ := List.mem_map.mp hx
      exact hdash b.toNat hc
  rw [node, Pattern.toList_renderLiteral_numeric h]
  simp only [base?, List.contains_eq_mem, decide_eq_false hnot, Bool.false_eq_true, if_false]
  match bs, h with
  | [], h => exact nomatch (show true = false from h)
  | [b], _ =>
    rw [List.map_singleton, List.intercalate_singleton, decide_eq_false (hdot _), if_neg Bool.false_ne_true,
      codePoint_byte]
    rfl
  | b :: c :: bs, _ =>
    have hne : ((b :: c :: bs).map fun b => (Hex.padded b.toNat).toList) ≠ [] := List.cons_ne_nil _ _
    have hmem : '.' ∈ ['.'].intercalate ((b :: c :: bs).map fun b => (Hex.padded b.toNat).toList) := by
      rw [List.map_cons, List.map_cons, List.intercalate_cons_cons]
      simp
    rw [decide_eq_true hmem, if_pos rfl, Digits.split_intercalate hne, mapM_codePoint_bytes]
    · exact dotted_bytes (b :: c :: bs)
    · intro x hx
      obtain ⟨b, -, rfl⟩ := List.mem_map.mp hx
      exact hdot b.toNat

end NumVal

namespace Assembly

theorem utf8_of_quotable {bs : List UInt8} (h : Pattern.quotable bs = true) :
    (bs.map fun b => Char.ofNat b.toNat).flatMap String.utf8EncodeChar = bs := by
  have hall : ∀ n : Fin 256, (Byte.isPrintable (UInt8.ofNat n) && UInt8.ofNat n != 0x22) = true →
      String.utf8EncodeChar (Char.ofNat n) = [UInt8.ofNat n] := by decide +kernel
  induction bs with
  | nil => rfl
  | cons b bs ih =>
    obtain ⟨hb, hbs⟩ := (Bool.and_eq_true _ _).mp (show (_ && _) = true from h)
    have hchar := hall ⟨b.toNat, b.toNat_lt⟩
    rw [UInt8.ofNat_toNat] at hchar
    rw [List.map_cons, List.flatMap_cons, hchar hb, ih hbs]
    rfl

/-- A literal in quotes is read back. --/
theorem string_renderLiteral {bs : List UInt8} (h : Pattern.quotable bs = true) (ignoreCase : Bool) {w : Word}
    (hw : w.text = Pattern.renderLiteral bs ignoreCase) (s : State) : string w s = s.add (.literal bs ignoreCase) := by
  have hquote : unquote w.text = (bs.map fun b => Char.ofNat b.toNat, !ignoreCase) := by
    rw [unquote, hw, Pattern.toList_renderLiteral_quoted h]
    cases ignoreCase with
    | true => simp
    | false => simp
  have hnode : Node.text (String.ofList (bs.map fun b => Char.ofNat b.toNat)) ignoreCase = .literal bs ignoreCase := by
    rw [Node.text, String.toByteArray_ofList]
    simp only [List.utf8Encode, List.data_toByteArray, utf8_of_quotable h]
  rw [string, hquote]
  dsimp only
  rw [Bool.not_not, hnode]

end Assembly

/-! ### Patterns -/

namespace Pattern

variable {ρ : Type}

/-- A pattern in brackets, if they are asked for. --/
def foldIf (b : Bool) (p : Pattern String) : Pattern String := if b then .fold p else p

/-- A pattern under bounds, which once and no more does not need. --/
def repeated (p : Pattern String) (min : UInt32) (max : Option UInt32) : Pattern String :=
  if min = 1 ∧ max = some 1 then p else .repetition p min max

/-- What a literal is read back as that cannot stand in quotes. --/
def ofBytes : List UInt8 → Pattern String
  | [b] => .charRange b.toUInt32 b.toUInt32
  | bs => .literal bs false

mutual

/-- What the text of a pattern is read back as. --/
def reread (name : ρ → String) : Pattern ρ → Pattern String
  | literal bytes ignoreCase => if quotable bytes then .literal bytes ignoreCase else ofBytes bytes
  | charRange lo hi => .charRange lo hi
  | sequence ps => .sequence (rereads name true ps)
  | choice ps => .choice (rereads name false ps)
  | repetition p min max =>
    if min = 0 ∧ max = some 1 then .repetition (reread name p) 0 (some 1)
    else repeated (foldIf (needsBrackets true p) (reread name p)) min max
  | ruleRef r => .ruleRef (name r)
  | fold p => foldIf (needsBrackets true p) (reread name p)

def rereads (name : ρ → String) (tight : Bool) : List (Pattern ρ) → List (Pattern String)
  | [] => []
  | p :: ps => foldIf (needsBrackets tight p) (reread name p) :: rereads name tight ps

end

theorem addPattern_ofBytes (bs : List UInt8) (g : Grammar) :
    g.addPattern (ofBytes bs) = g.addNode (NumVal.bytesNode bs) := by
  match bs with
  | [] | [_] | _ :: _ :: _ => rfl

end Pattern

namespace Repeat

theorem count_eq {n : UInt32} {w : Word} (h : w.text = n.toNat.repr) : count w = .ok n := by
  rw [count, h, Nat.repr_eq_ofList_toDigits, String.toList_ofList, Digits.number?_toDigits]
  dsimp only
  rw [if_pos n.toNat_lt, UInt32.ofNat_toNat]

theorem count?_eq {n : UInt32} {w : Word} (h : w.text = n.toNat.repr) : count? (some w) = .ok (some n) := by
  rw [count?, count_eq h]
  rfl

end Repeat

/-! ### Expressions -/

namespace Assembly

/-- An expression is made into the nodes of a pattern, whatever there is already. --/
def Makes (e : Expr) (p : Pattern String) : Prop := ∀ s : State, ∃ references,
  expr e s = ((s.grammar.addPattern p).1, { s with grammar := (s.grammar.addPattern p).2, references })

section
variable {e f : Expr} {es : List Expr} {p : Pattern String} {ps : List (Pattern String)}

theorem makes_of_add {n : Node} (h : ∀ s, expr e s = s.add n) (hp : ∀ g : Grammar, g.addPattern p = g.addNode n) :
    Makes e p := fun s => ⟨s.references, by rw [h, hp]; rfl⟩

theorem makes_ref (w : Word) : Makes (.ref w) (.ruleRef w.text) := fun _ => ⟨_, rfl⟩

theorem makes_str {bs : List UInt8} (h : Pattern.quotable bs = true) (ignoreCase : Bool) {w : Word}
    (hw : w.text = Pattern.renderLiteral bs ignoreCase) : Makes (.str w) (.literal bs ignoreCase) :=
  makes_of_add (string_renderLiteral h ignoreCase hw) fun _ => rfl

theorem makes_num {w : Word} {n : Node} (h : NumVal.node w.text = .ok n)
    (hp : ∀ g : Grammar, g.addPattern p = g.addNode n) : Makes (.num w) p :=
  makes_of_add (fun s => by rw [expr, numeric, h]) hp

theorem Makes.group (h : Makes e p) (span : Span) : Makes (.group span (some e)) (p.foldIf (keepsBrackets e)) := by
  intro s
  obtain ⟨references, hs⟩ := h s
  refine ⟨references, ?_⟩
  rw [expr, hs, Pattern.foldIf]
  cases keepsBrackets e <;> rfl

theorem Makes.optional (h : Makes e p) (span : Span) : Makes (.optional span (some e)) (.repetition p 0 (some 1)) := by
  intro s
  obtain ⟨references, hs⟩ := h s
  refine ⟨references, ?_⟩
  rw [expr, hs]
  rfl

theorem Makes.repeated (h : Makes e p) (span : Span) {r : Repeat} {min : UInt32} {max : Option UInt32}
    (hb : r.bounds = .ok ⟨min, max⟩) (hop : r.op ≠ .list) :
    Makes (.repetition span (some r) (some e)) (p.repeated min max) := by
  intro s
  obtain ⟨references, hs⟩ := h s
  refine ⟨references, ?_⟩
  rw [expr, hs]
  dsimp only
  rw [Assembly.repeated, hb]
  dsimp only
  rw [if_neg hop, Pattern.repeated]
  by_cases hone : min = 1 ∧ max = some 1
  · rw [if_pos (by rw [hone.1, hone.2]), if_pos hone]
  · rw [if_neg (fun heq => hone ⟨congrArg Repeat.Bounds.min heq, congrArg Repeat.Bounds.max heq⟩), if_neg hone]
    rfl

theorem exists_exprs {es : List Expr} {ps : List (Pattern String)} (h : Forall₂ Makes es ps) : ∀ s : State, ∃ references,
    exprs es s = ((s.grammar.addPatterns ps).1, { s with grammar := (s.grammar.addPatterns ps).2, references }) := by
  induction h with
  | nil => exact fun s => ⟨s.references, rfl⟩
  | cons h _ ih =>
    intro s
    obtain ⟨references, he⟩ := h s
    obtain ⟨references', hes⟩ := ih { s with grammar := _, references }
    refine ⟨references', ?_⟩
    rw [exprs, he]
    dsimp only
    rw [hes]
    rfl

theorem makes_concatenation (h : Forall₂ Makes (e :: f :: es) ps) (span : Span) :
    Makes (.concatenation span (e :: f :: es)) (.sequence ps) := by
  intro s
  obtain ⟨references, hs⟩ := exists_exprs h s
  refine ⟨references, ?_⟩
  rw [expr, hs]
  cases h with | cons _ h =>
  cases h with | cons _ h =>
  rfl

theorem makes_alternation (h : Forall₂ Makes (e :: f :: es) ps) (span : Span) :
    Makes (.alternation span (e :: f :: es)) (.choice ps) := by
  intro s
  obtain ⟨references, hs⟩ := exists_exprs h s
  refine ⟨references, ?_⟩
  rw [expr, hs]
  cases h with | cons _ h =>
  cases h with | cons _ h =>
  rfl

end

end Assembly

/-! ### Derivations -/

namespace Derivation

/-- The level of the grammar at which patterns of a rank are derived. --/
def Ranked (E : List Lexeme → Expr → Prop) : (rank : Nat) → List Lexeme → Expr → Prop
  | 0 => E
  | 1 => Repetition E
  | 2 => Concatenation E
  | _ => Alternation E

section
variable {E : List Lexeme → Expr → Prop} {ls : List Lexeme} {e : Expr}

theorem Ranked.mono {m n : Nat} (h : Ranked E m ls e) (hle : m ≤ n) : Ranked E n ls e := by
  induction hle with
  | refl => exact h
  | @step n _ ih =>
    match n, ih with
    | 0, ih => exact .once ih
    | 1, ih => exact .single ih
    | 2, ih => exact .single ih
    | _ + 3, ih => exact ih

theorem Ranked.alternation {n : Nat} (h : Ranked E n ls e) : Alternation E ls e := h.mono (Nat.le_add_right n 3)

theorem Element.simple (h : Simple ls e) : ∀ levels, Element levels ls e
  | 0 => h
  | _ + 1 => .inl h

/-- An element is no alternation and no concatenation. --/
theorem Element.keepsBrackets_eq {levels : Nat} (h : Element levels ls e) : Assembly.keepsBrackets e = false := by
  have hsimple : Simple ls e → Assembly.keepsBrackets e = false := by
    intro h
    cases h <;> rfl
  cases levels with
  | zero => exact hsimple h
  | succ levels =>
    rcases h with h | h
    · exact hsimple h
    · cases h <;> rfl

end

theorem exists_append {α β : Type} {R : α → β → Prop} : ∀ {xs ys : List α} {ls : List β}, Forall₂ R (xs ++ ys) ls →
    ∃ ms ns, ls = ms ++ ns ∧ Forall₂ R xs ms ∧ Forall₂ R ys ns
  | [], _, ls, h => ⟨[], ls, rfl, .nil, h⟩
  | _ :: _, _, l :: _, .cons h hs => by
    obtain ⟨ms, ns, rfl, hms, hns⟩ := exists_append hs
    exact ⟨l :: ms, ns, rfl, .cons h hms, hns⟩

/-- The marks of bounds spell these bounds. --/
theorem exists_bounds {spaced : Bool} {min : UInt32} {max : Option UInt32} (hle : ∀ m ∈ max, min ≤ m) {bs : List Lexeme}
    (h : Forall₂ Mark.Of (Pattern.boundsMarks spaced min max) bs) :
    ∃ count, Bounds bs count ∧ count.op ≠ .list ∧ count.bounds = .ok ⟨min, max⟩ := by
  have hnumber : ∀ {spaced : Bool} {n : UInt32} {l : Lexeme}, Mark.Of ⟨spaced, .number, n.toNat.repr⟩ l →
      Number [l] (some l.word) ∧ Repeat.count? (some l.word) = .ok (some n) := fun hof =>
    ⟨.present (congrArg Token.kind hof.1), Repeat.count?_eq (congrArg Token.text hof.1)⟩
  have hstar : ∀ {spaced : Bool} {l : Lexeme}, Mark.Of ⟨spaced, .star, "*"⟩ l → Sign l .range := fun hof =>
    .star (congrArg Token.kind hof.1)
  have hnone : Repeat.count? none = .ok none := rfl
  have hfree : ∀ {low : UInt32}, ∀ m ∈ (none : Option UInt32), low ≤ m := fun _ hm => by cases hm
  have hrange : RepeatOp.range ≠ .list := by decide
  have hexact : RepeatOp.exact ≠ .list := by decide
  cases max with
  | none =>
    rw [Pattern.boundsMarks] at h
    split at h
    · rename_i hmin
      subst hmin
      cases h with | cons hs h =>
      cases h
      exact ⟨_, .signed .absent (hstar hs) .absent, hrange, Repeat.bounds_eq_ok.mpr ⟨_, _, hnone, hnone, rfl, hfree⟩⟩
    · cases h with | cons hn h =>
      cases h with | cons hs h =>
      cases h
      obtain ⟨hlow, hmin⟩ := hnumber hn
      exact ⟨_, .signed hlow (hstar hs) .absent, hrange, Repeat.bounds_eq_ok.mpr ⟨_, _, hmin, hnone, rfl, hfree⟩⟩
  | some max =>
    rw [Pattern.boundsMarks] at h
    split at h
    · rename_i heq
      subst heq
      cases h with | cons hn h =>
      cases h
      have hmin := (hnumber hn).2
      exact ⟨_, .exact (congrArg Token.kind hn.1), hexact, Repeat.bounds_eq_ok.mpr ⟨_, _, hmin, hnone, rfl, hle⟩⟩
    · split at h
      · rename_i hmin
        subst hmin
        cases h with | cons hs h =>
        cases h with | cons hm h =>
        cases h
        obtain ⟨hhigh, hmax⟩ := hnumber hm
        exact ⟨_, .signed .absent (hstar hs) hhigh, hrange, Repeat.bounds_eq_ok.mpr ⟨_, _, hnone, hmax, rfl, hle⟩⟩
      · cases h with | cons hn h =>
        cases h with | cons hs h =>
        cases h with | cons hm h =>
        cases h
        obtain ⟨hlow, hmin⟩ := hnumber hn
        obtain ⟨hhigh, hmax⟩ := hnumber hm
        exact ⟨_, .signed hlow (hstar hs) hhigh, hrange, Repeat.bounds_eq_ok.mpr ⟨_, _, hmin, hmax, rfl, hle⟩⟩

theorem leading_eq_nil : ∀ {ms : List Mark} {ls : List Lexeme}, Forall₂ Mark.Of ms ls → (∀ m ∈ ms, m.spaced = false) →
    ∀ l ∈ ls, l.leading = []
  | [], _, .nil, _ => nofun
  | m :: ms, l :: ls, .cons h hs, hspaced => by
    obtain ⟨hm, hms⟩ := List.forall_mem_cons.mp hspaced
    refine List.forall_mem_cons.mpr ⟨?_, leading_eq_nil hs hms⟩
    rw [h.2, Mark.leading, hm]
    rfl

/-- The parts of a repeat touch one another and what they are in front of. --/
theorem touch_boundsMarks {spaced : Bool} {min : UInt32} {max : Option UInt32} {t : Token} {ms : List Mark}
    {bs ls : List Lexeme} (hbs : Forall₂ Mark.Of (Pattern.boundsMarks spaced min max) bs)
    (hls : Forall₂ Mark.Of (⟨false, t⟩ :: ms) ls) : ∀ l ∈ (bs ++ ls.take 1).tail, l.leading = [] := by
  have htail : ∃ m ns, Pattern.boundsMarks spaced min max = m :: ns ∧ ∀ n ∈ ns, n.spaced = false := by
    unfold Pattern.boundsMarks
    split <;> split <;> try split
    all_goals exact ⟨_, _, rfl, by simp⟩
  obtain ⟨m, ns, hcons, hns⟩ := htail
  rw [hcons] at hbs
  cases hbs with | cons _ hbs =>
  cases hls with | cons hl _ =>
  refine leading_eq_nil (List.rel_append hbs (.cons hl .nil)) (List.forall_mem_append.mpr ⟨hns, ?_⟩)
  exact List.forall_mem_singleton.mpr rfl

end Derivation

/-! ### Texts -/

namespace Pattern

open Abnf.Derivation Assembly

variable {ρ : Type} (name : ρ → String)

theorem rank_operand_le (tight : Bool) (p : Pattern ρ) :
    (if needsBrackets tight p then 0 else p.rank) ≤ if tight then 1 else 2 := by
  cases tight with
  | true =>
    simp only [needsBrackets_true, decide_eq_true_eq, if_true]
    split <;> omega
  | false =>
    simp only [needsBrackets_false, decide_eq_true_eq, Bool.false_eq_true, if_false]
    split <;> omega

/-- Lexemes in the place of a pattern's marks derive an expression that is made into what the pattern is read back as,
    if brackets may nest as deep as the pattern is. --/
def Reads (p : Pattern ρ) : Prop := ∀ {limit : Nat}, p.height ≤ limit → ∀ {spaced : Bool} {ls : List Lexeme},
  Forall₂ Mark.Of (p.marks name spaced) ls →
    ∃ e, Ranked (Derivation.Element limit) p.rank ls e ∧ Makes e (p.reread name) ∧ keepsBrackets e = decide (2 ≤ p.rank)

section
variable {name} {p : Pattern ρ} {limit : Nat} {spaced : Bool} {ls : List Lexeme}

theorem exists_brackets {t u : Token} {ms : List Mark} (h : Forall₂ Mark.Of (⟨spaced, t⟩ :: (ms ++ [⟨false, u⟩])) ls) :
    ∃ l ks r, ls = l :: (ks ++ [r]) ∧ l.kind = t.kind ∧ Forall₂ Mark.Of ms ks ∧ r.kind = u.kind := by
  obtain ⟨l, rest, hl, hrest, rfl⟩ := List.forall₂_cons_left_iff.mp h
  obtain ⟨ks, rs, rfl, hks, hrs⟩ := exists_append hrest
  obtain ⟨r, _, hr, ⟨⟩, rfl⟩ := List.forall₂_cons_left_iff.mp hrs
  exact ⟨l, ks, r, rfl, congrArg Token.kind hl.1, hks, congrArg Token.kind hr.1⟩

/-- A pattern in brackets is an element, and without them it keeps its level. The brackets stay only around what
    binds loosely. --/
theorem Reads.operand (hp : p.Reads name) (hheight : p.height < limit) {b : Bool}
    (h : Forall₂ Mark.Of (bracketMarks b (fun spaced => p.marks name spaced) spaced) ls) :
    ∃ e, Ranked (Derivation.Element limit) (if b then 0 else p.rank) ls e ∧
      Makes e (foldIf (b && decide (2 ≤ p.rank)) (p.reread name)) := by
  cases b with
  | false =>
    obtain ⟨e, he, hmakes, -⟩ := hp (Nat.le_of_lt hheight) h
    exact ⟨e, he, hmakes⟩
  | true =>
    obtain ⟨limit, rfl⟩ := Nat.exists_eq_add_one_of_ne_zero (Nat.ne_zero_of_lt hheight)
    obtain ⟨l, ks, r, rfl, hl, hks, hr⟩ := exists_brackets h
    obtain ⟨e, he, hmakes, hkeeps⟩ := hp (Nat.le_of_lt_succ hheight) hks
    refine ⟨_, Or.inr (.group hl he.alternation hr), ?_⟩
    have hgroup := hmakes.group (extent (l :: (ks ++ [r])))
    rwa [hkeeps] at hgroup

/-- An operand gets brackets if it binds more loosely than what it stands in. --/
theorem Reads.operand_of_needsBrackets (hp : p.Reads name) (hheight : p.height < limit) {tight : Bool}
    (h : Forall₂ Mark.Of (bracketMarks (needsBrackets tight p) (fun spaced => p.marks name spaced) spaced) ls) :
    ∃ e, Ranked (Derivation.Element limit) (if needsBrackets tight p then 0 else p.rank) ls e ∧
      Makes e (foldIf (needsBrackets tight p) (p.reread name)) := by
  obtain ⟨e, he, hmakes⟩ := hp.operand hheight h
  have hloose : (needsBrackets tight p && decide (2 ≤ p.rank)) = needsBrackets tight p := by
    cases tight with
    | true => rw [needsBrackets_true, Bool.and_self]
    | false =>
      rw [needsBrackets_false]
      by_cases hrank : 3 ≤ p.rank
      · rw [decide_eq_true hrank, decide_eq_true (Nat.le_of_succ_le hrank), Bool.and_self]
      · rw [decide_eq_false hrank, Bool.false_and]
  exact ⟨e, he, hloose ▸ hmakes⟩

theorem Reads.repetition {min : UInt32} {max : Option UInt32} (hp : p.Reads name)
    (hclear : (Pattern.repetition p min max).Clear name) : (Pattern.repetition p min max).Reads name := by
  intro limit hheight spaced ls h
  obtain ⟨hbounds, hrank, hoperand⟩ := hclear
  rw [marks] at h
  rw [rank, reread]
  split
  · rename_i hoption
    rw [if_pos hoption] at h
    obtain ⟨limit, rfl⟩ := Nat.exists_eq_add_one_of_ne_zero (Nat.ne_zero_of_lt hheight)
    obtain ⟨l, ks, r, rfl, hl, hks, hr⟩ := exists_brackets h
    obtain ⟨e, he, hmakes, -⟩ := hp (Nat.le_of_succ_le_succ hheight) hks
    exact ⟨_, Or.inr (.optional hl he.alternation hr), hmakes.optional _, rfl⟩
  · rename_i hoption
    rw [if_neg hoption] at h
    obtain ⟨bs, ks, rfl, hbs, hks⟩ := exists_append h
    obtain ⟨count, hcount, hop, hb⟩ := exists_bounds hbounds hbs
    obtain ⟨e, he, hmakes⟩ := hp.operand_of_needsBrackets hheight hks
    -- What stands behind the bounds has no bounds of its own, and binds loosely only in brackets.
    have hzero : (if needsBrackets true p then 0 else p.rank) = 0 := by
      have hne : p.rank ≠ 1 := fun h => hoption (hrank h)
      simp only [needsBrackets_true, decide_eq_true_eq]
      split <;> omega
    rw [hzero] at he
    obtain ⟨t, ns, c, cs, hcons, -⟩ := exists_operand_cons name hoperand fun h => hoption (hrank h)
    rw [hcons] at hks
    exact ⟨_, .repeated hcount he (touch_boundsMarks hbs hks), hmakes.repeated _ hb hop, rfl⟩

end

mutual

/-- The text of a clear pattern derives an expression that is made into what it is read back as. --/
theorem reads_of_clear : ∀ {p : Pattern ρ}, p.Clear name → p.Reads name
  | .literal bs ignoreCase, _, limit, _, spaced, ls, h => by
    obtain ⟨l, _, hl, ⟨⟩, rfl⟩ := List.forall₂_cons_left_iff.mp h
    rw [reread]
    cases hq : quotable bs with
    | true =>
      rw [hq] at hl
      refine ⟨_, Derivation.Element.simple (.str (congrArg Token.kind hl.1)) limit, ?_, rfl⟩
      exact makes_str hq ignoreCase (congrArg Token.text hl.1)
    | false =>
      rw [hq] at hl
      have hnode : NumVal.node l.word.text = .ok (NumVal.bytesNode bs) := by
        rw [show l.word.text = _ from congrArg Token.text hl.1]
        exact NumVal.node_renderLiteral hq ignoreCase
      refine ⟨_, Derivation.Element.simple (.num (congrArg Token.kind hl.1)) limit, ?_, rfl⟩
      exact makes_num hnode (addPattern_ofBytes bs)
  | .charRange lo hi, hp, limit, _, spaced, ls, h => by
    obtain ⟨l, _, hl, ⟨⟩, rfl⟩ := List.forall₂_cons_left_iff.mp h
    have hnode : NumVal.node l.word.text = .ok (.charRange lo hi) := by
      rw [show l.word.text = _ from congrArg Token.text hl.1]
      exact NumVal.node_renderRange hp.1 hp.2
    refine ⟨_, Derivation.Element.simple (.num (congrArg Token.kind hl.1)) limit, ?_, rfl⟩
    exact makes_num hnode fun _ => rfl
  | .ruleRef r, _, limit, _, spaced, ls, h => by
    obtain ⟨l, _, hl, ⟨⟩, rfl⟩ := List.forall₂_cons_left_iff.mp h
    refine ⟨_, Derivation.Element.simple (.ref (congrArg Token.kind hl.1)) limit, ?_, rfl⟩
    rw [reread, ← show l.word.text = name r from congrArg Token.text hl.1]
    exact makes_ref l.word
  | .sequence ps, hp, limit, hheight, spaced, ls, h => by
    rw [marks] at h
    obtain ⟨es, hes, hmakes⟩ := exists_items hp.2 (Nat.lt_of_succ_le hheight) h
    match ps, hp.1 with
    | _ :: _ :: _, _ =>
      cases hmakes with | cons he hmakes =>
      cases hmakes with | cons hf hmakes =>
      cases hes with | cons h hs =>
      exact ⟨_, .several h hs, makes_concatenation (.cons he (.cons hf hmakes)) _, rfl⟩
  | .choice (p :: ps), hp, limit, hheight, spaced, ls, h => by
    rw [marks, operandMarks, List.nil_append] at h
    have hheights := Nat.max_lt.mp (Nat.lt_of_succ_le hheight)
    obtain ⟨ks, ms, rfl, hks, hms⟩ := exists_append h
    obtain ⟨e, he, hmake⟩ := Reads.operand_of_needsBrackets (reads_of_clear hp.2.1) hheights.1 hks
    obtain ⟨es, hes, hmakes⟩ := exists_branches hp.2.2 hheights.2 hms
    have he : Concatenation (Derivation.Element limit) ks e := he.mono (rank_operand_le false p)
    obtain ⟨l, ks, rfl, -⟩ := he.begins fun _ _ h => h.begins
    match ps, hp.1 with
    | _ :: _, _ =>
      cases hmakes with | cons hf hmakes =>
      exact ⟨_, .several he hes, makes_alternation (.cons hmake (.cons hf hmakes)) _, rfl⟩
  | .repetition _ _ _, hp, _, hheight, _, _, h => Reads.repetition (reads_of_clear hp.2.2) hp hheight h
  | .fold p, hp, limit, hheight, spaced, ls, h => by
    rw [marks] at h
    have hp : p.Clear name := hp
    obtain ⟨e, he, hmakes⟩ := Reads.operand (reads_of_clear hp) hheight h
    rw [reread, needsBrackets_true]
    exact ⟨e, he, hmakes, Derivation.Element.keepsBrackets_eq he⟩

theorem exists_items : ∀ {ps : List (Pattern ρ)}, ClearAll name ps → ∀ {limit : Nat}, heights ps < limit →
    ∀ {spaced : Bool} {ls : List Lexeme}, Forall₂ Mark.Of (operandMarks name true [] [] ps spaced) ls →
      ∃ es, Items (Derivation.Element limit) ls es ∧ Forall₂ Makes es (rereads name true ps)
  | [], _, _, _, _, ls, h => by
    cases h
    exact ⟨[], .nil, .nil⟩
  | p :: ps, ⟨hp, hps⟩, limit, hheight, spaced, ls, h => by
    rw [operandMarks, List.nil_append] at h
    obtain ⟨hheight, hheights⟩ := Nat.max_lt.mp hheight
    obtain ⟨ks, ms, rfl, hks, hms⟩ := exists_append h
    obtain ⟨e, he, hmake⟩ := Reads.operand_of_needsBrackets (reads_of_clear hp) hheight hks
    obtain ⟨es, hes, hmakes⟩ := exists_items hps hheights hms
    exact ⟨e :: es, .cons (he.mono (rank_operand_le true p)) hes, .cons hmake hmakes⟩

theorem exists_branches : ∀ {ps : List (Pattern ρ)}, ClearAll name ps → ∀ {limit : Nat}, heights ps < limit →
    ∀ {spaced : Bool} {ls : List Lexeme},
      Forall₂ Mark.Of (operandMarks name false [⟨true, .slash, "/"⟩] [⟨true, .slash, "/"⟩] ps spaced) ls →
      ∃ es, Branches (Derivation.Element limit) ls es ∧ Forall₂ Makes es (rereads name false ps)
  | [], _, _, _, _, ls, h => by
    cases h
    exact ⟨[], .nil, .nil⟩
  | p :: ps, ⟨hp, hps⟩, limit, hheight, spaced, ls, h => by
    rw [operandMarks, List.singleton_append, List.cons_append] at h
    obtain ⟨hheight, hheights⟩ := Nat.max_lt.mp hheight
    obtain ⟨l, rest, hl, hrest, rfl⟩ := List.forall₂_cons_left_iff.mp h
    obtain ⟨ks, ms, rfl, hks, hms⟩ := exists_append hrest
    obtain ⟨e, he, hmake⟩ := Reads.operand_of_needsBrackets (reads_of_clear hp) hheight hks
    obtain ⟨es, hes, hmakes⟩ := exists_branches hps hheights hms
    have hslash : l.kind = .slash := congrArg Token.kind hl.1
    exact ⟨e :: es, .cons hslash (he.mono (rank_operand_le false p)) hes, .cons hmake hmakes⟩

end

end Pattern

end Abnf
