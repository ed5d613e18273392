import Abnf.Binary.Decode
import Abnf.Proofs.Binary.Strings
import Abnf.Proofs.Except

/-! Patterns as they are written and read. Whatever strings are added later, a pattern is read back from its bytes
    with its rules spelled out, if it does not nest too deep (`readPattern_encodePattern`). An upper
    bound that is the greatest word comes back as none. -/

namespace Abnf

namespace Pattern

variable {ρ : Type}

mutual

/-- How many nodes of a pattern are inside one another. --/
def height : Pattern ρ → Nat
  | literal .. | charRange .. | ruleRef _ => 1
  | sequence ps | choice ps => heights ps + 1
  | repetition p _ _ | fold p => height p + 1

def heights : List (Pattern ρ) → Nat
  | [] => 0
  | p :: ps => max (height p) (heights ps)

end

/-- An upper bound as it is read: the greatest word stands for none. --/
def readMax (max : Option UInt32) : Option UInt32 := if max = some Binary.unbounded then none else max

mutual

/-- The pattern that is read for a pattern, whose rules go by name. --/
def spell (name : ρ → String) : Pattern ρ → Pattern String
  | literal bs ignoreCase => .literal bs ignoreCase
  | charRange lo hi => .charRange lo hi
  | sequence ps => .sequence (spells name ps)
  | choice ps => .choice (spells name ps)
  | repetition p min max => .repetition (spell name p) min (readMax max)
  | ruleRef r => .ruleRef (name r)
  | fold p => .fold (spell name p)

def spells (name : ρ → String) : List (Pattern ρ) → List (Pattern String)
  | [] => []
  | p :: ps => spell name p :: spells name ps

end

mutual

@[simp] theorem size_spell (name : ρ → String) : ∀ p : Pattern ρ, (p.spell name).size = p.size
  | literal .. | charRange .. | ruleRef _ => rfl
  | sequence ps | choice ps => congrArg (· + 1) (sizes_spells name ps)
  | repetition p _ _ | fold p => congrArg (· + 1) (size_spell name p)

@[simp] theorem sizes_spells (name : ρ → String) : ∀ ps : List (Pattern ρ), sizes (spells name ps) = sizes ps
  | [] => rfl
  | p :: ps => by rw [spells, sizes, sizes, size_spell name p, sizes_spells name ps]

end

end Pattern

namespace Binary

/-! ### What is written -/

section
variable {ρ : Type} (name : ρ → String)

mutual

theorem within_encodePattern : ∀ (p : Pattern ρ) (t : StringTable), t.Within (encodePattern name p t).2
  | .literal bs _, t => StringTable.within_intern bs t
  | .charRange .., t => StringTable.Within.refl t
  | .sequence ps, t | .choice ps, t => within_encodePatterns ps t
  | .repetition p _ _, t | .fold p, t => within_encodePattern p t
  | .ruleRef r, t => StringTable.within_intern (Utf8.bytes (name r)) t

theorem within_encodePatterns : ∀ (ps : List (Pattern ρ)) (t : StringTable), t.Within (encodePatterns name ps t).2
  | [], t => StringTable.Within.refl t
  | p :: ps, t => (within_encodePattern p t).trans (within_encodePatterns ps _)

end

mutual

/-- There is a byte at least for each node. --/
theorem size_le_encodePattern : ∀ (p : Pattern ρ) (t : StringTable), p.size ≤ (encodePattern name p t).1.length
  | .literal .., t | .charRange .., t | .ruleRef _, t => Nat.le_add_left 1 _
  | .sequence ps, t | .choice ps, t => by
    have := sizes_le_encodePatterns ps t
    simp only [Pattern.size, encodePattern, List.length_cons, List.length_append, Word.length_bytes]
    omega
  | .repetition p _ _, t => by
    have := size_le_encodePattern p t
    simp only [Pattern.size, encodePattern, List.length_cons, List.length_append, Word.length_bytes]
    omega
  | .fold p, t => Nat.succ_le_succ (size_le_encodePattern p t)

theorem sizes_le_encodePatterns : ∀ (ps : List (Pattern ρ)) (t : StringTable),
    Pattern.sizes ps ≤ (encodePatterns name ps t).1.length
  | [], t => Nat.le_refl 0
  | p :: ps, t => by
    have h₁ := size_le_encodePattern p t
    have h₂ := sizes_le_encodePatterns ps (encodePattern name p t).2
    simp only [Pattern.sizes, encodePatterns, List.length_append]
    omega

end

theorem size_pos : ∀ p : Pattern ρ, 0 < p.size
  | .literal .. | .charRange .. | .ruleRef _ | .sequence _ | .choice _ | .repetition .. | .fold _ => Nat.succ_pos _

theorem length_le_sizes : ∀ ps : List (Pattern ρ), ps.length ≤ Pattern.sizes ps
  | [] => Nat.le_refl 0
  | p :: ps => by
    have h₁ := size_pos p
    have h₂ := length_le_sizes ps
    simp only [List.length_cons, Pattern.sizes]
    omega

end

/-! ### What is read -/

theorem byte_cons (offset : Nat) (b : UInt8) (rest : List UInt8) :
    (Cursor.mk offset (b :: rest)).byte = .ok (b, ⟨offset + 1, rest⟩) := rfl

theorem word_append (offset : Nat) (w : UInt32) (rest : List UInt8) :
    (Cursor.mk offset (Word.bytes w ++ rest)).word = .ok (w, ⟨offset + 4, rest⟩) := by
  rw [Cursor.word, Word.read?_bytes_append]

theorem count_append (offset : Nat) {n : Nat} (hn : n < 2 ^ 32) {rest : List UInt8} (hle : n ≤ rest.length) :
    (Cursor.mk offset (Word.bytes (UInt32.ofNat n) ++ rest)).count = .ok (n, ⟨offset + 4, rest⟩) := by
  have hw : (UInt32.ofNat n).toNat = n := UInt32.toNat_ofNat_of_lt' hn
  rw [Cursor.count, word_append]
  show (if (UInt32.ofNat n).toNat ≤ rest.length then .ok ((UInt32.ofNat n).toNat, ⟨offset + 4, rest⟩)
    else .error (.truncated (offset + 4 + rest.length)) : Except FormatError (Nat × Cursor)) = _
  rw [hw, if_pos hle]

theorem ofByte?_byte (tag : Tag) : Tag.ofByte? tag.byte = some tag := by
  cases tag <;> rfl

/-- A table that fits into a file. --/
structure StringTable.Fits (u : StringTable) : Prop where
  size : u.entries.size < 2 ^ 32
  blob : u.blob.length < 2 ^ 32

/-- What comes of a reading that goes as deep as `height`. --/
def within {α : Type} (height levels : Nat) (x : α) : Except FormatError α :=
  if height ≤ levels then .ok x else .error .nestingTooDeep

theorem within_zero {α : Type} {height : Nat} (h : 0 < height) (x : α) : within height 0 x = .error .nestingTooDeep :=
  if_neg (Nat.not_le_of_lt h)

theorem height_pos {ρ : Type} : ∀ p : Pattern ρ, 0 < p.height
  | .literal .. | .charRange .. | .ruleRef _ | .sequence _ | .choice _ | .repetition .. | .fold _ => Nat.succ_pos _

/-- A reading that goes on after another. --/
theorem within_bind {α β : Type} (height levels : Nat) (x : α) (f : α → Except FormatError β) :
    (within height levels x >>= f) = if height ≤ levels then f x else .error .nestingTooDeep := by
  unfold within
  split <;> rfl

/-- A node around what has been read. --/
theorem within_node {α β : Type} (height levels : Nat) (x : α) (f : α → Except FormatError β) {y : β}
    (h : f x = .ok y) : (within height levels x >>= f) = within (height + 1) (levels + 1) y := by
  rw [within_bind, within, h]
  by_cases h : height ≤ levels
  · rw [if_pos h, if_pos (Nat.succ_le_succ h)]
  · rw [if_neg h, if_neg (fun h' => h (Nat.le_of_succ_le_succ h'))]

theorem within_one {α : Type} (levels : Nat) (x : α) : within 1 (levels + 1) x = .ok x :=
  if_pos (Nat.le_add_left 1 levels)

theorem flag_ne_zero (ignoreCase : Bool) :
    ((if ignoreCase then ignoreCaseFlag else 0) &&& ignoreCaseFlag != 0) = ignoreCase := by
  cases ignoreCase <;> rfl

theorem readMax_getD (max : Option UInt32) :
    (if max.getD unbounded = unbounded then none else some (max.getD unbounded)) = Pattern.readMax max := by
  cases max with
  | none => rfl
  | some m => simp [Pattern.readMax]

section
variable {ρ : Type} (name : ρ → String) {u : StringTable}

/-- Nodes behind their number, as the parts of a node. --/
theorem readCounted {ps : List (Pattern ρ)} {t : StringTable} {levels offset : Nat} {rest : List UInt8}
    (node : List (Pattern String) → Pattern String) (hlen : (encodePatterns name ps t).1.length < 2 ^ 32)
    (ih : readMany (readPattern u.view levels) ps.length ⟨offset + 1 + 4, (encodePatterns name ps t).1 ++ rest⟩ =
      within (Pattern.heights ps) levels
        (Pattern.spells name ps, ⟨offset + 1 + 4 + (encodePatterns name ps t).1.length, rest⟩)) :
    (do
      let (n, c) ← (Cursor.mk (offset + 1)
        (Word.bytes (UInt32.ofNat ps.length) ++ ((encodePatterns name ps t).1 ++ rest))).count
      let (ps, c) ← readMany (readPattern u.view levels) n c
      return (node ps, c) : Except FormatError (Pattern String × Cursor)) =
      within (Pattern.heights ps + 1) (levels + 1)
        (node (Pattern.spells name ps), ⟨offset + (4 + (encodePatterns name ps t).1.length + 1), rest⟩) := by
  have hsizes := sizes_le_encodePatterns name ps t
  have hlength := length_le_sizes ps
  rw [count_append (offset + 1) (by omega) (by rw [List.length_append]; omega), ok_bind]
  dsimp only
  rw [ih]
  refine within_node _ levels _ _ ?_
  rw [show offset + 1 + 4 + (encodePatterns name ps t).1.length =
    offset + (4 + (encodePatterns name ps t).1.length + 1) by omega]
  rfl

mutual

theorem readPattern_encodePattern (hu : u.Fits) : ∀ (p : Pattern ρ) (t : StringTable) (levels offset : Nat)
    (rest : List UInt8), (encodePattern name p t).2.Within u → (encodePattern name p t).1.length < 2 ^ 32 →
    readPattern u.view levels ⟨offset, (encodePattern name p t).1 ++ rest⟩ =
      within p.height levels (p.spell name, ⟨offset + (encodePattern name p t).1.length, rest⟩)
  | p, t, 0, offset, rest, _, _ => (within_zero (height_pos p) _).symm
  | .literal bs ignoreCase, t, levels + 1, offset, rest, hw, _ => by
    have hget := StringTable.get_view ((StringTable.holds_intern bs t
      (Nat.le_trans hw.size_le (Nat.le_of_lt hu.size))).within hw) hu.size hu.blob
    simp only [encodePattern, List.cons_append, readPattern, byte_cons, ok_bind, ofByte?_byte, word_append, hget,
      flag_ne_zero, Pattern.height, within_one, Pattern.spell, List.length_cons, Word.length_bytes]
    rfl
  | .charRange lo hi, t, levels + 1, offset, rest, _, _ => by
    simp only [encodePattern, List.cons_append, List.append_assoc, readPattern, byte_cons, ok_bind, ofByte?_byte,
      word_append, Pattern.height, within_one, Pattern.spell, List.length_cons, List.length_append, Word.length_bytes]
    rfl
  | .sequence ps, t, levels + 1, offset, rest, hw, hlen => by
    simp only [encodePattern, List.length_cons, List.length_append, Word.length_bytes] at hlen
    simp only [encodePattern, List.cons_append, List.append_assoc, readPattern, byte_cons, ok_bind, ofByte?_byte,
      List.length_cons, List.length_append, Word.length_bytes, Pattern.height, Pattern.spell]
    exact readCounted name .sequence (by omega)
      (readMany_encodePatterns hu ps t levels (offset + 1 + 4) rest hw (by omega))
  | .choice ps, t, levels + 1, offset, rest, hw, hlen => by
    simp only [encodePattern, List.length_cons, List.length_append, Word.length_bytes] at hlen
    simp only [encodePattern, List.cons_append, List.append_assoc, readPattern, byte_cons, ok_bind, ofByte?_byte,
      List.length_cons, List.length_append, Word.length_bytes, Pattern.height, Pattern.spell]
    exact readCounted name .choice (by omega)
      (readMany_encodePatterns hu ps t levels (offset + 1 + 4) rest hw (by omega))
  | .repetition p min max, t, levels + 1, offset, rest, hw, hlen => by
    simp only [encodePattern, List.length_cons, List.length_append, Word.length_bytes] at hlen
    have ih := readPattern_encodePattern hu p t levels (offset + 1 + 4 + 4) rest hw (by omega)
    simp only [encodePattern, List.cons_append, List.append_assoc, readPattern, byte_cons, ok_bind, ofByte?_byte,
      word_append, ih, readMax_getD, Pattern.height, Pattern.spell]
    refine within_node _ levels _ _ ?_
    simp only [List.length_cons, List.length_append, Word.length_bytes]
    rw [show offset + 1 + 4 + 4 + (encodePattern name p t).1.length =
      offset + (4 + (4 + (encodePattern name p t).1.length) + 1) by omega]
    rfl
  | .ruleRef r, t, levels + 1, offset, rest, hw, _ => by
    have hget := StringTable.getText_view ((StringTable.holds_intern (Utf8.bytes (name r)) t
      (Nat.le_trans hw.size_le (Nat.le_of_lt hu.size))).within hw) hu.size hu.blob
    simp only [encodePattern, List.cons_append, readPattern, byte_cons, ok_bind, ofByte?_byte, word_append, hget,
      Pattern.height, within_one, Pattern.spell, List.length_cons, Word.length_bytes]
    rfl
  | .fold p, t, levels + 1, offset, rest, hw, hlen => by
    simp only [encodePattern, List.length_cons] at hlen
    have ih := readPattern_encodePattern hu p t levels (offset + 1) rest hw (by omega)
    simp only [encodePattern, List.cons_append, readPattern, byte_cons, ok_bind, ofByte?_byte, ih, Pattern.height,
      Pattern.spell]
    refine within_node _ levels _ _ ?_
    simp only [List.length_cons]
    rw [show offset + 1 + (encodePattern name p t).1.length = offset + ((encodePattern name p t).1.length + 1) by omega]
    rfl

theorem readMany_encodePatterns (hu : u.Fits) : ∀ (ps : List (Pattern ρ)) (t : StringTable) (levels offset : Nat)
    (rest : List UInt8), (encodePatterns name ps t).2.Within u → (encodePatterns name ps t).1.length < 2 ^ 32 →
    readMany (readPattern u.view levels) ps.length ⟨offset, (encodePatterns name ps t).1 ++ rest⟩ =
      within (Pattern.heights ps) levels
        (Pattern.spells name ps, ⟨offset + (encodePatterns name ps t).1.length, rest⟩)
  | [], t, levels, offset, rest, _, _ => (if_pos (Nat.zero_le _)).symm
  | p :: ps, t, levels, offset, rest, hw, hlen => by
    simp only [encodePatterns, List.length_append] at hlen
    have ih := readPattern_encodePattern hu p t levels offset
      ((encodePatterns name ps (encodePattern name p t).2).1 ++ rest) ((within_encodePatterns name ps _).trans hw) (by omega)
    have ihs := readMany_encodePatterns hu ps (encodePattern name p t).2 levels
      (offset + (encodePattern name p t).1.length) rest hw (by omega)
    simp only [encodePatterns, List.append_assoc, List.length_cons, List.length_append, readMany, ih, within_bind, ihs,
      Pattern.heights, Pattern.spells]
    by_cases h₁ : p.height ≤ levels
    · rw [if_pos h₁]
      by_cases h₂ : Pattern.heights ps ≤ levels
      · rw [if_pos h₂, within, if_pos (Nat.max_le.mpr ⟨h₁, h₂⟩), Nat.add_assoc]
        rfl
      · rw [if_neg h₂, within, if_neg fun h => h₂ (Nat.max_le.mp h).2]
    · rw [if_neg h₁, within, if_neg fun h => h₁ (Nat.max_le.mp h).1]

end

end

end Binary
end Abnf
