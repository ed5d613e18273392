import Abnf.Proofs.Compile.Validity
import Abnf.Proofs.Match.Reading

/-! Values with dots between them, and the same values one after the other. Each of the values has to be one by itself, and
    none may be a surrogate, which is a code point but no character. The two are not always the same to match: alone a
    value below 0x100 is a byte, but beside a greater one it is a character, which has two bytes from 0x80 on. So they
    match alike just if none of the values is greater, or none of them lies between the two (`node_spell`). -/

namespace Abnf
namespace NumVal

open Match
open List (Forall₂)

/-! ### Single values -/

/-- The bytes that a value stands for by itself. --/
def ownBytes (v : UInt32) : List UInt8 :=
  if v < byteLimit then [v.toUInt8] else String.utf8EncodeChar (Char.ofNat v.toNat)

theorem val_ofNat {v : UInt32} (hv : v.isValidChar) : (Char.ofNat v.toNat).val = v :=
  congrArg Char.val (Char.ofNat_toNat ⟨v, hv⟩)

/-- A value that is a character is read from its own bytes. --/
theorem charRange?_own (input : ByteArray) {v : UInt32} (hv : v.isValidChar) (pos : Nat) :
    charRange? input v v pos = literal? input (ownBytes v) false pos := by
  rw [ownBytes]
  split
  · rename_i hlim
    have hlt : v.toNat < 0x100 := UInt32.lt_iff_toNat_lt.mp hlim
    have hback : v.toUInt8.toUInt32 = v := by
      rw [← UInt32.toNat_inj, UInt8.toNat_toUInt32, UInt32.toNat_toUInt8]
      omega
    rw [charRange?_byte input hback, literal?_byte]
    cases input[pos]? with
    | none => rfl
    | some b =>
      have hsame : sameByte false v.toUInt8 b = true ↔ some b = some v.toUInt8 := by
        rw [sameByte, if_neg Bool.false_ne_true, beq_iff_eq, Option.some.injEq, eq_comm]
      simp only [Option.any_some, hsame]
  · rename_i hlim
    rw [literal?_encode, charRange?_char input (val_ofNat hv) hlim]

/-! ### Values one after the other -/

/-- A node comes to what others do one after the other, wherever it is matched. --/
def Chains (n : Node) (ms : List Node) : Prop :=
  ∀ (σ : Setting) (i j : NodeId) (is : List NodeId), σ.grammar.nodes[i]? = some n →
    σ.grammar.nodes[j]? = some (.sequence is) → Forall₂ (fun k m => σ.grammar.nodes[k]? = some m) is ms →
    ∀ (fuel pos : Nat) (t : Trail), evaluate σ (fuel + 2) i pos t = evaluate σ (fuel + 2) j pos t

theorem sequence_own {input : ByteArray} {child : Evaluator} {is : List NodeId} {values : List UInt32}
    (h : Forall₂ (fun i v => ∀ pos t, child i pos t = leaf (literal? input (ownBytes v) false pos) t) is values) :
    ∀ (pos : Nat) (t : Trail), pos ≤ input.size ∨ values ≠ [] →
      Match.sequence child t.mark is pos t = leaf (literal? input (values.flatMap ownBytes) false pos) t := by
  induction h with
  | nil =>
    intro pos t hpos
    have hread : literal? input [] false pos = some pos := if_pos ⟨hpos.resolve_right (absurd rfl), rfl⟩
    rw [List.flatMap_nil, hread]
    rfl
  | cons hchild _ ih =>
    intro pos t _
    rw [Match.sequence, hchild, List.flatMap_cons, literal?_concat]
    cases hfirst : literal? input (ownBytes _) false pos with
    | none =>
      have hback : t.backTo t.mark = t := by simp [Trail.backTo, Trail.mark]
      rw [leaf, Option.bind_none]
      dsimp only
      rw [hback]
      rfl
    | some stop => exact ih stop t (.inl (le_of_literal? hfirst))

section
variable {values : List UInt32}

/-- Characters one after the other are read from their own bytes. --/
theorem evaluate_values {σ : Setting} (hchars : ∀ v ∈ values, v.isValidChar) (hne : values ≠ []) {j : NodeId}
    {is : List NodeId} (hj : σ.grammar.nodes[j]? = some (.sequence is))
    (his : Forall₂ (fun k m => σ.grammar.nodes[k]? = some m) is (values.map .char)) (fuel pos : Nat) (t : Trail) :
    evaluate σ (fuel + 2) j pos t = leaf (literal? σ.input (values.flatMap ownBytes) false pos) t := by
  rw [evaluate, hj]
  refine sequence_own ?_ pos t (.inr hne)
  have hread : ∀ (k : NodeId) (v : UInt32), v.isValidChar ∧ σ.grammar.nodes[k]? = some (.char v) → ∀ pos t,
      evaluate σ (fuel + 1) k pos t = leaf (literal? σ.input (ownBytes v) false pos) t := by
    rintro k v ⟨hv, hk⟩ pos t
    rw [evaluate, hk, ← charRange?_own σ.input hv]
    rfl
  rw [List.forall₂_map_right_iff] at his
  have hall := (List.forall₂_and_left values is).mpr ⟨hchars, his.flip⟩
  exact (hall.imp fun v k => hread k v).flip

theorem forall₂_range' {α : Type} : ∀ (front rest : List α),
    Forall₂ (fun k x => (front ++ rest)[k]? = some x) (List.range' front.length rest.length) rest
  | _, [] => .nil
  | front, x :: rest => by
    have ih := forall₂_range' (front ++ [x]) rest
    rw [List.append_assoc, List.singleton_append, List.length_append, List.length_singleton] at ih
    rw [List.length_cons, List.range'_succ]
    exact .cons (by simp) ih

/-- A literal matches like characters one after the other just if it has their own bytes. --/
theorem chains_iff (hchars : ∀ v ∈ values, v.isValidChar) (hne : values ≠ []) {bs : List UInt8} :
    Chains (.literal bs false) (values.map .char) ↔ bs = values.flatMap ownBytes := by
  have hliteral : ∀ {σ : Setting} {i : NodeId}, σ.grammar.nodes[i]? = some (.literal bs false) → ∀ fuel pos t,
      evaluate σ (fuel + 2) i pos t = leaf (literal? σ.input bs false pos) t := by
    intro σ i hi fuel pos t
    rw [evaluate, hi]
    rfl
  constructor
  · intro h
    -- Both are to match the bytes of the literal.
    let nodes : List Node := .literal bs false :: .sequence (List.range' 2 values.length) :: values.map .char
    let σ : Setting := ⟨⟨"", nodes.toArray, #[], none⟩, ⟨bs.toArray⟩, fun _ => false⟩
    have hi : σ.grammar.nodes[0]? = some (.literal bs false) := rfl
    have hj : σ.grammar.nodes[1]? = some (.sequence (List.range' 2 values.length)) := rfl
    have his : Forall₂ (fun k m => σ.grammar.nodes[k]? = some m) (List.range' 2 values.length) (values.map .char) := by
      have hall := forall₂_range' [.literal bs false, .sequence (List.range' 2 values.length)] (values.map Node.char)
      rw [List.length_map] at hall
      exact hall.imp fun k m hk => List.getElem?_toArray.trans hk
    have hsame := h σ 0 1 _ hi hj his 0 0 Trail.empty
    have hread : literal? σ.input bs false 0 = some (0 + bs.length) := by
      refine if_pos ⟨Nat.zero_le _, ?_⟩
      simp [bytesAt_eq, σ]
    rw [hliteral hi, evaluate_values hchars hne hj his, hread] at hsame
    cases hown : literal? σ.input (values.flatMap ownBytes) false 0 with
    | none =>
      rw [hown] at hsame
      cases hsame
    | some stop =>
      rw [hown] at hsame
      have hstop : 0 + bs.length = stop := by
        simp only [leaf, Option.some.injEq, Prod.mk.injEq, Outcome.matched.injEq, and_true] at hsame
        exact hsame
      rw [← hstop, literal?, Option.ite_none_right_eq_some, Option.some.injEq, bytesAt_eq, decide_eq_true_eq] at hown
      obtain ⟨⟨-, hbytes⟩, hlength⟩ := hown
      have hlength : (values.flatMap ownBytes).length = bs.length := by omega
      have hbytes : bs.take (values.flatMap ownBytes).length = values.flatMap ownBytes := by simpa [σ] using hbytes
      rwa [hlength, List.take_length] at hbytes
  · rintro rfl σ i j is hi hj his fuel pos t
    rw [hliteral hi, evaluate_values hchars hne hj his]

end

/-! ### Values side by side -/

/-- The bytes that a value stands for beside one that is no byte: those of its character. --/
def wideBytes (v : UInt32) : List UInt8 := String.utf8EncodeChar (Char.ofNat v.toNat)

/-- A value that stands for the same by itself and beside any other. --/
def Steady (v : UInt32) : Prop := v < 0x80 ∨ byteLimit ≤ v

section
variable {v : UInt32} {values : List UInt32}

theorem ownBytes_of_steady (hv : v.isValidChar) (h : Steady v) : ownBytes v = wideBytes v := by
  rw [ownBytes, wideBytes]
  rcases h with hlt | hle
  · have hlt' : v.toNat < 0x80 := UInt32.lt_iff_toNat_lt.mp hlt
    have hlim : v < byteLimit := UInt32.lt_iff_toNat_lt.mpr (Nat.lt_trans hlt' (by decide))
    rw [if_pos hlim, utf8EncodeChar_ascii (by rwa [val_ofNat hv]), val_ofNat hv]
  · rw [if_neg (UInt32.not_lt.mpr hle)]

theorem length_ownBytes_le (v : UInt32) : (ownBytes v).length ≤ (wideBytes v).length := by
  rw [ownBytes, wideBytes]
  split
  · rw [String.length_utf8EncodeChar]
    exact (Char.ofNat v.toNat).utf8Size_pos
  · exact Nat.le_refl _

/-- Any other value has more bytes beside a greater one than by itself. --/
theorem steady_of_length_le (hv : v.isValidChar) (h : (wideBytes v).length ≤ (ownBytes v).length) : Steady v := by
  rw [ownBytes, wideBytes, String.length_utf8EncodeChar] at h
  split at h
  · have hsize : (Char.ofNat v.toNat).utf8Size = 1 := Nat.le_antisymm h (Char.ofNat v.toNat).utf8Size_pos
    have hle := Char.utf8Size_eq_one_iff.mp hsize
    rw [val_ofNat hv, UInt32.le_iff_toNat_le] at hle
    exact .inl (UInt32.lt_iff_toNat_lt.mpr (Nat.lt_succ_of_le hle))
  · exact .inr (UInt32.not_lt.mp ‹_›)

theorem length_flatMap_own_le (values : List UInt32) :
    (values.flatMap ownBytes).length ≤ (values.flatMap wideBytes).length := by
  induction values with
  | nil => exact Nat.le_refl _
  | cons v values ih =>
    rw [List.flatMap_cons, List.flatMap_cons, List.length_append, List.length_append]
    exact Nat.add_le_add (length_ownBytes_le v) ih

theorem steady_of_flatMap_length_le (hchars : ∀ v ∈ values, v.isValidChar)
    (h : (values.flatMap wideBytes).length ≤ (values.flatMap ownBytes).length) : ∀ v ∈ values, Steady v := by
  induction values with
  | nil => exact List.forall_mem_nil _
  | cons v values ih =>
    obtain ⟨hv, hchars⟩ := List.forall_mem_cons.mp hchars
    rw [List.flatMap_cons, List.flatMap_cons, List.length_append, List.length_append] at h
    have hfirst := length_ownBytes_le v
    have hrest := length_flatMap_own_le values
    exact List.forall_mem_cons.mpr ⟨steady_of_length_le hv (by omega), ih hchars (by omega)⟩

/-- Values with dots between have their own bytes just if each fits in a byte, or each is steady. --/
theorem bytes_eq_own_iff (hchars : ∀ v ∈ values, v.isValidChar) :
    bytes (values.map UInt32.toNat) = values.flatMap ownBytes ↔
      (∀ v ∈ values, v < byteLimit) ∨ ∀ v ∈ values, Steady v := by
  have hall : (values.map UInt32.toNat).all (· < 0x100) = true ↔ ∀ v ∈ values, v < byteLimit := by
    have hlim : ∀ v : UInt32, v < byteLimit ↔ v.toNat < 0x100 := fun v => UInt32.lt_iff_toNat_lt
    simp only [List.all_map, List.all_eq_true, Function.comp_apply, decide_eq_true_eq, hlim]
  rw [bytes]
  by_cases hbytes : ∀ v ∈ values, v < byteLimit
  · rw [if_pos (hall.mpr hbytes), List.map_map]
    refine iff_of_true ?_ (.inl hbytes)
    have hown : values.flatMap ownBytes = values.flatMap fun v => [v.toUInt8] :=
      List.flatMap_congr fun v hv => if_pos (hbytes v hv)
    rw [hown, List.map_eq_flatMap]
    rfl
  · rw [if_neg (mt hall.mp hbytes), List.flatMap_map, or_iff_right hbytes]
    constructor
    · intro h
      exact steady_of_flatMap_length_le hchars (Nat.le_of_eq (congrArg List.length h))
    · intro h
      exact List.flatMap_congr fun v hv => (ownBytes_of_steady (hchars v hv) (h v hv)).symm

end

/-! ### Spelled values -/

/-- A numeric value with these between its dots. --/
def spell (mark : Char) (pieces : List (List Char)) : String := String.ofList ('%' :: mark :: ['.'].intercalate pieces)

section
variable {mark : Char} {piece : List Char} {pieces : List (List Char)}

/-- A value by itself is a code point. --/
theorem node_spell_single (hdot : '.' ∉ piece) (hdash : '-' ∉ piece) {m : Node} : node (spell mark [piece]) = .ok m ↔
    ∃ base, base? mark = some base ∧ ∃ v, codePoint base piece = .ok v ∧ m = .char v := by
  rw [node, spell, String.toList_ofList, List.intercalate_singleton]
  dsimp only
  cases base? mark with
  | none =>
    constructor
    · rintro ⟨⟩
    · rintro ⟨_, ⟨⟩, _⟩
  | some base =>
    dsimp only
    rw [if_neg (by simpa using hdash), if_neg (by simpa using hdot), bind_eq_ok]
    simp only [Option.some.injEq, exists_eq_left', Except.ok.injEq, eq_comm (a := m)]

/-- Values with dots between are code points that belong together. --/
theorem node_spell_many (hmany : 2 ≤ pieces.length) (hplain : ∀ piece ∈ pieces, '.' ∉ piece ∧ '-' ∉ piece) {n : Node} :
    node (spell mark pieces) = .ok n ↔
      ∃ base, base? mark = some base ∧ ∃ values, pieces.mapM (codePoint base) = .ok values ∧ dotted values = .ok n := by
  have hdash : '-' ∉ ['.'].intercalate pieces := not_mem_intercalate (by decide) fun piece h => (hplain piece h).2
  have hdot : '.' ∈ ['.'].intercalate pieces := mem_intercalate hmany
  have hsplit : Digits.split '.' (['.'].intercalate pieces) = pieces :=
    Digits.split_intercalate (List.ne_nil_of_length_pos (by omega)) fun piece h => (hplain piece h).1
  rw [node, spell, String.toList_ofList]
  dsimp only
  cases base? mark with
  | none =>
    constructor
    · rintro ⟨⟩
    · rintro ⟨_, ⟨⟩, _⟩
  | some base =>
    dsimp only
    rw [if_neg (by simpa using hdash), if_pos (by simpa using hdot), hsplit, bind_eq_ok]
    simp only [Option.some.injEq, exists_eq_left']

theorem le_of_codePoints {base : Nat} {values : List UInt32} (h : pieces.mapM (codePoint base) = .ok values) :
    ∀ v ∈ values, v.toNat ≤ 0x10FFFF := by
  have hpoints : Forall₂ (Point base) pieces (values.map UInt32.toNat) := by
    rw [List.forall₂_map_right_iff]
    exact (forall₂_of_mapM h).imp fun _ _ => codePoint_iff.mp
  exact List.forall_mem_map.mp (le_of_points hpoints)

/-- Code points belong together just if all are characters. --/
theorem dotted_codePoints_iff {base : Nat} {values : List UInt32} (h : pieces.mapM (codePoint base) = .ok values) :
    (∃ n, dotted values = .ok n) ↔ ∀ v ∈ values, v.isValidChar := by
  have hle := le_of_codePoints h
  rw [exists_dotted_iff hle]
  exact forall₂_congr fun v hv => (isValidChar_iff (hle v hv)).symm

/-- Values with dots between, and each of them alone. They make sense together just if each does alone, and none of them is
    a surrogate. Then they are a literal, and whatever nodes the single values are, the literal matches like these one
    after the other just if all values are below 0x100, or none of them lies between 0x80 and that. --/
theorem node_spell (mark : Char) (pieces : List (List Char)) (hmany : 2 ≤ pieces.length)
    (hplain : ∀ piece ∈ pieces, '.' ∉ piece ∧ '-' ∉ piece) :
    ((∃ n, node (spell mark pieces) = .ok n) ↔
      ∀ piece ∈ pieces, ∃ v, node (spell mark [piece]) = .ok (.char v) ∧ v.isValidChar) ∧
    ∀ n ms, node (spell mark pieces) = .ok n → Forall₂ (fun piece m => node (spell mark [piece]) = .ok m) pieces ms →
      ∃ (bs : List UInt8) (values : List UInt32), n = .literal bs false ∧ ms = values.map .char ∧
        (Chains n ms ↔ (∀ v ∈ values, v < byteLimit) ∨ ∀ v ∈ values, v < 0x80 ∨ byteLimit ≤ v) := by
  have hsingle : ∀ piece ∈ pieces, ∀ m, node (spell mark [piece]) = .ok m ↔
      ∃ base, base? mark = some base ∧ ∃ v, codePoint base piece = .ok v ∧ m = .char v :=
    fun piece h m => node_spell_single (hplain piece h).1 (hplain piece h).2
  have hne : pieces ≠ [] := List.ne_nil_of_length_pos (by omega)
  simp only [node_spell_many hmany hplain]
  constructor
  · constructor
    · rintro ⟨n, base, hbase, values, hvalues, hn⟩ piece hpiece
      have hchars := (dotted_codePoints_iff hvalues).mp ⟨n, hn⟩
      obtain ⟨v, hv, hchar⟩ := (exists_mapM_and_iff UInt32.isValidChar).mp ⟨values, hvalues, hchars⟩ piece hpiece
      exact ⟨v, (hsingle piece hpiece _).mpr ⟨base, hbase, v, hv, rfl⟩, hchar⟩
    · intro h
      obtain ⟨first, hfirst⟩ := List.exists_mem_of_ne_nil pieces hne
      obtain ⟨_, hnode, -⟩ := h first hfirst
      obtain ⟨base, hbase, -⟩ := (hsingle first hfirst _).mp hnode
      have hall : ∀ piece ∈ pieces, ∃ v, codePoint base piece = .ok v ∧ v.isValidChar := by
        intro piece hpiece
        obtain ⟨v, hnode, hchar⟩ := h piece hpiece
        obtain ⟨base', hbase', v', hv, heq⟩ := (hsingle piece hpiece _).mp hnode
        cases hbase.symm.trans hbase'
        cases heq
        exact ⟨v, hv, hchar⟩
      obtain ⟨values, hvalues, hchars⟩ := (exists_mapM_and_iff UInt32.isValidChar).mpr hall
      obtain ⟨n, hn⟩ := (dotted_codePoints_iff hvalues).mpr hchars
      exact ⟨n, base, hbase, values, hvalues, hn⟩
  · rintro n ms ⟨base, hbase, values, hvalues, hn⟩ hms
    have hchars := (dotted_codePoints_iff hvalues).mp ⟨n, hn⟩
    have heach : Forall₂ (fun piece m => node (spell mark [piece]) = .ok m) pieces (values.map .char) := by
      rw [List.forall₂_map_right_iff]
      have hall := (List.forall₂_and_left pieces values).mpr ⟨hsingle, forall₂_of_mapM hvalues⟩
      exact hall.imp fun piece v h => (h.1 _).mpr ⟨base, hbase, v, h.2, rfl⟩
    have hsame : values.map .char = ms := Except.ok.inj ((mapM_eq_ok.mpr heach).symm.trans (mapM_eq_ok.mpr hms))
    have hnone : values ≠ [] := by
      rintro rfl
      cases forall₂_of_mapM hvalues
      exact hne rfl
    refine ⟨_, values, literal_of_dotted hn, hsame.symm, ?_⟩
    rw [literal_of_dotted hn, ← hsame, chains_iff hchars hnone]
    exact bytes_eq_own_iff hchars

/-- A letter and a euro sign. --/
theorem node_spell_euro :
    let pieces := [['4', '1'], ['2', '0', 'A', 'C']]
    2 ≤ pieces.length ∧ (∀ piece ∈ pieces, '.' ∉ piece ∧ '-' ∉ piece) ∧
      node "%x41.20AC" = .ok (.literal [0x41, 0xE2, 0x82, 0xAC] false) ∧
      Chains (.literal [0x41, 0xE2, 0x82, 0xAC] false) [.char 0x41, .char 0x20AC] := by
  intro pieces
  have hmany : 2 ≤ pieces.length := by decide
  have hplain : ∀ piece ∈ pieces, '.' ∉ piece ∧ '-' ∉ piece := by decide
  have hspell : spell 'x' pieces = "%x41.20AC" := by decide
  have hnode : node (spell 'x' pieces) = .ok (.literal [0x41, 0xE2, 0x82, 0xAC] false) := by
    rw [hspell]
    rfl
  have hsingle : Forall₂ (fun piece m => node (spell 'x' [piece]) = .ok m) pieces [.char 0x41, .char 0x20AC] :=
    .cons rfl (.cons rfl .nil)
  obtain ⟨_, values, -, hvalues, hiff⟩ := (node_spell 'x' pieces hmany hplain).2 _ _ hnode hsingle
  have hinj : Function.Injective Node.char := fun _ _ h => (Node.charRange.inj h).1
  have hsame : [0x41, 0x20AC] = values := List.map_injective_iff.mpr hinj hvalues
  subst hsame
  have hsteady : ∀ v ∈ [(0x41 : UInt32), 0x20AC], v < 0x80 ∨ byteLimit ≤ v :=
    List.forall_mem_cons.mpr ⟨.inl (by decide), List.forall_mem_singleton.mpr (.inr (by decide))⟩
  exact ⟨hmany, hplain, hspell ▸ hnode, hiff.mpr (.inr hsteady)⟩

/-- Beside another letter, é is no byte but a character. And a surrogate stands with nothing. --/
theorem node_accents_apart :
    let nodes : Array Node := #[.literal [0xC3, 0xA9, 0xC4, 0x80] false, .sequence [2, 3], .char 0xE9, .char 0x100]
    let σ : Setting := ⟨⟨"", nodes, #[], none⟩, ⟨#[0xE9, 0xC4, 0x80]⟩, fun _ => false⟩
    node "%xE9.100" = .ok (.literal [0xC3, 0xA9, 0xC4, 0x80] false) ∧ node "%xE9" = .ok (.char 0xE9) ∧
      node "%x100" = .ok (.char 0x100) ∧
      evaluate σ 2 0 0 Trail.empty = some (.noMatch, Trail.empty) ∧
      evaluate σ 2 1 0 Trail.empty = some (.matched 3, Trail.empty) ∧
      node "%xD800.41" = .error .invalidNumber ∧ node "%xD800" = .ok (.char 0xD800) ∧ node "%x41" = .ok (.char 0x41) := by
  exact ⟨rfl, rfl, rfl, rfl, rfl, rfl, rfl, rfl⟩

end

end NumVal
end Abnf
