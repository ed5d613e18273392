import Abnf.Proofs.Binary.Acceptance
import Abnf.Proofs.Binary.Machine

/-! Reading a file comes to an answer whatever its bytes are (`answers_of_bytes`). Once its header has passed, the offsets
    of a file are small and its sections lie inside it. While the records are read, the decoder has passed
    over more bytes than it has met nodes and made places for names (`Decoder.Sound`): each node takes a
    byte, a reference and the name of a rule take four more. So no count outgrows its word, and the grammar
    has room for each node. A node is read at a depth that leaves room on the stack for all depths that are
    not refused. -/

namespace Abnf

/-! ### The size of a grammar -/

namespace Grammar

mutual

theorem size_addPattern : ∀ (p : Pattern String) (g : Grammar), (g.addPattern p).2.nodes.size = g.nodes.size + p.size
  | .literal .., _ | .charRange .., _ => Array.size_push _
  | .sequence ps, g | .choice ps, g =>
    (Array.size_push _).trans (congrArg (· + 1) (size_addPatterns ps g))
  | .repetition p _ _, g | .fold p, g => (Array.size_push _).trans (congrArg (· + 1) (size_addPattern p g))
  | .ruleRef name, g =>
    (Array.size_push _).trans (congrArg (fun nodes => nodes.size + 1) (nodes_declare g name))

theorem size_addPatterns : ∀ (ps : List (Pattern String)) (g : Grammar),
    (g.addPatterns ps).2.nodes.size = g.nodes.size + Pattern.sizes ps
  | [], _ => rfl
  | p :: ps, g => by
    rw [addPatterns]
    dsimp only
    rw [size_addPatterns ps, size_addPattern p g, Pattern.sizes, Nat.add_assoc]

end

theorem declare_le (g : Grammar) (name : String) :
    (g.declare name).1 ≤ g.slots.size ∧ (g.declare name).2.slots.size ≤ g.slots.size + 1 := by
  cases h : g.find? name with
  | some r =>
    rw [declare_eq_self g h]
    exact ⟨Nat.le_of_lt (lt_size_of_find? h), Nat.le_succ _⟩
  | none =>
    rw [declare, h]
    exact ⟨Nat.le_refl _, (Array.size_push _).le⟩

end Grammar

namespace Binary.Machine

open Checked

/-! ### Words -/

section
variable {ε : Type}

theorem wordAt_append (front rest : List UInt8) (w : UInt32) {offset : Nat} (hfront : offset = front.length)
    (hoffset : offset + 3 < 2 ^ 64) : (wordAt (front ++ (Word.bytes w ++ rest)) offset : Checked ε _) = .ok w := by
  subst hfront
  rw [wordAt, add_eq (by omega), add_eq (by omega), add_eq hoffset]
  simp [Word.bytes, ok_bind, Word.ofBytes_bytes, pure, Except.pure]

theorem wordAt_eq {bs : List UInt8} {offset : Nat} (hbs : offset + 4 ≤ bs.length) (hoffset : offset + 3 < 2 ^ 64) :
    (wordAt bs offset : Checked ε _) = .ok (Header.wordAt bs offset) := by
  have hsplit : bs = bs.take offset ++ (Word.bytes (Header.wordAt bs offset) ++ bs.drop (offset + 4)) := by
    rw [Header.bytes_wordAt hbs, ← List.drop_drop, List.take_append_drop, List.take_append_drop]
  have hfront : offset = (bs.take offset).length := (List.length_take_of_le (by omega)).symm
  have h := wordAt_append (ε := ε) _ (bs.drop (offset + 4)) (Header.wordAt bs offset) hfront hoffset
  rwa [← hsplit] at h

theorem wordAt_flatMap {ws : List UInt32} {k : Nat} {w : UInt32} (hk : ws[k]? = some w) (hlt : k * 4 + 3 < 2 ^ 64) :
    (wordAt (ws.flatMap Word.bytes) (k * 4) : Checked ε _) = .ok w := by
  obtain ⟨hlen, rfl⟩ := List.getElem?_eq_some_iff.mp hk
  have hsplit : ws.flatMap Word.bytes =
      (ws.take k).flatMap Word.bytes ++ (Word.bytes ws[k] ++ (ws.drop (k + 1)).flatMap Word.bytes) := by
    conv_lhs => rw [← List.take_append_drop k ws, List.drop_eq_getElem_cons hlen]
    rw [List.flatMap_append, List.flatMap_cons]
  have hfront : k * 4 = ((ws.take k).flatMap Word.bytes).length := by
    rw [Word.length_flatMap_bytes, List.length_take_of_le (Nat.le_of_lt hlen)]
  rw [hsplit, wordAt_append _ _ _ hfront hlt]

/-! ### Headers -/

theorem take_four : ∀ {bs : List UInt8} (h : 4 ≤ bs.length), bs.take 4 = [bs[0], bs[1], bs[2], bs[3]]
  | _ :: _ :: _ :: _ :: _, _ => rfl

theorem header_eq {bs : List UInt8} {h : Header} (hh : Header.ofBytes? bs = some h) :
    (header bs : Checked ε _) = .ok h := by
  unfold Header.ofBytes? at hh
  split at hh
  · cases hh
  · rename_i hlen
    rw [headerSize] at hlen
    obtain rfl := Option.some.inj hh
    have hword : ∀ k, k ≤ 32 → (wordAt bs k : Checked ε _) = .ok (Header.wordAt bs k) :=
      fun k hk => wordAt_eq (by omega) (by omega)
    have hreserved : ((bs.drop 36).take 28).length = 28 := by
      rw [List.length_take, List.length_drop]
      omega
    have hmagic : bs.take 4 = [bs[0], bs[1], bs[2], bs[3]] := take_four (by omega)
    rw [header, ensure_eq (decide_eq_true (by rw [headerSize]; omega)), ok_bind,
      slice_eq (by omega) (by omega), ok_bind, ensure_eq (decide_eq_true hreserved), ok_bind, hmagic]
    simp only [hword, ok_bind, Nat.reduceLeDiff]
    rw [List.getElem?_eq_getElem (by omega), List.getElem?_eq_getElem (by omega), List.getElem?_eq_getElem (by omega),
      List.getElem?_eq_getElem (by omega)]
    rfl

theorem sizeBeforeRecords_eq (h : Header) : (sizeBeforeRecords h : Checked ε _) = .ok h.recordsOffset := by
  have hblob := h.stringBytes.toNat_lt
  have hcount := h.stringCount.toNat_lt
  have hrules := h.ruleCount.toNat_lt
  rw [sizeBeforeRecords, add_eq (by omega), ok_bind, mul_eq (by omega), ok_bind, mul_eq (by omega), ok_bind,
    add_eq (by omega), ok_bind, add_eq (by omega), ok_bind, add_eq (by rw [headerSize]; omega)]
  rw [Header.recordsOffset, Header.indexOffset, Header.offsetsOffset, Header.stringsOffset]
  congr 1
  omega

end

/-- The header of a file is checked without a fault. --/
theorem image_eq (bs : List UInt8) : image bs = answer (Image.ofBytes bs) := by
  rw [image, Image.ofBytes]
  by_cases hlen : bs.length < headerSize
  · rw [if_pos hlen, Header.ofBytes?, if_pos hlen]
    rfl
  · obtain ⟨h, hh⟩ : ∃ h, Header.ofBytes? bs = some h := ⟨_, if_neg hlen⟩
    rw [if_neg hlen, hh, header_eq hh, ok_bind]
    dsimp only
    split
    · rfl
    split
    · rfl
    split
    · rfl
    rw [slice_eq (Nat.le_of_not_lt hlen) (Nat.le_refl _), ok_bind, List.take_of_length_le (by rw [List.length_drop])]
    split
    · rfl
    rw [sizeBeforeRecords_eq, ok_bind]
    split
    · rfl
    · rfl

/-! ### Strings -/

namespace Strings

theorem offset_eq {ε : Type} {s : Strings} {ws : List UInt32} (hs : s.offsets = ws.flatMap Word.bytes) {k : Nat} {w : UInt32}
    (hk : ws[k]? = some w) (hlt : k * 4 + 3 < 2 ^ 64) : (s.offset k : Checked ε _) = .ok w.toNat := by
  rw [Strings.offset, mul_eq (by omega), ok_bind, hs, wordAt_flatMap hk hlt]
  rfl

/-- A string is looked up without a fault, whatever the offsets are, if there are as many as there have to be. --/
theorem answers_get {s : Strings} (hs : s.offsets.length = (s.count.toNat + 1) * 4) (id : UInt32) :
    Answers Eq (s.get id) ((StringView.ofBytes s.blob s.offsets s.count).get id) := by
  obtain ⟨ws, hws, heq⟩ := Word.exists_flatMap hs
  rw [Strings.get, StringView.get, StringView.ofBytes, heq, Word.all_flatMap_bytes]
  by_cases hle : s.count ≤ id
  · rw [if_pos hle, if_pos hle]
    exact .refuse _ _
  · rw [if_neg hle, if_neg hle]
    rw [UInt32.le_iff_toNat_le] at hle
    have hcounted := s.count.toNat_lt
    have hstart : ws[id.toNat]? = some ws[id.toNat] := List.getElem?_eq_getElem (by omega)
    have hstop : ws[id.toNat + 1]? = some ws[id.toNat + 1] := List.getElem?_eq_getElem (by omega)
    rw [offset_eq heq hstart (by omega), ok_bind, add_eq (by omega), ok_bind, offset_eq heq hstop (by omega), ok_bind,
      Array.getD_eq_getD_getElem?, Array.getD_eq_getD_getElem?, List.getElem?_toArray, List.getElem?_toArray, hstart,
      hstop, Option.getD_some, Option.getD_some, List.size_toArray]
    exact .ite (fun _ => .ok (by simp [List.take_drop])) fun _ => .refuse _ _

end Strings

section
variable {s : Sections} (hs : s.Fit)
include hs

theorem recordsOffset_le : s.header.recordsOffset ≤ s.bytes.length ∧ s.bytes.length < 2 ^ 32 := by
  have hsize := s.header.totalSize.toNat_lt
  rw [hs.totalSize] at hsize
  refine ⟨?_, hsize⟩
  simp only [hs.recordsOffset, Sections.bytes, Sections.content, List.length_append, hs.length_header,
    Word.length_flatMap_bytes]
  omega

/-- The table of strings that is cut out of a file. --/
def cut (s : Sections) : Strings := ⟨s.blob, s.offsets.flatMap Word.bytes, s.header.stringCount⟩

variable {ε : Type}

theorem offsetsOffset_eq : (offsetsOffset s.header : Checked ε _) = .ok s.header.offsetsOffset := by
  obtain ⟨hle, hlt⟩ := recordsOffset_le hs
  rw [Header.recordsOffset, Header.indexOffset, Header.offsetsOffset, Header.stringsOffset] at hle
  exact add_eq (by omega)

theorem indexOffset_eq : (indexOffset s.header : Checked ε _) = .ok s.header.indexOffset := by
  obtain ⟨hle, hlt⟩ := recordsOffset_le hs
  rw [Header.recordsOffset, Header.indexOffset] at hle
  rw [indexOffset, offsetsOffset_eq hs, ok_bind, add_eq (by omega), ok_bind, mul_eq (by omega), ok_bind,
    add_eq (by omega)]
  rfl

theorem recordsOffset_eq : (recordsOffset s.header : Checked ε _) = .ok s.header.recordsOffset := by
  obtain ⟨hle, hlt⟩ := recordsOffset_le hs
  rw [Header.recordsOffset] at hle
  rw [recordsOffset, indexOffset_eq hs, ok_bind, mul_eq (by omega), ok_bind, add_eq (by omega)]
  rfl

theorem slice_image {start stop : Nat} (h₁ : start ≤ stop) (h₂ : stop ≤ s.header.recordsOffset) :
    (slice s.image.bytes start stop : Checked ε _) = .ok (s.image.slice start stop) :=
  slice_eq h₁ (Nat.le_trans h₂ (recordsOffset_le hs).1)

theorem strings_eq : (strings s.image : Checked ε _) = .ok (cut s) := by
  have hblob : headerSize ≤ s.header.offsetsOffset := Nat.le_add_right _ _
  have hoffsets : s.header.offsetsOffset ≤ s.header.indexOffset := Nat.le_add_right _ _
  have hindex : s.header.indexOffset ≤ s.header.recordsOffset := Nat.le_add_right _ _
  have hcount := s.header.stringCount.toNat_lt
  have hlen : (s.offsets.flatMap Word.bytes).length = (s.header.stringCount.toNat + 1) * 4 := by
    rw [Word.length_flatMap_bytes, hs.stringCount]
  rw [strings, show s.image.header = s.header from rfl, offsetsOffset_eq hs, ok_bind,
    slice_image hs hblob (Nat.le_trans hoffsets hindex), ok_bind, hs.slice_blob, ok_bind,
    indexOffset_eq hs, ok_bind, slice_image hs hoffsets hindex, ok_bind, hs.slice_offsets, add_eq (by omega), ok_bind,
    mul_eq (by omega), ok_bind, ensure_eq (decide_eq_true hlen)]
  rfl

end

section
variable {s : Sections} (hs : s.Fit)
include hs

theorem answers_get (id : UInt32) : Answers Eq ((cut s).get id) (s.image.strings.get id) := by
  have hlen : (cut s).offsets.length = ((cut s).count.toNat + 1) * 4 :=
    (Word.length_flatMap_bytes s.offsets).trans (congrArg (· * 4) hs.stringCount.symm)
  have h := Strings.answers_get hlen id
  rwa [cut, StringView.ofBytes, Word.all_flatMap_bytes, ← hs.strings] at h

theorem answers_getText (id : UInt32) : Answers Eq ((cut s).getText id) (s.image.strings.getText id) := by
  refine (answers_get hs id).bind_eq fun bs => ?_
  cases Utf8.text? bs with
  | some text => exact .ok rfl
  | none => exact .refuse _ _

theorem answers_name : Answers Eq (name s.image) s.image.name := by
  rw [name, strings_eq hs, ok_bind]
  exact answers_getText hs _

omit hs in
theorem fours_flatMap (ws : List UInt32) : fours (ws.flatMap Word.bytes) = ws.map Word.bytes := by
  induction ws with
  | nil => rfl
  | cons w ws ih =>
    rw [List.flatMap_cons, List.map_cons, ← ih]
    rfl

theorem answers_ruleNames : Answers Eq (ruleNames s.image) s.image.ruleNames := by
  have hrules := s.header.ruleCount.toNat_lt
  have hindex : s.header.indexOffset ≤ s.header.recordsOffset := Nat.le_add_right _ _
  rw [ruleNames, strings_eq hs, ok_bind, show s.image.header = s.header from rfl, indexOffset_eq hs, ok_bind,
    recordsOffset_eq hs, ok_bind, slice_image hs hindex (Nat.le_refl _), ok_bind, hs.slice_index,
    reserve_eq (by omega), ok_bind, fours_flatMap, List.mapM_map, Image.ruleNames, hs.imageIndex]
  refine Answers.mapM (fun w => ?_) s.index
  have hw : (wordAt (Word.bytes w) 0 : Checked FormatError _) = .ok w :=
    List.append_nil (Word.bytes w) ▸ wordAt_append [] [] w rfl (by decide)
  rw [Function.comp_apply, hw, ok_bind]
  exact answers_getText hs w

end

/-! ### Positions -/

/-- The cursor at a position. --/
def cursorAt (bytes : List UInt8) (position : Nat) : Cursor := ⟨position, bytes.drop position⟩

/-- What was read of `count` bytes at a position. --/
structure Reads {α : Type} (bytes : List UInt8) (position count : Nat) (x : α × Nat) (y : α × Cursor) : Prop where
  value : x.1 = y.1
  cursor : y.2 = cursorAt bytes x.2
  position : x.2 = position + count
  inside : x.2 ≤ bytes.length

/-- What comes after a reading begins at the position behind it. --/
theorem bind_reads {α γ δ : Type} {bytes : List UInt8} {position count : Nat} {x : Checked FormatError (α × Nat)}
    {y : Except FormatError (α × Cursor)} {f : α × Nat → Checked FormatError γ} {k : α × Cursor → Except FormatError δ}
    {R : γ → δ → Prop} (h : Answers (Reads bytes position count) x y)
    (hf : ∀ a q, q = position + count → q ≤ bytes.length → Answers R (f (a, q)) (k (a, cursorAt bytes q))) :
    Answers R (x >>= f) (y >>= k) := by
  refine h.bind ?_
  rintro ⟨a, q⟩ ⟨b, c⟩ - ⟨hvalue, hcursor, hq, hinside⟩
  dsimp only at hvalue hcursor hq hinside
  subst hvalue hcursor
  exact hf a q hq hinside

section
variable {bytes : List UInt8} (hlen : bytes.length < 2 ^ 32) {position : Nat} (hposition : position ≤ bytes.length)
include hlen

theorem answers_readByte : Answers (Reads bytes position 1) (readByte bytes position) (cursorAt bytes position).byte := by
  rw [readByte]
  rcases Nat.lt_or_ge position bytes.length with hlt | hge
  · rw [List.getElem?_eq_getElem hlt, cursorAt, List.drop_eq_getElem_cons hlt]
    dsimp only
    rw [add_eq (by omega)]
    exact .ok ⟨rfl, rfl, rfl, hlt⟩
  · rw [List.getElem?_eq_none hge, cursorAt, List.drop_eq_nil_of_le hge]
    exact .refuse _ _

include hposition

theorem answers_readWord : Answers (Reads bytes position 4) (readWord bytes position) (cursorAt bytes position).word := by
  rw [readWord, add_eq (by omega), ok_bind]
  by_cases hlt : bytes.length < position + 4
  · have hread : Word.read? (bytes.drop position) = none := by
      match hdrop : bytes.drop position with
      | [] | [_] | [_, _] | [_, _, _] => rfl
      | _ :: _ :: _ :: _ :: _ =>
        have := congrArg List.length hdrop
        simp only [List.length_drop, List.length_cons] at this
        omega
    rw [if_pos hlt, Cursor.word, cursorAt, hread]
    exact .refuse _ _
  · have hsplit : bytes.drop position =
        Word.bytes (Header.wordAt bytes position) ++ bytes.drop (position + 4) := by
      rw [Header.bytes_wordAt (by omega), ← List.drop_drop, List.take_append_drop]
    have hslice : (bytes.drop position).take (position + 4 - position) = Word.bytes (Header.wordAt bytes position) := by
      rw [hsplit, Nat.add_sub_cancel_left, List.take_left' (Word.length_bytes _)]
    have hword : (wordAt (Word.bytes (Header.wordAt bytes position)) 0 : Checked FormatError _) =
        .ok (Header.wordAt bytes position) :=
      List.append_nil (Word.bytes _) ▸ wordAt_append [] [] _ rfl (by decide)
    rw [if_neg hlt, slice_eq (Nat.le_add_right _ _) (by omega), ok_bind, hslice, hword, Cursor.word, cursorAt, hsplit,
      Word.read?_bytes_append]
    exact .ok ⟨rfl, rfl, rfl, by omega⟩

theorem answers_readCount : Answers (Reads bytes position 4) (readCount bytes position) (cursorAt bytes position).count := by
  refine bind_reads (answers_readWord hlen hposition) fun n q hq hinside => ?_
  dsimp only
  have hn := n.toNat_lt
  rw [sub_eq hinside, ok_bind]
  have hrest : (cursorAt bytes q).rest.length = bytes.length - q := List.length_drop
  have hend : (cursorAt bytes q).offset + (cursorAt bytes q).rest.length = bytes.length := by
    rw [hrest]
    exact Nat.add_sub_cancel' hinside
  rw [hend, hrest]
  by_cases hle : n.toNat ≤ bytes.length - q
  · rw [if_neg (Nat.not_lt.mpr hle), if_pos hle, reserve_eq (by omega)]
    exact .ok ⟨rfl, rfl, hq, hinside⟩
  · rw [if_pos (Nat.lt_of_not_le hle), if_neg hle]
    exact .refuse _ _

end

/-! ### Building while reading -/

/-- A decoder that has read more bytes than it has met nodes and made places for names, with `spare` bytes to spare. --/
structure Decoder.Sound (bytes : List UInt8) (spare : Nat) (d : Decoder) : Prop where
  inside : d.position ≤ bytes.length
  spare : d.nodeCount + d.grammar.slots.size + spare ≤ d.position
  counted : d.grammar.nodes.size ≤ d.nodeCount

/-- What became of a decoder that read so many nodes and added them. --/
structure Follows {α : Type} (bytes : List UInt8) (spare : Nat) (d : Decoder) (size : Nat) (added : α × Grammar)
    (x : α × Decoder) (c : Cursor) : Prop where
  cursor : c = cursorAt bytes x.2.position
  value : x.1 = added.1
  grammar : x.2.grammar = added.2
  nodeCount : x.2.nodeCount = d.nodeCount + size
  sound : x.2.Sound bytes spare

section
variable {bytes : List UInt8} {spare : Nat} {d : Decoder}

/-- Meeting a node takes a byte at least. --/
theorem Decoder.Sound.meet (hd : d.Sound bytes spare) {position : Nat} (hlt : d.position < position)
    (hle : position ≤ bytes.length) : { d with position, nodeCount := d.nodeCount + 1 : Decoder }.Sound bytes spare := by
  obtain ⟨-, hspare, hcounted⟩ := hd
  refine ⟨hle, ?_, ?_⟩
  all_goals dsimp only
  all_goals omega

/-- A node that was met is added behind its parts. There is room for it, since it was counted and they were. --/
theorem Decoder.Sound.addNode (hd : d.Sound bytes spare) (hlen : bytes.length < 2 ^ 32) (hspare : 0 < spare) {ι : Type}
    {added : ι × Grammar} {size position : Nat} (hsize : added.2.nodes.size = d.grammar.nodes.size + size)
    {x : ι × Decoder} {c : Cursor}
    (h : Follows bytes spare { d with position, nodeCount := d.nodeCount + 1 } size added x c) (n : Node) :
    ∃ y, x.2.addNode bytes n = .ok y ∧ Follows bytes spare d (size + 1) (added.2.addNode n) y c := by
  obtain ⟨i, d'⟩ := x
  obtain ⟨a, g⟩ := added
  obtain ⟨hcursor, -, hgrammar, hcount, hinside, hsp, -⟩ := h
  have hcounted := hd.counted
  dsimp only at hcursor hgrammar hcount hinside hsp hsize ⊢
  subst hgrammar
  have hroom : d'.grammar.nodes.size < d'.nodeCount := by omega
  refine ⟨((d'.grammar.addNode n).1, { d' with grammar := (d'.grammar.addNode n).2 }), ?_, hcursor, rfl, rfl, ?_,
    hinside, hsp, ?_⟩
  · rw [Decoder.addNode, ensure_eq (decide_eq_true (by omega)), ok_bind, ensure_eq (decide_eq_true (by omega))]
    rfl
  · dsimp only
    omega
  · show (d'.grammar.nodes.push n).size ≤ d'.nodeCount
    rw [Array.size_push]
    exact hroom

theorem Decoder.Sound.addLeaf (hd : d.Sound bytes spare) (hlen : bytes.length < 2 ^ 32) (hspare : 0 < spare)
    {position : Nat} (hlt : d.position < position) (hle : position ≤ bytes.length) (n : Node) :
    ∃ y, Decoder.addNode bytes { d with position, nodeCount := d.nodeCount + 1 } n = .ok y ∧
      Follows bytes spare d 1 (d.grammar.addNode n) y (cursorAt bytes position) :=
  have h : Follows bytes spare { d with position, nodeCount := d.nodeCount + 1 } 0 ((), d.grammar)
      ((), { d with position, nodeCount := d.nodeCount + 1 }) (cursorAt bytes position) :=
    ⟨rfl, rfl, rfl, rfl, hd.meet hlt hle⟩
  hd.addNode hlen hspare rfl h n

theorem Decoder.declare_eq (h : d.grammar.slots.size < 2 ^ 32) (name : String) :
    d.declare name = .ok ((d.grammar.declare name).1, { d with grammar := (d.grammar.declare name).2 }) := by
  have hle := (d.grammar.declare_le name).1
  rw [Decoder.declare, ensure_eq (decide_eq_true (Nat.lt_of_le_of_lt hle h))]
  rfl

theorem Decoder.define_eq (h : d.grammar.slots.size < 2 ^ 32) (name : String) (root : NodeId) :
    d.define name root = .ok { d with grammar := (d.grammar.define name root).2 } := by
  have hlt := Grammar.lt_size_of_find? (d.grammar.find?_declare name)
  rw [Decoder.define, Decoder.declare_eq h, ok_bind]
  dsimp only
  rw [ensure_eq (decide_eq_true hlt)]
  rfl

/-- Nodes are read and built at once as they are read first and built after. --/
def BuildsNode (bytes : List UInt8) (v : StringView) (spare : Nat)
    (item : Decoder → Checked FormatError (NodeId × Decoder)) (levels : Nat) : Prop :=
  ∀ d : Decoder, d.Sound bytes spare →
    Answers (fun x y => Follows bytes spare d y.1.size (d.grammar.addPattern y.1) x y.2) (item d)
      (readPattern v levels (cursorAt bytes d.position))

variable {v : StringView} {item : Decoder → Checked FormatError (NodeId × Decoder)} {levels : Nat}

theorem answers_readNodes (ih : BuildsNode bytes v spare item levels) : ∀ (count : Nat) {d : Decoder},
    d.Sound bytes spare → Answers
      (fun x y => Follows bytes spare d (Pattern.sizes y.1) (d.grammar.addPatterns y.1) x y.2)
      (readNodes item count d) (readMany (readPattern v levels) count (cursorAt bytes d.position))
  | 0, d, hd => .ok ⟨rfl, rfl, rfl, rfl, hd⟩
  | count + 1, d, hd => by
    rw [readNodes, readMany]
    refine (ih d hd).bind fun ⟨i, d₁⟩ ⟨p, c₁⟩ _ ⟨hc₁, hi, hg₁, hn₁, hd₁⟩ => ?_
    dsimp only at hc₁ hi hg₁ hn₁ hd₁ ⊢
    subst hc₁
    refine (answers_readNodes ih count hd₁).bind fun ⟨is, d₂⟩ ⟨ps, c₂⟩ _ ⟨hc₂, his, hg₂, hn₂, hd₂⟩ => ?_
    dsimp only at hc₂ his hg₂ hn₂ hd₂ ⊢
    rw [hg₁] at his hg₂
    refine .ok ⟨hc₂, ?_, hg₂, ?_, hd₂⟩
    · rw [Grammar.addPatterns, hi, his]
    · rw [hn₂, hn₁, Pattern.sizes, Nat.add_assoc]

theorem answers_readNode {s : Strings} (hlen : bytes.length < 2 ^ 32) (hspare : 0 < spare)
    (hs : ∀ id, Answers Eq (s.get id) (v.get id)) (htext : ∀ id, Answers Eq (s.getText id) (v.getText id)) :
    ∀ {room depth : Nat}, room + depth = maxDepth + 1 → BuildsNode bytes v spare (readNode bytes s room depth) room
  | 0, depth, hroom, d, hd => by
    rw [readNode, readPattern, if_pos (by omega)]
    exact .refuse _ _
  | room + 1, depth, hroom, d, hd => by
    have ih : BuildsNode bytes v spare (readNode bytes s room (depth + 1)) room :=
      answers_readNode hlen hspare hs htext (by omega)
    have hcount := hd.spare
    have hinside := hd.inside
    rw [readNode, readPattern, if_neg (by omega), add_eq (by omega), ok_bind]
    refine bind_reads (answers_readByte hlen) fun tag p hp hle => ?_
    dsimp only
    cases Tag.ofByte? tag with
    | none => exact .refuse _ _
    | some tag =>
    cases tag with
    | literal =>
      refine bind_reads (answers_readByte hlen) fun flags p₁ hp₁ hle₁ => ?_
      refine bind_reads (answers_readWord hlen hle₁) fun id p₂ hp₂ hle₂ => ?_
      refine (hs id).bind_eq fun bs => ?_
      exact hd.addLeaf hlen hspare (by omega) hle₂ _
    | charRange =>
      refine bind_reads (answers_readWord hlen hle) fun lo p₁ hp₁ hle₁ => ?_
      refine bind_reads (answers_readWord hlen hle₁) fun hi p₂ hp₂ hle₂ => ?_
      exact hd.addLeaf hlen hspare (by omega) hle₂ _
    | sequence | choice =>
      refine bind_reads (answers_readCount hlen hle) fun n p₁ hp₁ hle₁ => ?_
      refine (answers_readNodes ih n (hd.meet (by omega) hle₁)).bind fun ⟨is, d'⟩ ⟨ps, c⟩ _ hx => ?_
      obtain rfl := hx.value
      exact hd.addNode hlen hspare (Grammar.size_addPatterns ps d.grammar) hx _
    | repetition =>
      refine bind_reads (answers_readWord hlen hle) fun min p₁ hp₁ hle₁ => ?_
      refine bind_reads (answers_readWord hlen hle₁) fun max p₂ hp₂ hle₂ => ?_
      refine (ih _ (hd.meet (by omega) hle₂)).bind fun ⟨i, d'⟩ ⟨q, c⟩ _ hx => ?_
      obtain rfl := hx.value
      exact hd.addNode hlen hspare (Grammar.size_addPattern q d.grammar) hx _
    | ruleRef =>
      refine bind_reads (answers_readWord hlen hle) fun id p₁ hp₁ hle₁ => ?_
      refine (htext id).bind_eq fun name => ?_
      obtain ⟨-, hslots⟩ := d.grammar.declare_le name
      have hcounted := hd.counted
      rw [Decoder.declare_eq (by dsimp only; omega), ok_bind]
      have hx : Follows bytes spare { d with position := p₁, nodeCount := d.nodeCount + 1 } 0 (d.grammar.declare name)
          ((d.grammar.declare name).1,
            { position := p₁, nodeCount := d.nodeCount + 1, grammar := (d.grammar.declare name).2 })
          (cursorAt bytes p₁) := by
        refine ⟨rfl, rfl, rfl, rfl, hle₁, ?_, ?_⟩
        · dsimp only
          omega
        · dsimp only
          rw [Grammar.nodes_declare]
          omega
      have hnodes := congrArg Array.size (Grammar.nodes_declare d.grammar name)
      exact hd.addNode hlen hspare hnodes hx _
    | fold =>
      refine (ih _ (hd.meet (by omega) hle)).bind fun ⟨i, d'⟩ ⟨q, c⟩ _ hx => ?_
      obtain rfl := hx.value
      exact hd.addNode hlen hspare (Grammar.size_addPattern q d.grammar) hx _

/-! ### Records -/

/-- What became of a decoder that read records of rules and defined the rules. --/
structure Defines (bytes : List UInt8) (spare : Nat) (d : Decoder) (rules : List (String × Pattern String)) (d' : Decoder)
    (c : Cursor) : Prop where
  cursor : c = cursorAt bytes d'.position
  grammar : d'.grammar = rules.foldl (fun g r => g.definePattern r.1 r.2) d.grammar
  nodeCount : d'.nodeCount = d.nodeCount + Pattern.sizes (rules.map Prod.snd)
  sound : d'.Sound bytes spare

theorem size_define_le (g : Grammar) (name : String) (root : NodeId) :
    (g.define name root).2.slots.size ≤ g.slots.size + 1 :=
  Nat.le_trans Array.size_modify.le (g.declare_le name).2

section
variable {s : Strings} (hlen : bytes.length < 2 ^ 32) (hspare : 0 < spare)
  (hs : ∀ id, Answers Eq (s.get id) (v.get id)) (htext : ∀ id, Answers Eq (s.getText id) (v.getText id))
include hlen hspare hs htext

theorem answers_readRecord (hd : d.Sound bytes spare) (expected : String) :
    Answers (fun d' y => Defines bytes spare d [y.1] d' y.2) (readRecord bytes s d expected)
      (Binary.readRecord v expected (cursorAt bytes d.position)) := by
  rw [readRecord, Binary.readRecord]
  refine bind_reads (answers_readWord hlen hd.inside) fun id p hp hle => ?_
  refine (htext id).bind_eq fun name => ?_
  refine .ite (fun _ => ?_) fun _ => .refuse _ _
  -- The name of the rule took four bytes, which is more than a place for it takes.
  have hd₁ : { d with position := p : Decoder }.Sound bytes (spare + 1) := by
    obtain ⟨-, hsp, hcounted⟩ := hd
    refine ⟨hle, ?_, hcounted⟩
    dsimp only
    omega
  have hnode := answers_readNode hlen (Nat.succ_pos spare) hs htext (Nat.add_zero (maxDepth + 1)) _ hd₁
  refine hnode.bind ?_
  rintro ⟨root, d'⟩ ⟨q, c⟩ - ⟨hc, hroot, hg, hn, hinside, hsp, hcounted⟩
  dsimp only at hc hroot hg hn hinside hsp hcounted ⊢
  rw [Decoder.define_eq (by omega)]
  refine .ok ⟨hc, ?_, hn, hinside, ?_, ?_⟩
  · dsimp only
    rw [hg, hroot]
    rfl
  · have := size_define_le d'.grammar name root
    dsimp only
    omega
  · show (d'.grammar.declare name).2.nodes.size ≤ d'.nodeCount
    rw [Grammar.nodes_declare]
    exact hcounted

theorem answers_readRecords : ∀ (names : List String) {d : Decoder}, d.Sound bytes spare →
    Answers (fun d' y => Defines bytes spare d y.1 d' y.2) (names.foldlM (readRecord bytes s) d)
      (readRecords v names (cursorAt bytes d.position))
  | [], d, hd => .ok ⟨rfl, rfl, rfl, hd⟩
  | name :: names, d, hd => by
    rw [List.foldlM_cons, readRecords]
    refine (answers_readRecord hlen hspare hs htext hd name).bind ?_
    rintro d₁ ⟨rule, c₁⟩ - ⟨hc₁, hg₁, hn₁, hd₁⟩
    dsimp only at hc₁ hg₁ hn₁ ⊢
    subst hc₁
    refine (answers_readRecords names hd₁).map _ ?_
    rintro d₂ ⟨rules, c₂⟩ ⟨hc₂, hg₂, hn₂, hd₂⟩
    dsimp only at hc₂ hg₂ hn₂ ⊢
    refine ⟨hc₂, ?_, ?_, hd₂⟩
    · rw [hg₂, hg₁]
      rfl
    · rw [hn₂, hn₁]
      simp only [List.map_cons, List.map_nil, Pattern.sizes]
      omega

end

end

/-! ### Grammars -/

/-- Places are made without a fault while their number is that of a rule. --/
theorem answers_declareAll : ∀ (names : List String) {g : Grammar}, g.slots.size + names.length < 2 ^ 32 →
    Answers (fun g' g'' => g' = g'' ∧ g'.nodes = g.nodes ∧ g'.slots.size ≤ g.slots.size + names.length)
      (declareAll g names) (declareDistinct g names)
  | [], g, _ => .ok ⟨rfl, rfl, Nat.le_refl _⟩
  | name :: names, g, h => by
    obtain ⟨hid, hsize⟩ := g.declare_le name
    rw [List.length_cons] at h ⊢
    rw [declareAll, declareDistinct]
    cases g.find? name with
    | some r => exact .refuse _ _
    | none =>
      dsimp only
      rw [ensure_eq (decide_eq_true (Nat.lt_of_le_of_lt hid (by omega))), ok_bind]
      have hnodes := g.nodes_declare name
      refine (answers_declareAll names (by omega)).mono ?_
      rintro g' g'' ⟨heq, hn, hslots⟩
      refine ⟨heq, hn.trans hnodes, ?_⟩
      omega

section
variable {s : Sections} (hs : s.Fit)
include hs

theorem answers_read : Answers (fun g g' => g = g' ∧ g.nodes.size ≤ s.bytes.length) (read s.image) s.image.read := by
  obtain ⟨hrecords, hlen⟩ := recordsOffset_le hs
  rw [read, Image.read, strings_eq hs, ok_bind]
  refine (answers_name hs).bind_eq fun text => ?_
  refine (answers_ruleNames hs).bind fun names _ hnames hsame => ?_
  subst hsame
  have hcount : s.index.length = names.length := by
    rw [Image.ruleNames, mapM_eq_ok, hs.imageIndex] at hnames
    exact hnames.length_eq
  have hoffset := hs.recordsOffset
  rw [headerSize] at hoffset
  have hempty : (Grammar.empty text).slots.size = 0 := rfl
  refine (answers_declareAll names (by omega)).bind ?_
  rintro g _ - ⟨hg, hnodes, hslots⟩
  subst hg
  rw [show s.image.header = s.header from rfl, recordsOffset_eq hs, ok_bind]
  have hstart : { position := s.header.recordsOffset, nodeCount := 0, grammar := g : Decoder }.Sound s.bytes 1 := by
    refine ⟨hrecords, ?_, ?_⟩
    · dsimp only
      omega
    · dsimp only
      rw [hnodes]
      exact Nat.le_refl 0
  refine (answers_readRecords hlen Nat.one_pos (answers_get hs) (answers_getText hs) names hstart).bind ?_
  rintro d ⟨rules, c⟩ - ⟨hc, hgrammar, hcounted, hd⟩
  dsimp only at hc hgrammar hcounted ⊢
  subst hc
  have hinside := hd.inside
  have hrest : (cursorAt s.bytes d.position).rest.length = s.bytes.length - d.position := List.length_drop
  have hend : (!(cursorAt s.bytes d.position).rest.isEmpty) = true ↔ d.position ≠ s.bytes.length := by
    rw [Bool.not_eq_true', List.isEmpty_eq_false_iff, ne_eq, ← List.length_eq_zero_iff, hrest]
    omega
  rw [Nat.zero_add] at hcounted
  simp only [← hgrammar, ← hcounted, hrest, hend]
  refine .ite (fun hne => ?_) fun _ => .ite (fun _ => .refuse _ _) fun _ => .ite (fun _ => .ok ⟨rfl, ?_⟩) fun _ =>
    .refuse _ _
  · rw [show s.image.bytes = s.bytes from rfl, sub_eq hinside]
    exact .refuse _ _
  · have hnodes := hd.counted
    have hspare := hd.spare
    omega

theorem decode_eq : decode s.image = answer s.image.decode ∧
    ∀ g, s.image.decode = .ok g → g.nodes.size ≤ s.bytes.length := by
  have hread := answers_read hs
  obtain ⟨-, hlen⟩ := recordsOffset_le hs
  rw [decode, Image.decode]
  cases hm : s.image.read with
  | error e =>
    rw [hm] at hread
    rw [show read s.image = refuse e from hread]
    exact ⟨rfl, fun _ hg => by cases hg⟩
  | ok g =>
    rw [hm] at hread
    obtain ⟨g, hg, rfl, hsize⟩ := hread
    obtain ⟨hw, -⟩ := wellFormed_read hm
    rw [hg]
    refine ⟨?_, fun g' hg' => ?_⟩
    · show (firstSets g >>= fun sets => Except.ok { g with firstSets := some sets } : Checked BinaryError Grammar) = _
      rw [firstSets_eq hw (by omega)]
      rfl
    · cases hg'
      exact hsize

end

/-- Reading a file comes to an answer whatever its bytes are: a machine that checks every step of it ends without a
    fault, with the result or the error of the plain reading. No grammar that is read has more nodes than
    its file has bytes. --/
theorem answers_of_bytes (bs : List UInt8) : image bs = answer (Image.ofBytes bs) ∧
    ∀ m, Image.ofBytes bs = .ok m → name m = answer m.name ∧ ruleNames m = answer m.ruleNames ∧
      decode m = answer m.decode ∧ ∀ g, m.decode = .ok g → g.nodes.size ≤ bs.length := by
  refine ⟨image_eq bs, fun m hm => ?_⟩
  obtain ⟨s, hs, rfl, rfl⟩ := Sections.ofBytes_eq_ok.mp hm
  obtain ⟨hdecode, hsize⟩ := decode_eq hs
  exact ⟨answers_eq_iff.mp (answers_name hs), answers_eq_iff.mp (answers_ruleNames hs), hdecode, hsize⟩

/-- The machine reads the file of `r = "a" / "b" R`. --/
theorem answers_recursive : Image.ofBytes recursive.bytes = .ok recursive.image ∧
    ∃ g, decode recursive.image = .ok g ∧ g.nodes.size ≤ recursive.bytes.length := by
  have hm : Image.ofBytes recursive.bytes = .ok recursive.image := valid_recursive.toFit.ofBytes
  obtain ⟨-, -, hdecode, hsize⟩ := (answers_of_bytes recursive.bytes).2 recursive.image hm
  have hok := decode_of_valid valid_recursive
  rw [Binary.decode, hm, ok_bind] at hok
  rw [hok] at hdecode
  exact ⟨hm, _, hdecode, hsize _ hok⟩

end Binary.Machine
end Abnf
