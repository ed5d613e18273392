import Abnf.Proofs.Grammar.Pattern
import Abnf.Proofs.Match.Fuel
import Abnf.Proofs.Match.Reader
import Abnf.Proofs.Text.Utf8

/-! What nodes read. The answers of a node, without their logs, are a reader (`Answerer.reader`), and the answers of
    nodes made of others are the readers made of theirs. A node that a pattern unfolds to reads what the
    pattern reads: with enough fuel it comes to all ends that the pattern comes to (`pattern_le`), and with
    any amount of fuel only to such (`le_pattern`). The grammar is taken without first sets. -/

namespace Abnf

/-- Where an answer ends, if it is one of a match that came to an end. --/
def Answer.reading : Answer → Option (Option Nat)
  | matched stop _ => some (some stop)
  | noMatch => some none
  | undefined _ => none

@[simp] theorem Answer.reading_after (a : Answer) (l : Log) : (a.after l).reading = a.reading := by
  cases a <;> rfl

@[simp] theorem Answer.reading_leave (a : Answer) (wanted : Bool) (r : RuleId) (pos : Nat) :
    (a.leave wanted r pos).reading = a.reading := by
  cases a <;> rfl

@[simp] theorem Answer.reading_leaf (stop : Option Nat) : (leaf stop).reading = some stop := by
  cases stop <;> rfl

@[simp] theorem Answer.reading_settle (min count pos : Nat) :
    (settle min count pos).reading = Reader.settle min count pos := by
  unfold settle Reader.settle
  split <;> rfl

namespace Match

/-! ### Terminals -/

theorem bytesAt_eq (input : ByteArray) (ignoreCase : Bool) : ∀ (bs : List UInt8) (pos : Nat),
    bytesAt input ignoreCase pos bs = decide (((input.data.toList.drop pos).take bs.length).map
      (if ignoreCase then Byte.small else id) = bs.map (if ignoreCase then Byte.small else id))
  | [], pos => by simp [bytesAt]
  | b :: bs, pos => by
    have hat : input[pos]? = input.data.toList[pos]? := by
      rw [getElem?_eq_data, Array.getElem?_toList]
    rw [bytesAt, bytesAt_eq input ignoreCase bs (pos + 1), hat]
    rcases Nat.lt_or_ge pos input.data.toList.length with hlt | hge
    · have hsame : sameByte ignoreCase b input.data.toList[pos] =
          decide ((if ignoreCase then Byte.small else id) input.data.toList[pos] =
            (if ignoreCase then Byte.small else id) b) := by
        rw [Bool.eq_iff_iff, decide_eq_true_eq, sameByte, Byte.lower_eq_small]
        cases ignoreCase
        · exact beq_iff_eq.trans eq_comm
        · exact beq_iff_eq.trans eq_comm
      rw [List.drop_eq_getElem_cons hlt, List.getElem?_eq_getElem hlt, Option.any_some, hsame, List.length_cons,
        List.take_succ_cons]
      simp only [List.map_cons, List.cons.injEq, Bool.decide_and]
    · rw [List.drop_eq_nil_of_le hge, List.getElem?_eq_none hge]
      simp

theorem literal?_eq (input : ByteArray) (bs : List UInt8) (ignoreCase : Bool) (pos : Nat) :
    some (literal? input bs ignoreCase pos) =
      Reader.bytes input (if ignoreCase then Byte.small else id) bs pos := by
  rw [literal?, Reader.bytes, bytesAt_eq]
  simp only [decide_eq_true_eq]

theorem charRange?_eq (input : ByteArray) (lo hi : UInt32) (pos : Nat) :
    some (charRange? input lo hi pos) = Reader.value input lo.toNat hi.toNat pos := by
  have hlim : hi < byteLimit ↔ hi.toNat < 0x100 := UInt32.lt_iff_toNat_lt
  rw [charRange?, Reader.value]
  simp only [hlim, UInt32.le_iff_toNat_le, UInt8.toNat_toUInt32]
  split
  · rcases input[pos]? with _ | b <;> rfl
  · rcases input.utf8DecodeChar? pos with _ | c <;> rfl

/-- A literal of one byte. --/
theorem literal?_byte (input : ByteArray) (b : UInt8) (ignoreCase : Bool) (pos : Nat) :
    literal? input [b] ignoreCase pos =
      if (input[pos]?).any (sameByte ignoreCase b) then some (pos + 1) else none := by
  rw [literal?, bytesAt, bytesAt, Bool.and_true, List.length_singleton]
  rcases hb : input[pos]? with _ | c
  · simp
  · have hle : pos ≤ input.size := Nat.le_of_lt (getElem?_eq_some_iff.mp hb).1
    simp only [hle, true_and]

/-- A code point that stands for one byte. --/
theorem charRange?_byte (input : ByteArray) {b : UInt8} {v : UInt32} (hb : b.toUInt32 = v) (pos : Nat) :
    charRange? input v v pos = if input[pos]? = some b then some (pos + 1) else none := by
  have hlim : v < byteLimit := by
    rw [← hb, UInt32.lt_iff_toNat_lt, UInt8.toNat_toUInt32]
    exact b.toNat_lt
  rw [charRange?, if_pos hlim]
  cases input[pos]? with
  | none => rfl
  | some c =>
    have heq : v ≤ c.toUInt32 ∧ c.toUInt32 ≤ v ↔ some c = some b := by
      rw [← hb, Option.some.injEq, ← UInt8.toNat_inj, UInt32.le_iff_toNat_le, UInt32.le_iff_toNat_le,
        UInt8.toNat_toUInt32, UInt8.toNat_toUInt32]
      omega
    simp only [heq]

theorem bytesAt_concat (input : ByteArray) (ignoreCase : Bool) : ∀ (bs cs : List UInt8) (pos : Nat),
    bytesAt input ignoreCase pos (bs ++ cs) =
      (bytesAt input ignoreCase pos bs && bytesAt input ignoreCase (pos + bs.length) cs)
  | [], _, _ => rfl
  | b :: bs, cs, pos => by
    rw [List.cons_append, bytesAt, bytesAt, bytesAt_concat input ignoreCase bs cs (pos + 1), Bool.and_assoc,
      List.length_cons, Nat.add_comm bs.length 1, Nat.add_assoc]

/-- A literal is read as its parts are, one after the other. --/
theorem literal?_concat (input : ByteArray) (bs cs : List UInt8) (ignoreCase : Bool) (pos : Nat) :
    literal? input (bs ++ cs) ignoreCase pos =
      (literal? input bs ignoreCase pos).bind (literal? input cs ignoreCase) := by
  simp only [literal?, bytesAt_concat, Bool.and_eq_true, List.length_append]
  by_cases hfirst : pos ≤ input.size ∧ bytesAt input ignoreCase pos bs = true
  · have hle := bytesAt_le hfirst.1 hfirst.2
    rw [if_pos hfirst, Option.bind_some, literal?]
    simp only [hfirst, hle, true_and, Nat.add_assoc]
  · rw [if_neg hfirst, Option.bind_none, if_neg fun h => hfirst ⟨h.1, h.2.1⟩]

/-- A character stands at a position just if the bytes there are those that encode it. --/
theorem literal?_encode (input : ByteArray) (c : Char) (pos : Nat) :
    literal? input (String.utf8EncodeChar c) false pos =
      if input.utf8DecodeChar? pos = some c then some (pos + c.utf8Size) else none := by
  have hextract : (input.extract pos (pos + c.utf8Size)).data.toList = (input.data.toList.drop pos).take c.utf8Size := by
    rw [ByteArray.data_extract, Array.toList_extract, List.extract_eq_take_drop, Nat.add_sub_cancel_left]
  have hread : pos ≤ input.size ∧ bytesAt input false pos (String.utf8EncodeChar c) = true ↔
      input.utf8DecodeChar? pos = some c := by
    simp only [bytesAt_eq, Bool.false_eq_true, ↓reduceIte, List.map_id, decide_eq_true_eq, String.length_utf8EncodeChar]
    constructor
    · rintro ⟨-, hbytes⟩
      rw [ByteArray.utf8DecodeChar?_eq_utf8DecodeChar?_extract]
      have hrest : input.extract pos input.size = (String.utf8EncodeChar c).toByteArray ++
          ((input.data.toList.drop pos).drop c.utf8Size).toByteArray := by
        ext1
        rw [ByteArray.data_append, List.data_toByteArray, List.data_toByteArray, ← Array.toList_inj, Array.toList_append,
          ← hbytes, List.take_append_drop, ByteArray.data_extract, Array.toList_extract, List.extract_eq_take_drop]
        exact List.take_of_length_le (by simp)
      rw [hrest, ByteArray.utf8DecodeChar?_utf8EncodeChar_append]
    · intro h
      have hle := ByteArray.le_size_of_utf8DecodeChar?_eq_some h
      exact ⟨by omega, hextract.symm.trans (toList_extract_of_utf8DecodeChar? h)⟩
  rw [literal?, String.length_utf8EncodeChar]
  simp only [hread]

/-- A code point that stands for a character. --/
theorem charRange?_char (input : ByteArray) {c : Char} {v : UInt32} (hc : c.val = v) (hlim : ¬v < byteLimit) (pos : Nat) :
    charRange? input v v pos = if input.utf8DecodeChar? pos = some c then some (pos + c.utf8Size) else none := by
  rw [charRange?, if_neg hlim]
  cases input.utf8DecodeChar? pos with
  | none => rfl
  | some d =>
    have heq : v ≤ d.val ∧ d.val ≤ v ↔ d = c := by
      rw [Char.ext_iff, hc, ← UInt32.toNat_inj, UInt32.le_iff_toNat_le, UInt32.le_iff_toNat_le]
      omega
    dsimp only
    by_cases hd : d = c
    · rw [if_pos (heq.mpr hd), if_pos (congrArg some hd), hd]
    · rw [if_neg (mt heq.mp hd), if_neg (mt Option.some.inj hd)]

theorem le_of_literal? {input : ByteArray} {bs : List UInt8} {ignoreCase : Bool} {pos stop : Nat}
    (h : literal? input bs ignoreCase pos = some stop) : stop ≤ input.size := by
  simp only [literal?, Option.ite_none_right_eq_some, Option.some.injEq] at h
  obtain ⟨⟨hle, hbytes⟩, rfl⟩ := h
  exact bytesAt_le hle hbytes

/-! ### Nodes -/

/-- What a node reads, given how nodes answer. --/
def Answerer.reader (c : Answerer) (n : NodeId) : Reader := fun pos => (c n pos).bind Answer.reading

/-- Answers are not behind their start, nor past the end of the input. --/
def Answerer.Forward (c : Answerer) (size : Nat) : Prop :=
  ∀ n pos stop l, c n pos = some (.matched stop l) → Match.Forward size pos stop

namespace Answerer

section
variable {c : Answerer} {size : Nat}

theorem reading_sequence (c : Answerer) : ∀ (ns : List NodeId) (pos : Nat),
    (c.sequence ns pos).bind Answer.reading = Reader.inOrder (ns.map c.reader) pos
  | [], _ => rfl
  | n :: ns, pos => by
    rw [List.map_cons, Reader.inOrder, sequence, reader]
    rcases c n pos with _ | ⟨stop, l⟩ | _ | r
    · rfl
    · rw [Option.bind_some, Answer.reading]
      dsimp only
      rw [← reading_sequence c ns stop]
      rcases c.sequence ns stop with _ | a
      · rfl
      · simp
    · rfl
    · rfl

theorem reading_choice (hc : c.Forward size) {admits : NodeId → Bool} (hadm : ∀ n, admits n = true) :
    ∀ (ns : List NodeId) (empty : Option Log) (pos : Nat), (c.choice admits empty ns pos).bind Answer.reading =
      match empty with
      | none => Reader.firstOf (ns.map c.reader) pos
      | some _ => (Reader.firstOf (ns.map c.reader) pos).map fun later => some (later.getD pos)
  | [], empty, pos => by cases empty <;> rfl
  | n :: ns, empty, pos => by
    rw [choice, if_pos (hadm n), List.map_cons, Reader.firstOf, reader]
    rcases hn : c n pos with _ | ⟨stop, l⟩ | _ | r
    · cases empty <;> rfl
    · rw [Option.bind_some, Answer.reading]
      dsimp only
      by_cases hlt : pos < stop
      · rw [if_pos hlt, if_pos hlt]
        cases empty <;> rfl
      · obtain rfl : stop = pos := by
          have := (hc n pos stop l hn).1
          omega
        rw [if_neg hlt, if_neg hlt, reading_choice hc hadm ns (some (empty.getD l)) stop]
        cases empty with
        | none => rfl
        | some k => rcases Reader.firstOf (ns.map c.reader) stop with _ | _ | later <;> rfl
    · rw [Option.bind_some, Answer.reading]
      exact reading_choice hc hadm ns empty pos
    · cases empty <;> rfl

theorem reading_rounds (hc : c.Forward size) (n : NodeId) (min : Nat) (max : Option Nat) :
    ∀ (left count pos : Nat), size - pos ≤ left →
      (rounds (c n) min max (left + 1) count pos).bind Answer.reading =
        Reader.rounds (c.reader n) min max left count pos
  | left, count, pos, hleft => by
    rw [rounds, Reader.rounds]
    split
    · rw [reader]
      rcases hn : c n pos with _ | ⟨stop, l⟩ | _ | r
      · rfl
      · rw [Option.bind_some, Answer.reading]
        dsimp only
        have hfwd := hc n pos stop l hn
        unfold Match.Forward at hfwd
        by_cases hstop : stop = pos
        · subst hstop
          have hmin : ¬Nat.max (count + 1) min < min := Nat.not_lt.mpr (Nat.le_max_right _ _)
          rw [if_pos rfl, Option.bind_some, Answer.reading_after, Answer.reading_settle, Reader.settle, if_neg hmin]
          cases left with
          | zero => rfl
          | succ left => exact (if_pos rfl).symm
        · cases left with
          | zero => omega
          | succ left =>
            rw [if_neg hstop, Option.bind_map]
            dsimp only
            rw [if_neg hstop, ← reading_rounds hc n min max left (count + 1) stop (by omega)]
            congr 1
            funext a
            exact Answer.reading_after a l
      · exact Answer.reading_settle min count pos
      · rfl
    · exact Answer.reading_settle min count pos

end

/-- What a rule reads, given how nodes answer. --/
def ruleReader (c : Answerer) (g : Grammar) (r : RuleId) : Reader :=
  match g.root? r with
  | some root => c.reader root
  | none => Reader.never

theorem reading_rule (c : Answerer) (σ : Setting) (wanted : Bool) (r : RuleId) (pos : Nat) :
    (c.rule σ wanted r pos).bind Answer.reading = c.ruleReader σ.grammar r pos := by
  rw [rule, ruleReader]
  rcases σ.grammar.root? r with _ | root
  · rfl
  · dsimp only
    rw [reader, Option.bind_map]
    congr 1
    funext a
    exact Answer.reading_leave a wanted r pos

end Answerer

/-- What a node reads, given what nodes and rules read. --/
def Node.reader (input : ByteArray) (nodes : NodeId → Reader) (rules : RuleId → Reader) : Node → Reader
  | .literal bs ignoreCase => Reader.bytes input (if ignoreCase then Byte.small else id) bs
  | .charRange lo hi => Reader.value input lo.toNat hi.toNat
  | .sequence ns => Reader.inOrder (ns.map nodes)
  | .choice ns => Reader.firstOf (ns.map nodes)
  | .repetition n min max => Reader.times input.size min.toNat (max.map UInt32.toNat) (nodes n)
  | .ruleRef r => rules r
  | .fold n => nodes n

theorem reading_node {σ : Setting} (hnone : σ.grammar.firstSets = none) {c : Answerer} (hc : c.Forward σ.input.size)
    (n : Node) (pos : Nat) : (c.node σ n pos).bind Answer.reading =
      Node.reader σ.input c.reader (c.ruleReader σ.grammar) n pos := by
  cases n with
  | literal bs ignoreCase => exact (Answer.reading_leaf _).trans (literal?_eq σ.input bs ignoreCase pos)
  | charRange lo hi => exact (Answer.reading_leaf _).trans (charRange?_eq σ.input lo hi pos)
  | sequence ns => exact Answerer.reading_sequence c ns pos
  | choice ns =>
    refine Answerer.reading_choice hc (fun n => ?_) ns none pos
    rw [admits, hnone]
  | repetition n min max => exact Answerer.reading_rounds hc n _ _ _ 0 pos (Nat.le_refl _)
  | ruleRef r => exact Answerer.reading_rule c σ (σ.observed r) r pos
  | fold n => rfl

theorem forward_answer (σ : Setting) (fuel : Nat) : (answer σ fuel).Forward σ.input.size :=
  fun _ _ _ _ h => (obeys_answer σ fuel _ _ _ h).forward _ _ rfl

section
variable {σ : Setting}

theorem reader_answer_succ (hnone : σ.grammar.firstSets = none) {i : NodeId} {n : Node}
    (hi : σ.grammar.nodes[i]? = some n) (fuel : Nat) : (answer σ (fuel + 1)).reader i =
      Node.reader σ.input (answer σ fuel).reader ((answer σ fuel).ruleReader σ.grammar) n := by
  funext pos
  rw [Answerer.reader, answer, hi]
  exact reading_node hnone (forward_answer σ fuel) n pos

theorem reader_mono {fuel fuel' : Nat} (hle : fuel ≤ fuel') (i : NodeId) :
    ((answer σ fuel).reader i).Le ((answer σ fuel').reader i) := by
  intro pos result h
  obtain ⟨a, ha, hr⟩ := Option.bind_eq_some_iff.mp h
  exact Option.bind_eq_some_iff.mpr ⟨a, answer_mono hle ha, hr⟩

theorem ruleReader_mono {fuel fuel' : Nat} (hle : fuel ≤ fuel') (r : RuleId) :
    ((answer σ fuel).ruleReader σ.grammar r).Le ((answer σ fuel').ruleReader σ.grammar r) := by
  unfold Answerer.ruleReader
  split
  · exact reader_mono hle _
  · exact Reader.never_le _

/-! ### Patterns -/

/-- Answers with fuel that is enough from any position. --/
def finalAnswer (σ : Setting) : Answerer := answer σ (fuelFor σ.grammar σ.input 0)

theorem reader_le_final (fuel : Nat) (i : NodeId) : ((answer σ fuel).reader i).Le ((finalAnswer σ).reader i) := by
  intro pos result h
  obtain ⟨a, ha, hr⟩ := Option.bind_eq_some_iff.mp h
  have hfuel : fuelFor σ.grammar σ.input pos ≤ fuelFor σ.grammar σ.input 0 :=
    Nat.mul_le_mul_right _ (Nat.mul_le_mul_right _ (by omega))
  have hpos := (follows_fuelFor σ pos fuel).answers i pos a (Forward.refl _ _) ha
  exact Option.bind_eq_some_iff.mpr ⟨a, answer_mono hfuel hpos, hr⟩

theorem node_le_final (hnone : σ.grammar.firstSets = none) {i : NodeId} {n : Node} (hi : σ.grammar.nodes[i]? = some n) :
    (Node.reader σ.input (finalAnswer σ).reader ((finalAnswer σ).ruleReader σ.grammar) n).Le
      ((finalAnswer σ).reader i) := by
  rw [finalAnswer, ← reader_answer_succ hnone hi]
  exact reader_le_final _ i

variable {ρ : Type} {stands : ρ → RuleId → Prop} {rules : ρ → Reader}

mutual

/-- A node comes to all ends that its pattern comes to. --/
theorem pattern_le (hnone : σ.grammar.firstSets = none)
    (hr : ∀ x r, stands x r → (rules x).Le ((finalAnswer σ).ruleReader σ.grammar r)) :
    ∀ {p : Pattern ρ} {i : NodeId}, σ.grammar.Unfolds stands p i →
      (p.reader σ.input rules).Le ((finalAnswer σ).reader i)
  | .literal .., i, hu | .charRange .., i, hu => node_le_final hnone hu
  | .sequence ps, i, hu => by
    obtain ⟨ns, hi, hns⟩ := hu
    exact (Reader.inOrder_le (patterns_le hnone hr hns)).trans (node_le_final hnone hi)
  | .choice ps, i, hu => by
    obtain ⟨ns, hi, hns⟩ := hu
    exact (Reader.firstOf_le (patterns_le hnone hr hns)).trans (node_le_final hnone hi)
  | .repetition p min max, i, hu => by
    obtain ⟨n, hi, hp⟩ := hu
    exact (Reader.times_le (pattern_le hnone hr hp) _ _ _).trans (node_le_final hnone hi)
  | .ruleRef x, i, hu => by
    obtain ⟨r, hi, hx⟩ := hu
    exact (hr x r hx).trans (node_le_final hnone hi)
  | .fold p, i, hu => by
    obtain ⟨n, hi, hp⟩ := hu
    exact (pattern_le hnone hr hp).trans (node_le_final hnone hi)

theorem patterns_le (hnone : σ.grammar.firstSets = none)
    (hr : ∀ x r, stands x r → (rules x).Le ((finalAnswer σ).ruleReader σ.grammar r)) :
    ∀ {ps : List (Pattern ρ)} {ns : List NodeId}, σ.grammar.UnfoldsAll stands ps ns →
      List.Forall₂ Reader.Le (Pattern.readers σ.input rules ps) (ns.map (finalAnswer σ).reader)
  | [], [], _ => .nil
  | _ :: _, _ :: _, ⟨hp, hps⟩ => .cons (pattern_le hnone hr hp) (patterns_le hnone hr hps)
  | [], _ :: _, hu | _ :: _, [], hu => hu.elim

end

mutual

/-- A node comes to no other ends than its pattern, as long as the rules below it do. --/
theorem le_pattern (hnone : σ.grammar.firstSets = none) {fuel : Nat}
    (hr : ∀ k < fuel, ∀ x r, stands x r → ((answer σ k).ruleReader σ.grammar r).Le (rules x)) :
    ∀ {p : Pattern ρ} {i : NodeId}, σ.grammar.Unfolds stands p i → ∀ k ≤ fuel,
      ((answer σ k).reader i).Le (p.reader σ.input rules)
  | _, i, _, 0, _ => Reader.never_le _
  | .literal .., i, hu, k + 1, _ | .charRange .., i, hu, k + 1, _ => reader_answer_succ hnone hu k ▸ Reader.Le.refl _
  | .sequence ps, i, hu, k + 1, hk => by
    obtain ⟨ns, hi, hns⟩ := hu
    rw [reader_answer_succ hnone hi k]
    exact Reader.inOrder_le (le_patterns hnone hr hns k (Nat.le_of_succ_le hk))
  | .choice ps, i, hu, k + 1, hk => by
    obtain ⟨ns, hi, hns⟩ := hu
    rw [reader_answer_succ hnone hi k]
    exact Reader.firstOf_le (le_patterns hnone hr hns k (Nat.le_of_succ_le hk))
  | .repetition p min max, i, hu, k + 1, hk => by
    obtain ⟨n, hi, hp⟩ := hu
    rw [reader_answer_succ hnone hi k]
    exact Reader.times_le (le_pattern hnone hr hp k (Nat.le_of_succ_le hk)) _ _ _
  | .ruleRef x, i, hu, k + 1, hk => by
    obtain ⟨r, hi, hx⟩ := hu
    rw [reader_answer_succ hnone hi k]
    exact hr k hk x r hx
  | .fold p, i, hu, k + 1, hk => by
    obtain ⟨n, hi, hp⟩ := hu
    rw [reader_answer_succ hnone hi k]
    exact le_pattern hnone hr hp k (Nat.le_of_succ_le hk)

theorem le_patterns (hnone : σ.grammar.firstSets = none) {fuel : Nat}
    (hr : ∀ k < fuel, ∀ x r, stands x r → ((answer σ k).ruleReader σ.grammar r).Le (rules x)) :
    ∀ {ps : List (Pattern ρ)} {ns : List NodeId}, σ.grammar.UnfoldsAll stands ps ns → ∀ k ≤ fuel,
      List.Forall₂ Reader.Le (ns.map (answer σ k).reader) (Pattern.readers σ.input rules ps)
  | [], [], _, _, _ => .nil
  | _ :: _, _ :: _, ⟨hp, hps⟩, k, hk => .cons (le_pattern hnone hr hp k hk) (le_patterns hnone hr hps k hk)
  | [], _ :: _, hu, _, _ | _ :: _, [], hu, _, _ => hu.elim

end

/-! ### Runs -/

/-- A run ends where the answer of its rule does. --/
theorem run_stop_iff_yields {r : RuleId} {start : Nat} {stop : Option Nat} :
    (run σ r start).map Run.stop = .ok stop ↔ ∃ a, Yields σ (.rule r true) start a ∧ a.reading = some stop := by
  constructor
  · intro h
    have hends : Terminates σ r start := by
      by_contra hnot
      rw [run_endless_iff.mpr hnot] at h
      cases h
    obtain ⟨a, ha⟩ := terminates_iff.mp hends
    refine ⟨a, ha, ?_⟩
    have hfound := run_of_yields ha
    cases hrun : run σ r start with
    | error e =>
      rw [hrun] at h
      cases h
    | ok result =>
      rw [hrun] at h hfound
      cases h
      obtain ⟨stop, t⟩ := result
      cases a <;> cases stop <;> cases hfound <;> rfl
  · rintro ⟨a, ha, hstop⟩
    have hfound := run_of_yields ha
    cases hrun : run σ r start with
    | error e =>
      rw [hrun] at hfound
      cases a <;> cases hfound
      cases hstop
    | ok result =>
      rw [hrun] at hfound
      obtain ⟨stop, t⟩ := result
      cases a <;> cases stop <;> cases hfound <;> cases hstop <;> rfl

/-- A run ends where its rule does with some amount of fuel. --/
theorem run_stop_iff {r : RuleId} {start : Nat} {stop : Option Nat} :
    (run σ r start).map Run.stop = .ok stop ↔
      ∃ fuel, (answer σ fuel).ruleReader σ.grammar r start = some stop := by
  rw [run_stop_iff_yields]
  constructor
  · rintro ⟨a, ha, hstop⟩
    obtain ⟨fuel, hp⟩ := exists_perform ha
    refine ⟨fuel, ?_⟩
    rw [← Answerer.reading_rule (answer σ fuel) σ true r start]
    exact Option.bind_eq_some_iff.mpr ⟨a, hp, hstop⟩
  · rintro ⟨fuel, h⟩
    rw [← Answerer.reading_rule (answer σ fuel) σ true r start] at h
    obtain ⟨a, ha, hstop⟩ := Option.bind_eq_some_iff.mp h
    have hyields : Yields σ (.rule r true) start a := yields_of_perform ha
    exact ⟨a, hyields, hstop⟩

end

end Match
end Abnf
