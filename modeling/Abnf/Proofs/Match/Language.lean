import Abnf.Proofs.Grammar.WellFormed
import Abnf.Proofs.Match.Reading

/-! The language of a grammar, and that matches stay inside it. `Derives` reads a grammar as one that is free of
    context: alternatives have no order, and a repetition stands for any number of rounds that its bounds allow.
    Matching is greedy and commits itself, so it does not find every word, but what it matches is one
    (`run_derives`). The choices that need a reason are two: a round that reads nothing stands for all
    that are missing, each of which derives the empty word, and an alternative that matched empty is
    kept only if no later one reads anything. -/

namespace Abnf
namespace Grammar

/-! ### Words -/

mutual

/-- The words that a node derives. --/
inductive Derives (g : Grammar) : NodeId → List UInt8 → Prop where
  | exact {i : NodeId} {bytes : List UInt8} (h : g.nodes[i]? = some (.literal bytes false)) : g.Derives i bytes
  | caseless {i : NodeId} {bytes word : List UInt8} (h : g.nodes[i]? = some (.literal bytes true))
      (hw : word.map Byte.small = bytes.map Byte.small) : g.Derives i word
  | byte {i : NodeId} {lo hi : UInt32} {b : UInt8} (h : g.nodes[i]? = some (.charRange lo hi)) (hlim : hi < byteLimit)
      (hlo : lo ≤ b.toUInt32) (hhi : b.toUInt32 ≤ hi) : g.Derives i [b]
  | char {i : NodeId} {lo hi : UInt32} {c : Char} (h : g.nodes[i]? = some (.charRange lo hi)) (hlim : byteLimit ≤ hi)
      (hlo : lo ≤ c.val) (hhi : c.val ≤ hi) : g.Derives i (String.utf8EncodeChar c)
  | sequence {i : NodeId} {ns : List NodeId} {word : List UInt8} (h : g.nodes[i]? = some (.sequence ns))
      (hw : g.DerivesAll ns word) : g.Derives i word
  | choice {i n : NodeId} {ns : List NodeId} {word : List UInt8} (h : g.nodes[i]? = some (.choice ns)) (hn : n ∈ ns)
      (hw : g.Derives n word) : g.Derives i word
  | repetition {i n : NodeId} {min : UInt32} {max : Option UInt32} {count : Nat} {word : List UInt8}
      (h : g.nodes[i]? = some (.repetition n min max)) (hmin : min.toNat ≤ count)
      (hmax : ∀ m ∈ max, count ≤ m.toNat) (hw : g.DerivesAll (List.replicate count n) word) : g.Derives i word
  | ruleRef {i root : NodeId} {r : RuleId} {word : List UInt8} (h : g.nodes[i]? = some (.ruleRef r))
      (hr : g.root? r = some root) (hw : g.Derives root word) : g.Derives i word
  | fold {i n : NodeId} {word : List UInt8} (h : g.nodes[i]? = some (.fold n)) (hw : g.Derives n word) :
      g.Derives i word

/-- The words that nodes derive one after the other. --/
inductive DerivesAll (g : Grammar) : List NodeId → List UInt8 → Prop where
  | nil : g.DerivesAll [] []
  | cons {n : NodeId} {ns : List NodeId} {word rest : List UInt8} (h : g.Derives n word) (hs : g.DerivesAll ns rest) :
      g.DerivesAll (n :: ns) (word ++ rest)

end

/-- The words of a rule. --/
def RuleDerives (g : Grammar) (r : RuleId) (word : List UInt8) : Prop :=
  ∃ root, g.root? r = some root ∧ g.Derives root word

theorem derivesAll_replicate {g : Grammar} {n : NodeId} (h : g.Derives n []) :
    ∀ count, g.DerivesAll (List.replicate count n) []
  | 0 => .nil
  | count + 1 => .cons h (derivesAll_replicate h count)

/-- Repetitions with bounds that are the right way round. --/
def Ordered (g : Grammar) : Prop := ∀ n min max, Node.repetition n min (some max) ∈ g.nodes → min ≤ max

/-- Two or three times `"" / "b"`. --/
def padded : Grammar :=
  ⟨"padded", #[.literal [] true, .literal [0x62] true, .choice [0, 1], .repetition 2 2 (some 3)], #[⟨"r", some 3⟩], none⟩

end Grammar

/-! ### The bytes of a match -/

/-- The input between two positions. --/
def stretch (input : ByteArray) (pos stop : Nat) : List UInt8 := (input.extract pos stop).data.toList

theorem stretch_eq (input : ByteArray) (pos stop : Nat) :
    stretch input pos stop = (input.data.toList.drop pos).take (stop - pos) := by
  rw [stretch, ByteArray.data_extract, Array.toList_extract, List.extract_eq_take_drop]

theorem stretch_self (input : ByteArray) (pos : Nat) : stretch input pos pos = [] := by
  rw [stretch_eq, Nat.sub_self, List.take_zero]

theorem stretch_append (input : ByteArray) {pos mid stop : Nat} (h₁ : pos ≤ mid) (h₂ : mid ≤ stop) :
    stretch input pos mid ++ stretch input mid stop = stretch input pos stop := by
  obtain ⟨k, rfl⟩ := Nat.exists_eq_add_of_le h₁
  obtain ⟨l, rfl⟩ := Nat.exists_eq_add_of_le h₂
  simp only [stretch_eq]
  rw [Nat.add_sub_cancel_left, Nat.add_sub_cancel_left, Nat.add_assoc, Nat.add_sub_cancel_left, List.take_add,
    List.drop_drop]

theorem stretch_byte {input : ByteArray} {pos : Nat} {b : UInt8} (h : input[pos]? = some b) :
    stretch input pos (pos + 1) = [b] := by
  rw [getElem?_eq_data, ← Array.getElem?_toList] at h
  rw [stretch_eq, Nat.add_sub_cancel_left, ← List.getElem_cons_drop (List.getElem?_eq_some_iff.mp h).1,
    List.take_succ_cons, List.take_zero, (List.getElem?_eq_some_iff.mp h).2]

namespace Match

variable {σ : Setting}

/-- The stretch of a literal is the literal, as far as `ignoreCase` tells bytes apart. --/
theorem stretch_of_literal? {input : ByteArray} {bytes : List UInt8} {ignoreCase : Bool} {pos stop : Nat}
    (h : literal? input bytes ignoreCase pos = some stop) :
    (stretch input pos stop).map (if ignoreCase then Byte.small else id) =
      bytes.map (if ignoreCase then Byte.small else id) := by
  have hread := literal?_eq input bytes ignoreCase pos
  rw [h, Reader.bytes, Option.some.injEq, eq_comm, Option.ite_none_right_eq_some] at hread
  obtain ⟨⟨-, hbytes⟩, hstop⟩ := hread
  cases hstop
  rwa [stretch_eq, Nat.add_sub_cancel_left]

theorem derives_literal {i : NodeId} {bytes : List UInt8} {ignoreCase : Bool} {pos stop : Nat}
    (hi : σ.grammar.nodes[i]? = some (.literal bytes ignoreCase))
    (h : literal? σ.input bytes ignoreCase pos = some stop) : σ.grammar.Derives i (stretch σ.input pos stop) := by
  have hword := stretch_of_literal? h
  cases ignoreCase with
  | true => exact .caseless hi hword
  | false =>
    simp only [Bool.false_eq_true, ↓reduceIte, List.map_id] at hword
    exact hword ▸ .exact hi

theorem derives_charRange {i : NodeId} {lo hi : UInt32} {pos stop : Nat}
    (hi' : σ.grammar.nodes[i]? = some (.charRange lo hi)) (h : charRange? σ.input lo hi pos = some stop) :
    σ.grammar.Derives i (stretch σ.input pos stop) := by
  unfold charRange? at h
  split at h
  · rename_i hlim
    split at h
    · rename_i b hb
      simp only [Option.ite_none_right_eq_some, Option.some.injEq] at h
      obtain ⟨⟨hlo, hhi⟩, rfl⟩ := h
      rw [stretch_byte hb]
      exact .byte hi' hlim hlo hhi
    · cases h
  · rename_i hlim
    split at h
    · rename_i c hc
      simp only [Option.ite_none_right_eq_some, Option.some.injEq] at h
      obtain ⟨⟨hlo, hhi⟩, rfl⟩ := h
      rw [stretch, toList_extract_of_utf8DecodeChar? hc]
      exact .char hi' (UInt32.not_lt.mp hlim) hlo hhi
    · cases h

/-! ### Tasks -/

/-- The words that a task derives. Alternatives already passed over come in as the empty match kept from them, and
    rounds already made count towards the bounds. --/
def Task.Derives (g : Grammar) : Task → List UInt8 → Prop
  | .node i, word => g.Derives i word
  | .rule r _, word => g.RuleDerives r word
  | .sequence ns, word => g.DerivesAll ns word
  | .choice ns empty, word => (∃ n ∈ ns, g.Derives n word) ∨ empty.isSome = true ∧ word = []
  | .rounds n min max count, word =>
    ∃ more, min ≤ count + more ∧ (∀ m ∈ max, count + more ≤ m) ∧ g.DerivesAll (List.replicate more n) word

/-- A repetition that has not gone beyond its bounds, which are the right way round. --/
def Task.Within : Task → Prop
  | .rounds _ min max count => ∀ m ∈ max, count ≤ m ∧ min ≤ m
  | _ => True

theorem Task.within_rounds_zero (hord : σ.grammar.Ordered) {i n : NodeId} {min : UInt32} {max : Option UInt32}
    (hi : σ.grammar.nodes[i]? = some (.repetition n min max)) :
    (Task.rounds n min.toNat (max.map UInt32.toNat) 0).Within := by
  rintro m hm
  obtain ⟨b, rfl, rfl⟩ := Option.map_eq_some_iff.mp hm
  exact ⟨Nat.zero_le _, UInt32.le_iff_toNat_le.mp (hord _ _ _ (Array.mem_of_getElem? hi))⟩

section
variable {g : Grammar} {n : NodeId} {min : Nat} {max : Option Nat} {count : Nat}

theorem Task.Within.next (h : (Task.rounds n min max count).Within) (hcount : max.all (count < ·) = true) :
    (Task.rounds n min max (count + 1)).Within := by
  intro m hm
  rw [Option.mem_def.mp hm] at hcount
  exact ⟨of_decide_eq_true hcount, (h m hm).2⟩

theorem derives_settle {pos stop : Nat} {l : Log} (hwithin : (Task.rounds n min max count).Within)
    (h : Answer.settle min count pos = .matched stop l) : (Task.rounds n min max count).Derives g [] := by
  rw [Answer.settle] at h
  split at h
  · cases h
  · exact ⟨0, by omega, fun m hm => (hwithin m hm).1, .nil⟩

/-- An empty round stands for all that are missing, since each of them derives the empty word. --/
theorem derives_empty_round (hwithin : (Task.rounds n min max (count + 1)).Within) (h : g.Derives n []) :
    (Task.rounds n min max count).Derives g [] := by
  have hcount : count + 1 ≤ Nat.max (count + 1) min := Nat.le_max_left _ _
  have hmin : min ≤ Nat.max (count + 1) min := Nat.le_max_right _ _
  refine ⟨Nat.max (count + 1) min - count, by omega, fun m hm => ?_, Grammar.derivesAll_replicate h _⟩
  have hmax : Nat.max (count + 1) min ≤ m := Nat.max_le.mpr (hwithin m hm)
  omega

theorem derives_next_round {word words : List UInt8} (h : g.Derives n word)
    (hs : (Task.rounds n min max (count + 1)).Derives g words) :
    (Task.rounds n min max count).Derives g (word ++ words) := by
  obtain ⟨more, hmin, hmax, hw⟩ := hs
  refine ⟨more + 1, by omega, fun m hm => ?_, .cons h hw⟩
  have := hmax m hm
  omega

end

/-- What a task matches is one of its words. --/
theorem Yields.derives (hord : σ.grammar.Ordered) {task : Task} {pos : Nat} {a : Answer} (h : Yields σ task pos a) :
    ∀ stop l, a = .matched stop l → task.Within → task.Derives σ.grammar (stretch σ.input pos stop) := by
  induction h with
  | missing | undefined | choiceStop | roundsStop => rintro _ _ ⟨⟩
  | literal h => exact fun stop l ha _ => derives_literal h (Answer.leaf_eq_matched ha)
  | charRange h => exact fun stop l ha _ => derives_charRange h (Answer.leaf_eq_matched ha)
  | sequence h _ ih => exact fun stop l ha _ => .sequence h (ih stop l ha trivial)
  | choice h _ ih =>
    intro stop l ha _
    obtain ⟨n, hn, hw⟩ | ⟨⟨⟩, -⟩ := ih stop l ha trivial
    exact .choice h hn hw
  | repetition h _ ih =>
    intro stop l ha _
    obtain ⟨count, hmin, hmax, hw⟩ := ih stop l ha (Task.within_rounds_zero hord h)
    rw [Nat.zero_add] at hmin hmax
    exact .repetition h hmin (fun m hm => hmax m.toNat (Option.mem_map_of_mem _ hm)) hw
  | ruleRef h _ ih =>
    intro stop l ha _
    obtain ⟨root, hr, hw⟩ := ih stop l ha trivial
    exact .ruleRef h hr hw
  | fold h _ ih => exact fun stop l ha _ => .fold h (ih stop l ha trivial)
  | rule h _ ih =>
    intro stop l ha _
    obtain ⟨k, rfl⟩ := Answer.leave_eq_matched ha
    exact ⟨_, h, ih stop k rfl trivial⟩
  | sequenceNil =>
    rintro _ _ ⟨⟩ _
    rw [stretch_self]
    exact .nil
  | @sequenceCons n ns pos mid l a h hs ih₁ ih₂ =>
    intro stop k ha _
    obtain ⟨k, rfl⟩ := Answer.after_eq_matched ha
    rw [← stretch_append σ.input (h.forward _ _ rfl).1 (hs.forward _ _ rfl).1]
    exact .cons (ih₁ mid l rfl trivial) (ih₂ stop k rfl trivial)
  | sequenceStop _ ha =>
    rintro _ _ rfl
    cases ha
  | @choiceNil empty pos =>
    intro stop l ha _
    cases empty <;> cases ha
    exact Or.inr ⟨rfl, stretch_self σ.input pos⟩
  | choiceSkip _ _ ih | choiceFail _ _ _ _ ih =>
    intro stop l ha _
    exact (ih stop l ha trivial).imp_left fun ⟨n, hn, hw⟩ => ⟨n, List.mem_cons_of_mem _ hn, hw⟩
  | choiceTake _ _ _ ih => exact fun stop l ha _ => Or.inl ⟨_, List.mem_cons_self, ih stop l ha trivial⟩
  | @choiceEmpty n ns empty pos mid k a _ h hlt _ ih₁ ih₂ =>
    intro stop l ha _
    obtain rfl : mid = pos := Nat.le_antisymm (Nat.not_lt.mp hlt) (h.forward _ _ rfl).1
    refine Or.inl ?_
    rcases ih₂ stop l ha trivial with ⟨m, hm, hw⟩ | ⟨-, hw⟩
    · exact ⟨m, List.mem_cons_of_mem _ hm, hw⟩
    · -- No later alternative matched, so the word is the empty one that this alternative derives.
      have hn := ih₁ mid k rfl trivial
      rw [stretch_self] at hn
      exact ⟨n, List.mem_cons_self, hw ▸ hn⟩
  | @roundsFull n min max count pos _ | @roundsFail n min max count pos _ _ =>
    intro stop l ha hwithin
    rw [Answer.settle_eq_matched ha, stretch_self]
    exact derives_settle hwithin ha
  | @roundsEmpty n min max count pos k hcount _ ih =>
    intro stop l ha hwithin
    obtain ⟨l, ha⟩ := Answer.after_eq_matched ha
    have hn := ih pos k rfl trivial
    rw [stretch_self] at hn
    rw [Answer.settle_eq_matched ha, stretch_self]
    exact derives_empty_round (hwithin.next hcount) hn
  | roundsNext hcount h _ hs ih₁ ih₂ =>
    intro stop l ha hwithin
    obtain ⟨l, rfl⟩ := Answer.after_eq_matched ha
    rw [← stretch_append σ.input (h.forward _ _ rfl).1 (hs.forward _ _ rfl).1]
    exact derives_next_round (ih₁ _ _ rfl trivial) (ih₂ stop l rfl (hwithin.next hcount))

/-- What a match of a rule covers is a word of the rule, with first sets or without them. --/
theorem run_derives {g : Grammar} (hord : g.Ordered) {input : ByteArray} {observed : RuleId → Bool} {r : RuleId}
    {start stop : Nat} (h : (run ⟨g, input, observed⟩ r start).map Run.stop = .ok (some stop)) :
    start ≤ stop ∧ g.RuleDerives r (stretch input start stop) := by
  obtain ⟨a, ha, hstop⟩ := run_stop_iff_yields.mp h
  cases a with
  | matched stop' l =>
    cases hstop
    exact ⟨(ha.forward _ _ rfl).1, ha.derives hord _ _ rfl trivial⟩
  | noMatch | undefined => cases hstop

/-- One round reads the letter, the next reads nothing and stands for the one that is missing. --/
theorem run_derives_padded :
    let input : ByteArray := ⟨#[0x42, 0x61]⟩
    Grammar.padded.optimize.Ordered ∧
      (run ⟨Grammar.padded.optimize, input, fun _ => true⟩ 0 0).map Run.stop = .ok (some 1) ∧
      Grammar.padded.optimize.RuleDerives 0 [0x42] := by
  intro input
  have hord : Grammar.padded.optimize.Ordered := by
    intro n min max h
    simp only [Grammar.optimize, Grammar.padded, List.mem_toArray, List.mem_cons, reduceCtorEq, Node.repetition.injEq,
      Option.some.injEq, List.not_mem_nil, or_false, false_or] at h
    obtain ⟨-, rfl, rfl⟩ := h
    decide
  have hrun : (run ⟨Grammar.padded.optimize, input, fun _ => true⟩ 0 0).map Run.stop = .ok (some 1) := by decide +kernel
  exact ⟨hord, hrun, (run_derives hord hrun).2⟩

end Match
end Abnf
