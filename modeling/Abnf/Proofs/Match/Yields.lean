import Abnf.Proofs.Match.Answer

/-! The rules of matching without fuel. `Yields` relates what is to be matched at a position to its answer, and
    has a rule for each way in which a node can come to one. An answer that comes with some amount of fuel is one
    by these rules (`yields_of_perform`). -/

namespace Abnf

/-- Whether an answer is a match. --/
def Answer.isMatch : Answer → Bool
  | matched .. => true
  | _ => false

namespace Match

/-- What there is to match: a node, or a part of one that is under way. --/
inductive Task where
  | node (n : NodeId)
  | rule (r : RuleId) (wanted : Bool)
  /-- The nodes of a sequence that are left. --/
  | sequence (ns : List NodeId)
  /-- The alternatives that are left, and the log of the first so far that matched empty. --/
  | choice (ns : List NodeId) (empty : Option Log)
  /-- The rounds of a repetition after `count` of them. --/
  | rounds (n : NodeId) (min : Nat) (max : Option Nat) (count : Nat)

/-- What comes of a task at a position. --/
inductive Yields (σ : Setting) : Task → Nat → Answer → Prop where
  -- nodes
  | missing {i pos} (h : σ.grammar.nodes[i]? = none) : Yields σ (.node i) pos .noMatch
  | literal {i bytes ignoreCase pos} (h : σ.grammar.nodes[i]? = some (.literal bytes ignoreCase)) :
      Yields σ (.node i) pos (.leaf (literal? σ.input bytes ignoreCase pos))
  | charRange {i lo hi pos} (h : σ.grammar.nodes[i]? = some (.charRange lo hi)) :
      Yields σ (.node i) pos (.leaf (charRange? σ.input lo hi pos))
  | sequence {i ns pos a} (h : σ.grammar.nodes[i]? = some (.sequence ns)) (hs : Yields σ (.sequence ns) pos a) :
      Yields σ (.node i) pos a
  | choice {i ns pos a} (h : σ.grammar.nodes[i]? = some (.choice ns)) (hs : Yields σ (.choice ns none) pos a) :
      Yields σ (.node i) pos a
  | repetition {i n min max pos a} (h : σ.grammar.nodes[i]? = some (.repetition n min max))
      (hs : Yields σ (.rounds n min.toNat (max.map UInt32.toNat) 0) pos a) : Yields σ (.node i) pos a
  | ruleRef {i r pos a} (h : σ.grammar.nodes[i]? = some (.ruleRef r)) (hs : Yields σ (.rule r (σ.observed r)) pos a) :
      Yields σ (.node i) pos a
  | fold {i n pos a} (h : σ.grammar.nodes[i]? = some (.fold n)) (hs : Yields σ (.node n) pos a) :
      Yields σ (.node i) pos a
  -- rules
  | undefined {r wanted pos} (h : σ.grammar.root? r = none) : Yields σ (.rule r wanted) pos (.undefined r)
  | rule {r root wanted pos a} (h : σ.grammar.root? r = some root) (hs : Yields σ (.node root) pos a) :
      Yields σ (.rule r wanted) pos (a.leave wanted r pos)
  -- sequences
  | sequenceNil {pos} : Yields σ (.sequence []) pos (.matched pos #[])
  | sequenceCons {n ns pos mid l a} (h : Yields σ (.node n) pos (.matched mid l)) (hs : Yields σ (.sequence ns) mid a) :
      Yields σ (.sequence (n :: ns)) pos (a.after l)
  | sequenceStop {n ns pos a} (h : Yields σ (.node n) pos a) (ha : a.isMatch = false) :
      Yields σ (.sequence (n :: ns)) pos a
  -- choices
  | choiceNil {empty pos} : Yields σ (.choice [] empty) pos (empty.elim .noMatch (.matched pos))
  | choiceSkip {n ns empty pos a} (hn : admits σ pos n = false) (hs : Yields σ (.choice ns empty) pos a) :
      Yields σ (.choice (n :: ns) empty) pos a
  | choiceTake {n ns empty pos stop l} (hn : admits σ pos n = true) (h : Yields σ (.node n) pos (.matched stop l))
      (hlt : pos < stop) : Yields σ (.choice (n :: ns) empty) pos (.matched stop l)
  | choiceEmpty {n ns empty pos stop l a} (hn : admits σ pos n = true) (h : Yields σ (.node n) pos (.matched stop l))
      (hlt : ¬pos < stop) (hs : Yields σ (.choice ns (some (empty.getD l))) pos a) :
      Yields σ (.choice (n :: ns) empty) pos a
  | choiceFail {n ns empty pos a} (hn : admits σ pos n = true) (h : Yields σ (.node n) pos .noMatch)
      (hs : Yields σ (.choice ns empty) pos a) : Yields σ (.choice (n :: ns) empty) pos a
  | choiceStop {n ns empty pos r} (hn : admits σ pos n = true) (h : Yields σ (.node n) pos (.undefined r)) :
      Yields σ (.choice (n :: ns) empty) pos (.undefined r)
  -- repetitions
  | roundsFull {n min max count pos} (hc : max.all (count < ·) = false) :
      Yields σ (.rounds n min max count) pos (.settle min count pos)
  | roundsEmpty {n min max count pos l} (hc : max.all (count < ·) = true) (h : Yields σ (.node n) pos (.matched pos l)) :
      Yields σ (.rounds n min max count) pos ((Answer.settle min (Nat.max (count + 1) min) pos).after l)
  | roundsNext {n min max count pos stop l a} (hc : max.all (count < ·) = true)
      (h : Yields σ (.node n) pos (.matched stop l)) (hne : stop ≠ pos)
      (hs : Yields σ (.rounds n min max (count + 1)) stop a) : Yields σ (.rounds n min max count) pos (a.after l)
  | roundsFail {n min max count pos} (hc : max.all (count < ·) = true) (h : Yields σ (.node n) pos .noMatch) :
      Yields σ (.rounds n min max count) pos (.settle min count pos)
  | roundsStop {n min max count pos r} (hc : max.all (count < ·) = true) (h : Yields σ (.node n) pos (.undefined r)) :
      Yields σ (.rounds n min max count) pos (.undefined r)

/-- What a task comes to if the nodes in it have an amount of fuel. --/
def perform (σ : Setting) (fuel : Nat) : Task → Nat → Option Answer
  | .node n, pos => answer σ fuel n pos
  | .rule r wanted, pos => Answerer.rule σ (answer σ fuel) wanted r pos
  | .sequence ns, pos => Answerer.sequence (answer σ fuel) ns pos
  | .choice ns empty, pos => Answerer.choice (answer σ fuel) (admits σ pos) empty ns pos
  | .rounds n min max count, pos =>
    Answerer.rounds (answer σ fuel n) min max (σ.input.size - pos + 1) count pos

/-! ### Answers obey the rules -/

section
variable {σ : Setting} {child : Answerer}

/-- Children answer as the rules say. --/
def Obeys (σ : Setting) (child : Answerer) : Prop :=
  ∀ n pos a, child n pos = some a → Yields σ (.node n) pos a

theorem Obeys.rule (h : Obeys σ child) {wanted : Bool} {r : RuleId} {pos : Nat} {a : Answer}
    (ha : child.rule σ wanted r pos = some a) : Yields σ (.rule r wanted) pos a := by
  unfold Answerer.rule at ha
  split at ha
  · cases ha
    exact .undefined ‹_›
  · obtain ⟨b, hb, rfl⟩ := Option.map_eq_some_iff.mp ha
    exact .rule ‹_› (h _ _ _ hb)

theorem Obeys.sequence (h : Obeys σ child) : ∀ {ns : List NodeId} {pos : Nat} {a : Answer},
    child.sequence ns pos = some a → Yields σ (.sequence ns) pos a
  | [], pos, a, ha => by
    cases ha
    exact .sequenceNil
  | n :: ns, pos, a, ha => by
    rw [Answerer.sequence] at ha
    split at ha
    · obtain ⟨b, hb, rfl⟩ := Option.map_eq_some_iff.mp ha
      exact .sequenceCons (h _ _ _ ‹_›) (h.sequence hb)
    · rename_i hne
      refine .sequenceStop (h _ _ _ ha) ?_
      cases a with
      | matched stop l => exact absurd ha (hne stop l)
      | _ => rfl

theorem Obeys.choice (h : Obeys σ child) : ∀ {ns : List NodeId} {empty : Option Log} {pos : Nat} {a : Answer},
    child.choice (admits σ pos) empty ns pos = some a → Yields σ (.choice ns empty) pos a
  | [], empty, pos, a, ha => by
    cases ha
    exact .choiceNil
  | n :: ns, empty, pos, a, ha => by
    rw [Answerer.choice] at ha
    cases hn : admits σ pos n with
    | false => exact .choiceSkip hn (h.choice (by simpa [hn] using ha))
    | true =>
      rw [if_pos hn] at ha
      cases hc : child n pos with
      | none => simp [hc] at ha
      | some b =>
        have hb := h _ _ _ hc
        rw [hc] at ha
        cases b with
        | matched stop l =>
          dsimp only at ha
          split at ha
          · cases ha
            exact .choiceTake hn hb ‹_›
          · exact .choiceEmpty hn hb ‹_› (h.choice ha)
        | noMatch => exact .choiceFail hn hb (h.choice ha)
        | undefined r =>
          cases ha
          exact .choiceStop hn hb

theorem Obeys.rounds (h : Obeys σ child) {n : NodeId} {min : Nat} {max : Option Nat} :
    ∀ {bound count pos : Nat} {a : Answer}, Answerer.rounds (child n) min max bound count pos = some a →
      Yields σ (.rounds n min max count) pos a
  | 0, _, _, _, ha => by cases ha
  | bound + 1, count, pos, a, ha => by
    rw [Answerer.rounds] at ha
    cases hc : max.all (count < ·) with
    | false =>
      simp only [hc, Bool.false_eq_true, ↓reduceIte, Option.some.injEq] at ha
      exact ha ▸ .roundsFull hc
    | true =>
      rw [if_pos hc] at ha
      cases hn : child n pos with
      | none => simp [hn] at ha
      | some b =>
        have hb := h _ _ _ hn
        rw [hn] at ha
        cases b with
        | matched stop l =>
          dsimp only at ha
          split at ha
          · subst_vars
            cases ha
            exact .roundsEmpty hc hb
          · obtain ⟨b, hr, rfl⟩ := Option.map_eq_some_iff.mp ha
            exact .roundsNext hc hb ‹_› (h.rounds hr)
        | noMatch =>
          cases ha
          exact .roundsFail hc hb
        | undefined r =>
          cases ha
          exact .roundsStop hc hb

theorem Obeys.node (h : Obeys σ child) {i : NodeId} {n : Node} (hi : σ.grammar.nodes[i]? = some n) {pos : Nat}
    {a : Answer} (ha : child.node σ n pos = some a) : Yields σ (.node i) pos a := by
  cases n with
  | literal bytes ignoreCase =>
    cases ha
    exact .literal hi
  | charRange lo hi' =>
    cases ha
    exact .charRange hi
  | sequence ns => exact .sequence hi (h.sequence ha)
  | choice ns => exact .choice hi (h.choice ha)
  | repetition n min max => exact .repetition hi (h.rounds ha)
  | ruleRef r => exact .ruleRef hi (h.rule ha)
  | fold n => exact .fold hi (h _ _ _ ha)

theorem obeys_answer (σ : Setting) : ∀ fuel, Obeys σ (answer σ fuel)
  | 0, _, _, _, ha => by cases ha
  | fuel + 1, i, pos, a, ha => by
    rw [answer] at ha
    split at ha
    · exact (obeys_answer σ fuel).node ‹_› ha
    · cases ha
      exact .missing ‹_›

theorem yields_of_perform {fuel : Nat} {task : Task} {pos : Nat} {a : Answer} (ha : perform σ fuel task pos = some a) :
    Yields σ task pos a := by
  have h := obeys_answer σ fuel
  cases task with
  | node n => exact h _ _ _ ha
  | rule r wanted => exact h.rule ha
  | sequence ns => exact h.sequence ha
  | choice ns empty => exact h.choice ha
  | rounds n min max count => exact h.rounds ha

/-- An evaluation that comes to a result shows an answer. --/
theorem exists_yields {fuel : Nat} {i : NodeId} {pos : Nat} {t : Trail} (h : (evaluate σ fuel i pos t).isSome = true) :
    ∃ a, Yields σ (.node i) pos a := by
  have hshows := shows_evaluate σ fuel i pos t
  cases ha : answer σ fuel i pos with
  | some a => exact ⟨a, obeys_answer σ fuel i pos a ha⟩
  | none =>
    rw [ha] at hshows
    generalize evaluate σ fuel i pos t = x at h hshows
    cases hshows
    cases h

end

/-! ### Matches go forward -/

theorem bytesAt_le {input : ByteArray} {ignoreCase : Bool} : ∀ {bytes : List UInt8} {pos : Nat},
    pos ≤ input.size → bytesAt input ignoreCase pos bytes = true → pos + bytes.length ≤ input.size
  | [], _, h, _ => h
  | b :: bs, pos, h, hb => by
    simp only [bytesAt, Bool.and_eq_true] at hb
    cases hi : input[pos]? with
    | none => simp [hi] at hb
    | some c =>
      have hlt : pos < input.size := (getElem?_eq_some_iff.mp hi).1
      have htail : pos + 1 + bs.length ≤ input.size := bytesAt_le (by omega) hb.2
      simp only [List.length_cons]
      omega

/-- A match that ends where it began, or further on in the input. --/
def Forward (size pos stop : Nat) : Prop := pos ≤ stop ∧ (stop = pos ∨ stop ≤ size)

theorem Forward.refl (size pos : Nat) : Forward size pos pos := ⟨Nat.le_refl _, Or.inl rfl⟩

theorem Forward.trans {size a b c : Nat} (h₁ : Forward size a b) (h₂ : Forward size b c) : Forward size a c := by
  obtain ⟨h₁, h₁'⟩ := h₁
  obtain ⟨h₂, h₂'⟩ := h₂
  exact ⟨by omega, by omega⟩

theorem literal?_forward {input : ByteArray} {bytes : List UInt8} {ignoreCase : Bool} {pos stop : Nat}
    (h : literal? input bytes ignoreCase pos = some stop) : Forward input.size pos stop := by
  simp only [literal?, Option.ite_none_right_eq_some, Option.some.injEq] at h
  obtain ⟨⟨hle, hb⟩, rfl⟩ := h
  exact ⟨by omega, Or.inr (bytesAt_le hle hb)⟩

theorem charRange?_forward {input : ByteArray} {lo hi : UInt32} {pos stop : Nat}
    (h : charRange? input lo hi pos = some stop) : Forward input.size pos stop := by
  unfold charRange? at h
  split at h <;> split at h
  · rename_i hb
    have hlt : pos < input.size := (getElem?_eq_some_iff.mp hb).1
    simp only [Option.ite_none_right_eq_some, Option.some.injEq] at h
    exact ⟨by omega, by omega⟩
  · cases h
  · rename_i hc
    have := ByteArray.le_size_of_utf8DecodeChar?_eq_some hc
    simp only [Option.ite_none_right_eq_some, Option.some.injEq] at h
    exact ⟨by omega, by omega⟩
  · cases h

theorem Answer.after_eq_matched {a : Answer} {l k : Log} {stop : Nat} (h : a.after l = .matched stop k) :
    ∃ k', a = .matched stop k' := by
  cases a <;> simp_all [Answer.after]

theorem Answer.leave_eq_matched {a : Answer} {wanted : Bool} {r : RuleId} {pos stop : Nat} {k : Log}
    (h : a.leave wanted r pos = .matched stop k) : ∃ k', a = .matched stop k' := by
  cases a <;> simp_all [Answer.leave]

theorem Answer.leaf_eq_matched {stop? : Option Nat} {stop : Nat} {k : Log} (h : Answer.leaf stop? = .matched stop k) :
    stop? = some stop := by
  cases stop? <;> simp_all [Answer.leaf]

theorem Answer.settle_eq_matched {min count pos stop : Nat} {k : Log}
    (h : Answer.settle min count pos = .matched stop k) : stop = pos := by
  unfold Answer.settle at h
  split at h <;> simp_all

theorem Yields.forward {σ : Setting} {task : Task} {pos : Nat} {a : Answer} (h : Yields σ task pos a) :
    ∀ stop l, a = .matched stop l → Forward σ.input.size pos stop := by
  induction h with
  | missing => rintro _ _ ⟨⟩
  | literal => exact fun stop l ha => literal?_forward (Answer.leaf_eq_matched ha)
  | charRange => exact fun stop l ha => charRange?_forward (Answer.leaf_eq_matched ha)
  | sequence _ _ ih | choice _ _ ih | repetition _ _ ih | ruleRef _ _ ih | fold _ _ ih => exact ih
  | undefined => rintro _ _ ⟨⟩
  | rule _ _ ih =>
    intro stop l ha
    obtain ⟨k, rfl⟩ := Answer.leave_eq_matched ha
    exact ih _ _ rfl
  | sequenceNil =>
    rintro _ _ ⟨⟩
    exact Forward.refl _ _
  | sequenceCons _ _ ih₁ ih₂ =>
    intro stop l ha
    obtain ⟨k, rfl⟩ := Answer.after_eq_matched ha
    exact (ih₁ _ _ rfl).trans (ih₂ _ _ rfl)
  | sequenceStop _ ha =>
    rintro _ _ rfl
    cases ha
  | @choiceNil empty pos =>
    intro stop l ha
    cases empty <;> cases ha
    exact Forward.refl _ _
  | choiceSkip _ _ ih | choiceEmpty _ _ _ _ _ ih | choiceFail _ _ _ _ ih => exact ih
  | choiceTake _ _ _ ih => exact ih
  | choiceStop => rintro _ _ ⟨⟩
  | roundsFull | roundsFail =>
    intro stop l ha
    exact Answer.settle_eq_matched ha ▸ Forward.refl _ _
  | roundsEmpty =>
    intro stop l ha
    obtain ⟨k, ha⟩ := Answer.after_eq_matched ha
    exact Answer.settle_eq_matched ha ▸ Forward.refl _ _
  | roundsNext _ _ _ _ ih₁ ih₂ =>
    intro stop l ha
    obtain ⟨k, rfl⟩ := Answer.after_eq_matched ha
    exact (ih₁ _ _ rfl).trans (ih₂ _ _ rfl)
  | roundsStop => rintro _ _ ⟨⟩

end Match
end Abnf
