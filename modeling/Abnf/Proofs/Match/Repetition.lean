import Abnf.Proofs.Checked
import Abnf.Proofs.Match.Yields

/-! How often a repetition matches, and what it counts with. The rounds of a repetition are told one by one (`Rounds`), up to
    the one way or another in which they are over (`Course`): so many are allowed and no more, the next one fails,
    or the last one read nothing. What a repetition comes to is read off its course (`Course.eq`), and it has one
    unless its child comes to no answer (`exists_course`). The loop itself counts in a word of 32 bits; each turn
    keeps the count at the number of rounds, which cannot be more than the bytes that they have read
    (`Counted`), so that no input shorter than the greatest word lets it overflow. -/

namespace Abnf
namespace Match

/-- How a node matches at a position, on a trail. --/
abbrev Child := Nat → Trail → Result

/-- A child that matches goes forward, inside an input of a size. --/
def Child.Forward (child : Child) (size : Nat) : Prop :=
  ∀ pos t stop u, child pos t = some (.matched stop, u) → Match.Forward size pos stop

theorem forward_evaluate (σ : Setting) (fuel : Nat) (i : NodeId) :
    Child.Forward (evaluate σ fuel i) σ.input.size := by
  intro pos t stop u h
  have hshows := shows_evaluate σ fuel i pos t
  rw [h] at hshows
  cases ha : answer σ fuel i pos with
  | none =>
    rw [ha] at hshows
    cases hshows
  | some a =>
    rw [ha] at hshows
    cases hshows with
    | @matched _ l _ _ => exact (obeys_answer σ fuel i pos _ ha).forward stop l rfl

/-- An evaluation that is neither a match nor a failure: it does not end, or arrives at a rule that has no definition. --/
inductive Stuck : Result → Prop where
  | endless : Stuck none
  | undefined (r : RuleId) (t : Trail) : Stuck (some (.undefined r, t))

/-- Whether there may be a round after so many. --/
def Allowed (max : Option UInt32) (count : Nat) : Prop := ∀ m ∈ max, count < m.toNat

/-! ### Rounds -/

/-- Rounds of a repetition after which it goes on: where each of them ended, which was not where it began, and the trail
    behind them. --/
inductive Rounds (child : Child) (max : Option UInt32) (pos : Nat) (t : Trail) : List Nat → Trail → Prop where
  | start : Rounds child max pos t [] t
  | next {ends : List Nat} {u : Trail} {stop : Nat} {v : Trail} (h : Rounds child max pos t ends u)
      (hmax : Allowed max ends.length) (hc : child (ends.getLastD pos) u = some (.matched stop, v))
      (hne : stop ≠ ends.getLastD pos) : Rounds child max pos t (ends ++ [stop]) v

/-- All rounds that match: where each of them ended, whether the last one was idle, that is, read nothing, and the trail at
    the end. --/
inductive Course (child : Child) (max : Option UInt32) (pos : Nat) (t : Trail) : List Nat → Bool → Trail → Prop where
  | full {ends : List Nat} {u : Trail} (h : Rounds child max pos t ends u) (hmax : ¬Allowed max ends.length) :
      Course child max pos t ends false u
  | failed {ends : List Nat} {u v : Trail} (h : Rounds child max pos t ends u) (hmax : Allowed max ends.length)
      (hc : child (ends.getLastD pos) u = some (.noMatch, v)) : Course child max pos t ends false v
  | idle {ends : List Nat} {u v : Trail} (h : Rounds child max pos t ends u) (hmax : Allowed max ends.length)
      (hc : child (ends.getLastD pos) u = some (.matched (ends.getLastD pos), v)) :
      Course child max pos t (ends ++ [ends.getLastD pos]) true v

theorem allowed_iff {max : Option UInt32} {count : Nat} :
    (max.map UInt32.toNat).all (count < ·) = true ↔ Allowed max count := by
  simp [Allowed, Option.all_eq_true]

section
variable {child : Child} {max : Option UInt32} {size pos : Nat} {t u v : Trail} {ends : List Nat} {idle : Bool}

/-- Each round has read a byte at least. --/
theorem Rounds.length_le (hf : child.Forward size) (h : Rounds child max pos t ends u) :
    pos + ends.length ≤ ends.getLastD pos ∧ Forward size pos (ends.getLastD pos) := by
  induction h with
  | start => exact ⟨Nat.le_refl _, .refl _ _⟩
  | @next ends u stop v _ _ hc hne ih =>
    have hstop := hf _ _ _ _ hc
    rw [List.getLastD_concat, List.length_append, List.length_singleton]
    refine ⟨?_, ih.2.trans hstop⟩
    have := hstop.1
    omega

theorem Rounds.length_le_size (hf : child.Forward size) (h : Rounds child max pos t ends u) : ends.length ≤ size := by
  obtain ⟨hlen, hle, hlast⟩ := h.length_le hf
  omega

theorem Rounds.length_le_max (h : Rounds child max pos t ends u) : ∀ m ∈ max, ends.length ≤ m.toNat := by
  intro m hm
  cases h with
  | start => exact Nat.zero_le _
  | next _ hmax _ _ =>
    rw [List.length_append, List.length_singleton]
    exact hmax m hm

theorem Course.length_le_max (h : Course child max pos t ends idle u) : ∀ m ∈ max, ends.length ≤ m.toNat := by
  intro m hm
  cases h with
  | full h _ | failed h _ _ => exact h.length_le_max m hm
  | idle _ hmax _ =>
    rw [List.length_append, List.length_singleton]
    exact hmax m hm

/-- The rounds so far can be left out of a repetition. --/
theorem Rounds.unroll (h : Rounds child max pos t ends u) (min mark : Nat) : ∀ bound,
    rounds child min (max.map UInt32.toNat) mark (bound + ends.length) 0 pos t =
      rounds child min (max.map UInt32.toNat) mark bound ends.length (ends.getLastD pos) u := by
  induction h with
  | start => exact fun _ => rfl
  | @next ends u stop v _ hmax hc hne ih =>
    intro bound
    rw [List.length_append, List.length_singleton, ← Nat.add_assoc, Nat.add_right_comm, ih, rounds,
      if_pos (allowed_iff.mpr hmax), hc, List.getLastD_concat]
    exact if_neg hne

/-- A repetition comes to what it comes to after its rounds so far. --/
theorem Rounds.repetition_eq (hf : child.Forward size) (h : Rounds child max pos t ends u) (min : UInt32) :
    ∃ bound, repetition child size min max pos t =
      rounds child min.toNat (max.map UInt32.toNat) t.mark (bound + 1) ends.length (ends.getLastD pos) u := by
  obtain ⟨hlen, hle, hlast⟩ := h.length_le hf
  refine ⟨size - pos - ends.length, ?_⟩
  rw [← h.unroll, repetition]
  congr 1
  omega

/-- What a repetition comes to after all its rounds. --/
def judge (min : UInt32) (mark pos : Nat) (ends : List Nat) (idle : Bool) (t : Trail) : Result :=
  if min.toNat ≤ ends.length ∨ idle = true then some (.matched (ends.getLastD pos), t)
  else some (.noMatch, t.backTo mark)

theorem settle_eq_judge {min : UInt32} {mark : Nat} :
    settle min.toNat mark ends.length (ends.getLastD pos) t = judge min mark pos ends false t := by
  rw [settle, judge]
  by_cases h : ends.length < min.toNat
  · rw [if_pos h, if_neg (by simp [h])]
  · rw [if_neg h, if_pos (.inl (Nat.le_of_not_lt h))]

/-- A repetition is judged by all its rounds. --/
theorem Course.eq (hf : child.Forward size) (h : Course child max pos t ends idle v) (min : UInt32) :
    repetition child size min max pos t = judge min t.mark pos ends idle v := by
  cases h with
  | full h hmax =>
    obtain ⟨bound, heq⟩ := h.repetition_eq hf min
    rw [heq, rounds, if_neg (mt allowed_iff.mp hmax), settle_eq_judge]
  | failed h hmax hc =>
    obtain ⟨bound, heq⟩ := h.repetition_eq hf min
    rw [heq, rounds, if_pos (allowed_iff.mpr hmax), hc]
    exact settle_eq_judge
  | @idle ends u v h hmax hc =>
    obtain ⟨bound, heq⟩ := h.repetition_eq hf min
    rw [heq, rounds, if_pos (allowed_iff.mpr hmax), hc, judge, if_pos (.inr rfl), List.getLastD_concat]
    dsimp only
    rw [if_pos rfl, settle, if_neg (Nat.not_lt_of_le (Nat.le_max_right _ _))]

/-- A child that comes to no answer is what a repetition comes to. --/
theorem Rounds.eq_of_stuck (hf : child.Forward size) (h : Rounds child max pos t ends u) (hmax : Allowed max ends.length)
    {r : Result} (hr : Stuck r) (hc : child (ends.getLastD pos) u = r) (min : UInt32) :
    repetition child size min max pos t = r := by
  obtain ⟨bound, heq⟩ := h.repetition_eq hf min
  rw [heq, rounds, if_pos (allowed_iff.mpr hmax), hc]
  cases hr <;> rfl

/-- After any rounds a repetition goes on to the end of its course, unless its child comes to no answer. --/
theorem Rounds.exists_course (hf : child.Forward size) : ∀ (left : Nat) {ends : List Nat} {u : Trail},
    Rounds child max pos t ends u → size < left + ends.length →
      (∃ ends idle v, Course child max pos t ends idle v) ∨
        ∃ ends u, Rounds child max pos t ends u ∧ Allowed max ends.length ∧ Stuck (child (ends.getLastD pos) u)
  | 0, _, _, h, hleft => by
    have := h.length_le_size hf
    omega
  | left + 1, ends, u, h, hleft => by
    by_cases hmax : Allowed max ends.length
    · cases hc : child (ends.getLastD pos) u with
      | none => exact .inr ⟨ends, u, h, hmax, hc ▸ .endless⟩
      | some x =>
        obtain ⟨outcome, v⟩ := x
        cases outcome with
        | noMatch => exact .inl ⟨ends, false, v, .failed h hmax hc⟩
        | undefined r => exact .inr ⟨ends, u, h, hmax, hc ▸ .undefined r v⟩
        | matched stop =>
          by_cases heq : stop = ends.getLastD pos
          · exact .inl ⟨_, true, v, .idle h hmax (heq ▸ hc)⟩
          · refine (h.next hmax hc heq).exists_course hf left ?_
            rw [List.length_append, List.length_singleton]
            omega
    · exact .inl ⟨ends, false, u, .full h hmax⟩

/-- A repetition has a course, unless its child comes to no answer. --/
theorem exists_course (hf : child.Forward size) (max : Option UInt32) (pos : Nat) (t : Trail) :
    (∃ ends idle v, Course child max pos t ends idle v) ∨
      ∃ ends u, Rounds child max pos t ends u ∧ Allowed max ends.length ∧ Stuck (child (ends.getLastD pos) u) :=
  Rounds.exists_course hf (size + 1) .start (Nat.lt_succ_self size)

/-! ### What a repetition comes to -/

theorem judge_eq_matched {min : UInt32} {mark stop : Nat} : judge min mark pos ends idle u = some (.matched stop, v) ↔
    (min.toNat ≤ ends.length ∨ idle = true) ∧ stop = ends.getLastD pos ∧ u = v := by
  rw [judge]
  split
  · simp [*, eq_comm]
  · simp [*]

theorem judge_eq_noMatch {min : UInt32} {mark : Nat} : judge min mark pos ends idle u = some (.noMatch, v) ↔
    ends.length < min.toNat ∧ idle = false ∧ v = u.backTo mark := by
  rw [judge, ← Bool.not_eq_true, ← Nat.not_le]
  split
  · rename_i h
    simp only [Option.some.injEq, Prod.mk.injEq, reduceCtorEq, false_and, false_iff]
    exact fun h' => h.elim h'.1 h'.2.1
  · rename_i h
    simp [not_or.mp h, eq_comm]

theorem not_stuck_judge {min : UInt32} {mark : Nat} : ¬Stuck (judge min mark pos ends idle u) := by
  rw [judge]
  split
  · exact nofun
  · exact nofun

section
variable (hf : child.Forward size) (min : UInt32)
include hf

theorem repetition_eq_matched {stop : Nat} : repetition child size min max pos t = some (.matched stop, v) ↔
    ∃ ends idle, Course child max pos t ends idle v ∧ (min.toNat ≤ ends.length ∨ idle = true) ∧
      stop = ends.getLastD pos := by
  constructor
  · intro h
    rcases exists_course hf max pos t with ⟨ends, idle, u, hc⟩ | ⟨ends, u, hr, hmax, hs⟩
    · rw [hc.eq hf, judge_eq_matched] at h
      obtain ⟨henough, hstop, rfl⟩ := h
      exact ⟨ends, idle, hc, henough, hstop⟩
    · rw [hr.eq_of_stuck hf hmax hs rfl] at h
      rw [h] at hs
      cases hs
  · rintro ⟨ends, idle, hc, henough, hstop⟩
    rw [hc.eq hf]
    exact judge_eq_matched.mpr ⟨henough, hstop, rfl⟩

theorem repetition_eq_noMatch : repetition child size min max pos t = some (.noMatch, v) ↔
    ∃ ends u, Course child max pos t ends false u ∧ ends.length < min.toNat ∧ v = u.backTo t.mark := by
  constructor
  · intro h
    rcases exists_course hf max pos t with ⟨ends, idle, u, hc⟩ | ⟨ends, u, hr, hmax, hs⟩
    · rw [hc.eq hf, judge_eq_noMatch] at h
      obtain ⟨hless, rfl, hv⟩ := h
      exact ⟨ends, u, hc, hless, hv⟩
    · rw [hr.eq_of_stuck hf hmax hs rfl] at h
      rw [h] at hs
      cases hs
  · rintro ⟨ends, u, hc, hless, hv⟩
    rw [hc.eq hf]
    exact judge_eq_noMatch.mpr ⟨hless, rfl, hv⟩

theorem repetition_eq_stuck {r : Result} (hr : Stuck r) : repetition child size min max pos t = r ↔
    ∃ ends u, Rounds child max pos t ends u ∧ Allowed max ends.length ∧ child (ends.getLastD pos) u = r := by
  constructor
  · rintro rfl
    rcases exists_course hf max pos t with ⟨ends, idle, u, hc⟩ | ⟨ends, u, hrounds, hmax, hs⟩
    · rw [hc.eq hf] at hr
      exact absurd hr not_stuck_judge
    · exact ⟨ends, u, hrounds, hmax, (hrounds.eq_of_stuck hf hmax hs rfl min).symm⟩
  · rintro ⟨ends, u, hrounds, hmax, hc⟩
    exact hrounds.eq_of_stuck hf hmax hr hc min

end

end

/-! ### The counter -/

/-- A repetition between two rounds, with a counter of 32 bits. --/
structure Head where
  count : UInt32
  cursor : Nat
  trail : Trail

/-- Where a turn of the loop leads: to the next one, or out of it. --/
inductive Turn where
  | again (h : Head)
  | leave (r : Result)

namespace Head

/-- What a repetition comes to when the loop is left. --/
def settle (min : UInt32) (mark : Nat) (h : Head) : Result :=
  if h.count < min then some (.noMatch, h.trail.backTo mark) else some (.matched h.cursor, h.trail)

/-- A turn of the loop, which stops if the counter would outgrow its word. --/
def turn {ε : Type} (child : Child) (min : UInt32) (max : Option UInt32) (mark : Nat) (h : Head) : Checked ε Turn :=
  if max.all (h.count < ·) then
    match child h.cursor h.trail with
    | some (.matched stop, t) => do
      Checked.ensure .overflow (h.count.toNat + 1 < 2 ^ 32)
      let count := h.count + 1
      if stop = h.cursor then return .leave (settle min mark ⟨if count < min then min else count, h.cursor, t⟩)
      else return .again ⟨count, stop, t⟩
    | some (.noMatch, t) => return .leave (settle min mark { h with trail := t })
    | r => return .leave r
  else return .leave (settle min mark h)

/-- Turns until one leads out of the loop, which has to be among the first so many. --/
def loop {ε : Type} (child : Child) (min : UInt32) (max : Option UInt32) (mark : Nat) :
    (turns : Nat) → Head → Checked ε Result
  | 0, _ => Checked.fault .endless
  | turns + 1, h => do
    match ← h.turn child min max mark with
    | .again h => loop child min max mark turns h
    | .leave r => return r

end Head

/-- The heads of the loop that a repetition comes by, each with the ends of the rounds that have matched up to there. --/
inductive Reached (child : Child) (min : UInt32) (max : Option UInt32) (pos : Nat) (t : Trail) :
    List Nat → Head → Prop where
  | start : Reached child min max pos t [] ⟨0, pos, t⟩
  | again {ends : List Nat} {h h' : Head} (hr : Reached child min max pos t ends h)
      (ht : (h.turn child min max t.mark : Checked Empty _) = .ok (.again h')) :
      Reached child min max pos t (ends ++ [h'.cursor]) h'

/-- The counter of a head is the number of rounds so far, each of which read something. --/
structure Counted (child : Child) (max : Option UInt32) (pos : Nat) (t : Trail) (ends : List Nat) (h : Head) : Prop where
  rounds : Rounds child max pos t ends h.trail
  count : h.count.toNat = ends.length
  cursor : h.cursor = ends.getLastD pos

section
variable {child : Child} {min : UInt32} {max : Option UInt32} {size pos : Nat} {t : Trail} {ends : List Nat} {h : Head}

theorem Counted.start (child : Child) (max : Option UInt32) (pos : Nat) (t : Trail) :
    Counted child max pos t [] ⟨0, pos, t⟩ := ⟨.start, rfl, rfl⟩

theorem Counted.all_lt_iff (hc : Counted child max pos t ends h) :
    max.all (h.count < ·) = true ↔ Allowed max ends.length := by
  simp [Allowed, Option.all_eq_true, UInt32.lt_iff_toNat_lt, hc.count]

theorem Head.settle_eq (h : Head) (hcount : h.count.toNat = ends.length) (hcursor : h.cursor = ends.getLastD pos) (min : UInt32)
    (mark : Nat) : h.settle min mark = judge min mark pos ends false h.trail := by
  rw [← settle_eq_judge, Match.settle, ← hcount, ← hcursor]
  rfl

/-- A count that has been raised to the minimum is enough. --/
theorem Head.settle_raised (count min : UInt32) (mark cursor : Nat) (u : Trail) :
    Head.settle min mark ⟨if count < min then min else count, cursor, u⟩ = some (.matched cursor, u) := by
  rw [Head.settle]
  split
  · exact if_neg (UInt32.lt_irrefl min)
  · rfl

/-- A turn that a head takes keeps count of the rounds, or comes to what the repetition comes to. --/
def Turn.Sound (child : Child) (min : UInt32) (max : Option UInt32) (size pos : Nat) (t : Trail) (ends : List Nat) :
    Turn → Prop
  | .again h => Counted child max pos t (ends ++ [h.cursor]) h
  | .leave r => r = repetition child size min max pos t

/-- The counter of a head has room for one more round, unless the input is as long as the greatest word. --/
theorem Counted.exists_turn {ε : Type} (hf : child.Forward size) (hsize : size < 2 ^ 32 - 1)
    (hc : Counted child max pos t ends h) (min : UInt32) :
    ∃ x, (h.turn child min max t.mark : Checked ε _) = .ok x ∧ x.Sound child min max size pos t ends := by
  rw [Head.turn]
  by_cases hmax : Allowed max ends.length
  · -- Each round so far read a byte, so their number is at most the size of the input.
    have hroom : h.count.toNat + 1 < 2 ^ 32 := by
      have := hc.rounds.length_le_size hf
      have := hc.count
      omega
    have hcount : (h.count + 1).toNat = ends.length + 1 := by
      rw [UInt32.toNat_add, UInt32.toNat_one, Nat.mod_eq_of_lt hroom, hc.count]
    rw [if_pos (hc.all_lt_iff.mpr hmax), hc.cursor]
    cases hx : child (ends.getLastD pos) h.trail with
    | none =>
      exact ⟨.leave none, rfl, (hc.rounds.eq_of_stuck hf hmax .endless hx min).symm⟩
    | some x =>
      obtain ⟨outcome, u⟩ := x
      cases outcome with
      | noMatch =>
        exact ⟨_, rfl, (Head.settle_eq ⟨_, _, u⟩ hc.count rfl min t.mark).trans
          ((Course.failed hc.rounds hmax hx).eq hf min).symm⟩
      | undefined r =>
        exact ⟨.leave (some (.undefined r, u)), rfl, (hc.rounds.eq_of_stuck hf hmax (.undefined r u) hx min).symm⟩
      | matched stop =>
        dsimp only
        rw [Checked.ensure_eq (decide_eq_true hroom), ok_bind]
        by_cases heq : stop = ends.getLastD pos
        · rw [if_pos heq]
          refine ⟨_, rfl, (Head.settle_raised _ min t.mark _ u).trans ?_⟩
          rw [(Course.idle hc.rounds hmax (heq ▸ hx)).eq hf min, judge, if_pos (.inr rfl), List.getLastD_concat]
        · rw [if_neg heq]
          refine ⟨_, rfl, hc.rounds.next hmax hx heq, ?_, ?_⟩
          · rw [hcount, List.length_append, List.length_singleton]
          · rw [List.getLastD_concat]
  · rw [if_neg (mt hc.all_lt_iff.mp hmax)]
    exact ⟨_, rfl, (Head.settle_eq h hc.count hc.cursor min t.mark).trans ((Course.full hc.rounds hmax).eq hf min).symm⟩

/-- At every head the counter is the number of rounds so far. --/
theorem Reached.counted (hf : child.Forward size) (hsize : size < 2 ^ 32 - 1) (h' : Reached child min max pos t ends h) :
    Counted child max pos t ends h := by
  induction h' with
  | start => exact .start child max pos t
  | again _ ht ih =>
    obtain ⟨x, hx, hsound⟩ := ih.exists_turn (ε := Empty) hf hsize min
    obtain rfl := Except.ok.inj (hx.symm.trans ht)
    exact hsound

/-- The loop comes to what the repetition comes to, and takes no more turns than there are bytes, and one. --/
theorem Counted.loop_eq {ε : Type} (hf : child.Forward size) (hsize : size < 2 ^ 32 - 1) (min : UInt32) :
    ∀ (turns : Nat) {ends : List Nat} {h : Head}, Counted child max pos t ends h → size < turns + ends.length →
      (h.loop child min max t.mark turns : Checked ε _) = .ok (repetition child size min max pos t)
  | 0, _, _, hc, hturns => by
    have := hc.rounds.length_le_size hf
    omega
  | turns + 1, ends, h, hc, hturns => by
    obtain ⟨x, hx, hsound⟩ := hc.exists_turn (ε := ε) hf hsize min
    rw [Head.loop, hx, ok_bind]
    cases x with
    | leave r => exact congrArg Except.ok hsound
    | again h' =>
      refine Counted.loop_eq hf hsize min turns hsound ?_
      rw [List.length_append, List.length_singleton]
      omega

end

/-- What a repetition comes to, in a setting with an input that is shorter than the greatest word. The loop that counts in a
    word of 32 bits ends without an overflow, and at each of its heads the counter is the number of the rounds
    so far, and no more than the bytes they read. There are no more rounds than the upper bound. The repetition
    matches just if there are as many rounds as the lower bound asks for, or if the last one was idle, and then it
    ends where the last one ended; and it comes to no answer just if its child does not in a round. --/
theorem repetition_counts {σ : Setting} (hsize : σ.input.size < 2 ^ 32 - 1) {i n : NodeId} {min : UInt32}
    {max : Option UInt32} (hi : σ.grammar.nodes[i]? = some (.repetition n min max)) (fuel pos : Nat) (t : Trail) :
    let child := evaluate σ fuel n
    (∀ turns, σ.input.size < turns →
      (Head.loop child min max t.mark turns ⟨0, pos, t⟩ : Checked Empty _) = .ok (evaluate σ (fuel + 1) i pos t)) ∧
    (∀ ends h, Reached child min max pos t ends h → Rounds child max pos t ends h.trail ∧
      h.count.toNat = ends.length ∧ h.count.toNat ≤ h.cursor - pos ∧ h.cursor = ends.getLastD pos) ∧
    (∀ ends idle v, Course child max pos t ends idle v → ∀ m ∈ max, ends.length ≤ m.toNat) ∧
    (∀ stop v, evaluate σ (fuel + 1) i pos t = some (.matched stop, v) ↔ ∃ ends idle, Course child max pos t ends idle v ∧
      (min.toNat ≤ ends.length ∨ idle = true) ∧ stop = ends.getLastD pos) ∧
    (∀ v, evaluate σ (fuel + 1) i pos t = some (.noMatch, v) ↔ ∃ ends u, Course child max pos t ends false u ∧
      ends.length < min.toNat ∧ v = u.backTo t.mark) ∧
    ∀ r, Stuck r → (evaluate σ (fuel + 1) i pos t = r ↔
      ∃ ends u, Rounds child max pos t ends u ∧ Allowed max ends.length ∧ child (ends.getLastD pos) u = r) := by
  intro child
  have hf : Child.Forward child σ.input.size := forward_evaluate σ fuel n
  have heval : evaluate σ (fuel + 1) i pos t = repetition child σ.input.size min max pos t := by
    rw [evaluate, hi]
    rfl
  rw [heval]
  refine ⟨fun turns hturns => ?_, fun ends h hr => ?_, fun ends idle v hc => hc.length_le_max,
    fun stop v => repetition_eq_matched hf min, fun v => repetition_eq_noMatch hf min,
    fun r hr => repetition_eq_stuck hf min hr⟩
  · exact (Counted.start child max pos t).loop_eq hf hsize min turns hturns
  · have hc := hr.counted hf hsize
    have hlen := (hc.rounds.length_le hf).1
    rw [← hc.count, ← hc.cursor] at hlen
    exact ⟨hc.rounds, hc.count, by omega, hc.cursor⟩

/-- More rounds are asked for than may be made: `5*4("a" / "")`. --/
def wanting : Setting :=
  ⟨⟨"wanting", #[.literal [0x61] true, .literal [] false, .choice [0, 1], .repetition 2 5 (some 4)], #[], none⟩,
    ⟨#[0x61, 0x61]⟩, fun _ => false⟩

/-- Two rounds read a byte each, and the third is idle and stands for those that are missing. --/
theorem repetition_counts_wanting : wanting.input.size < 2 ^ 32 - 1 ∧
    wanting.grammar.nodes[3]? = some (.repetition 2 5 (some 4)) ∧
    (Head.loop (evaluate wanting 2 2) 5 (some 4) 0 3 ⟨0, 0, .empty⟩ : Checked Empty _) =
      .ok (some (.matched 2, .empty)) ∧
    ∃ ends idle, Course (evaluate wanting 2 2) (some 4) 0 .empty ends idle .empty ∧ (5 ≤ ends.length ∨ idle = true) ∧
      2 = ends.getLastD 0 := by
  have hsize : wanting.input.size < 2 ^ 32 - 1 := by decide
  have hnode : wanting.grammar.nodes[3]? = some (.repetition 2 5 (some 4)) := rfl
  have heval : evaluate wanting 3 3 0 .empty = some (.matched 2, .empty) := by decide +kernel
  obtain ⟨hloop, -, -, hmatched, -⟩ := repetition_counts hsize hnode 2 0 .empty
  exact ⟨hsize, hnode, (hloop 3 (by decide)).trans (congrArg Except.ok heval), (hmatched 2 .empty).mp heval⟩

end Match
end Abnf
