import Abnf.Match.Run
import Abnf.Proofs.Text.Utf8

/-! What stands before the start of a match plays no part in it. Put bytes in front of an input, and a match of the longer
    input that begins as much further on goes the same way: every place that it tells of is moved by the number of these
    bytes (`run_behind`). Matching only ever looks at the bytes from a position on, so this is shown node by node, for two
    evaluations side by side (`moves_evaluate`); it goes for the log and the trace, and for matches that come to no
    answer. -/

namespace Abnf

/-! ### Moved places -/

/-- The same entry, further on in the input. --/
def Effect.shift (d : Nat) : Effect → Effect
  | enter r start => enter r (d + start)
  | exit stop => exit (d + stop)

def Event.shift (d : Nat) : Event → Event
  | enter r start => enter r (d + start)
  | exit r start stop => exit r (d + start) (d + stop)
  | fail r start => fail r (d + start)

def Outcome.shift (d : Nat) : Outcome → Outcome
  | matched stop => matched (d + stop)
  | noMatch => noMatch
  | undefined r => undefined r

namespace Trail

/-- The trail of a match that goes the same way further on. --/
def shift (d : Nat) (t : Trail) : Trail := ⟨t.log.map (Effect.shift d), t.trace.map (Event.shift d)⟩

section
variable (d : Nat) (t : Trail)

@[simp] theorem mark_shift : (t.shift d).mark = t.mark := Array.size_map

@[simp] theorem shift_empty : empty.shift d = empty := by
  simp [shift, empty]

@[simp] theorem backTo_shift (mark : Nat) : (t.shift d).backTo mark = (t.backTo mark).shift d := by
  simp [shift, backTo]

@[simp] theorem since_shift (mark : Nat) : (t.shift d).since mark = (t.since mark).map (Effect.shift d) := by
  simp [shift, since]

@[simp] theorem restore_shift (effects : Log) :
    (t.shift d).restore (effects.map (Effect.shift d)) = (t.restore effects).shift d := by
  simp [shift, restore]

@[simp] theorem note_shift (e : Event) : (t.shift d).note (e.shift d) = (t.note e).shift d := by
  simp [shift, note]

@[simp] theorem recordIf_shift (wanted : Bool) (e : Effect) :
    (t.shift d).recordIf wanted (e.shift d) = (t.recordIf wanted e).shift d := by
  cases wanted <;> simp [shift, recordIf, record]

end
end Trail

/-- The run that finds the same further on. --/
def Run.shift (d : Nat) (r : Run) : Run := ⟨r.stop.map (d + ·), r.trail.shift d⟩

namespace Match

/-- The result of a match that goes the same way further on. --/
def Result.shift (d : Nat) (r : Result) : Result := r.map fun r => (r.1.shift d, r.2.shift d)

/-- Two evaluations that go the same way, the second one further on. --/
def Moves (d : Nat) (child child' : Evaluator) : Prop :=
  ∀ n pos t, child' n (d + pos) (t.shift d) = Result.shift d (child n pos t)

/-! ### Nodes -/

section
variable {d : Nat} {child child' : Evaluator}

theorem moves_leaf (stop : Option Nat) (t : Trail) :
    leaf (stop.map (d + ·)) (t.shift d) = Result.shift d (leaf stop t) := by
  cases stop <;> rfl

theorem moves_sequence (h : Moves d child child') (mark : Nat) : ∀ (ns : List NodeId) (pos : Nat) (t : Trail),
    sequence child' mark ns (d + pos) (t.shift d) = Result.shift d (sequence child mark ns pos t)
  | [], _, _ => rfl
  | n :: ns, pos, t => by
    rw [sequence, sequence, h n pos t]
    match child n pos t with
    | some (.matched stop, u) => exact moves_sequence h mark ns stop u
    | some (.noMatch, u) => exact congrArg (fun u => some (Outcome.noMatch, u)) (u.backTo_shift d mark)
    | some (.undefined r, u) => rfl
    | none => rfl

theorem moves_choice (h : Moves d child child') {admits admits' : NodeId → Bool} (hadmits : ∀ n, admits' n = admits n)
    (mark : Nat) : ∀ (empty : Option Log) (ns : List NodeId) (pos : Nat) (t : Trail),
      choice child' admits' mark (empty.map (Array.map (Effect.shift d))) ns (d + pos) (t.shift d) =
        Result.shift d (choice child admits mark empty ns pos t)
  | none, [], _, _ => rfl
  | some effects, [], pos, t => congrArg (fun u => some (Outcome.matched (d + pos), u)) (t.restore_shift d effects)
  | empty, n :: ns, pos, t => by
    rw [choice, choice, hadmits, h n pos t]
    split
    · match child n pos t with
      | some (.matched stop, u) =>
        -- Further on or not, the alternative has read as much.
        have hempty : some ((empty.map (Array.map (Effect.shift d))).getD ((u.shift d).since mark)) =
            (some (empty.getD (u.since mark))).map (Array.map (Effect.shift d)) := by
          cases empty <;> simp
        simp only [Result.shift, Option.map_some, Outcome.shift, Nat.add_lt_add_iff_left]
        split
        · rfl
        · rw [hempty, Trail.backTo_shift]
          exact moves_choice h hadmits mark _ ns pos _
      | some (.noMatch, u) => exact moves_choice h hadmits mark empty ns pos u
      | some (.undefined r, u) => rfl
      | none => rfl
    · exact moves_choice h hadmits mark empty ns pos t

theorem moves_settle (min mark count pos : Nat) (t : Trail) :
    settle min mark count (d + pos) (t.shift d) = Result.shift d (settle min mark count pos t) := by
  unfold settle
  split
  · exact congrArg (fun u => some (Outcome.noMatch, u)) (t.backTo_shift d mark)
  · rfl

theorem moves_rounds (h : Moves d child child') (n : NodeId) (min : Nat) (max : Option Nat) (mark : Nat) :
    ∀ (bound count pos : Nat) (t : Trail), rounds (child' n) min max mark bound count (d + pos) (t.shift d) =
      Result.shift d (rounds (child n) min max mark bound count pos t)
  | 0, _, _, _ => rfl
  | bound + 1, count, pos, t => by
    rw [rounds, rounds, h n pos t]
    split
    · match child n pos t with
      | some (.matched stop, u) =>
        simp only [Result.shift, Option.map_some, Outcome.shift, Nat.add_left_cancel_iff]
        split
        · exact moves_settle min mark _ pos u
        · exact moves_rounds h n min max mark bound (count + 1) stop u
      | some (.noMatch, u) => exact moves_settle min mark count pos u
      | some (.undefined r, u) => rfl
      | none => rfl
    · exact moves_settle min mark count pos t

theorem moves_leave (wanted : Bool) (r : RuleId) (pos mark : Nat) (result : Result) :
    leave wanted r (d + pos) mark (Result.shift d result) = Result.shift d (leave wanted r pos mark result) := by
  match result with
  | some (.matched stop, u) =>
    have hnote := (u.recordIf wanted (.exit stop)).note_shift d (.exit r pos stop)
    rw [← Trail.recordIf_shift] at hnote
    exact congrArg (fun u => some (Outcome.matched (d + stop), u)) hnote
  | some (.noMatch, u) =>
    have hnote := (u.backTo mark).note_shift d (.fail r pos)
    rw [← Trail.backTo_shift] at hnote
    exact congrArg (fun u => some (Outcome.noMatch, u)) hnote
  | some (.undefined q, u) => rfl
  | none => rfl

theorem moves_rule (h : Moves d child child') (σ : Setting) {σ' : Setting} (hg : σ'.grammar = σ.grammar)
    (wanted : Bool) (r : RuleId) (pos : Nat) (t : Trail) :
    rule σ' child' wanted r (d + pos) (t.shift d) = Result.shift d (rule σ child wanted r pos t) := by
  rw [rule, rule, hg]
  cases σ.grammar.root? r with
  | none => rfl
  | some root =>
    dsimp only
    rw [show Event.enter r (d + pos) = (Event.enter r pos).shift d from rfl,
      show Effect.enter r (d + pos) = (Effect.enter r pos).shift d from rfl, Trail.note_shift, Trail.recordIf_shift,
      h root pos, Trail.mark_shift, moves_leave]

end

/-! ### The input -/

section
variable (front input : ByteArray)

theorem getElem?_append_size_add (pos : Nat) : (front ++ input)[front.size + pos]? = input[pos]? := by
  rw [getElem?_eq_data, getElem?_eq_data, ByteArray.data_append, ← ByteArray.size_data,
    Array.getElem?_append_right (Nat.le_add_right _ _), Nat.add_sub_cancel_left]

theorem utf8DecodeChar?_append_size_add (pos : Nat) :
    (front ++ input).utf8DecodeChar? (front.size + pos) = input.utf8DecodeChar? pos := by
  rw [ByteArray.utf8DecodeChar?_eq_utf8DecodeChar?_extract, ByteArray.size_append,
    ByteArray.extract_append_size_add, ← ByteArray.utf8DecodeChar?_eq_utf8DecodeChar?_extract]

theorem bytesAt_append (ignoreCase : Bool) : ∀ (bytes : List UInt8) (pos : Nat),
    bytesAt (front ++ input) ignoreCase (front.size + pos) bytes = bytesAt input ignoreCase pos bytes
  | [], _ => rfl
  | b :: bs, pos => by
    rw [bytesAt, bytesAt, getElem?_append_size_add, Nat.add_assoc, bytesAt_append ignoreCase bs (pos + 1)]

theorem literal?_append (bytes : List UInt8) (ignoreCase : Bool) (pos : Nat) :
    literal? (front ++ input) bytes ignoreCase (front.size + pos) =
      (literal? input bytes ignoreCase pos).map (front.size + ·) := by
  simp only [literal?, ByteArray.size_append, Nat.add_le_add_iff_left, bytesAt_append, Nat.add_assoc]
  split <;> rfl

theorem charRange?_append (lo hi : UInt32) (pos : Nat) :
    charRange? (front ++ input) lo hi (front.size + pos) = (charRange? input lo hi pos).map (front.size + ·) := by
  rw [charRange?, charRange?, getElem?_append_size_add, utf8DecodeChar?_append_size_add]
  split
  · cases input[pos]? with
    | none => rfl
    | some b =>
      dsimp only
      split <;> rfl
  · cases input.utf8DecodeChar? pos with
    | none => rfl
    | some c =>
      dsimp only
      split
      · exact congrArg some (Nat.add_assoc _ _ _)
      · rfl

end

/-! ### All nodes -/

/-- The same match of an input with other bytes in front of it. --/
def Setting.behind (front : ByteArray) (σ : Setting) : Setting := { σ with input := front ++ σ.input }

section
variable (front : ByteArray) (σ : Setting)

theorem room_behind (pos : Nat) : (σ.behind front).input.size - (front.size + pos) = σ.input.size - pos := by
  rw [Setting.behind, ByteArray.size_append, Nat.add_sub_add_left]

theorem moves_node {child child' : Evaluator} (h : Moves front.size child child') (n : Node) (pos : Nat) (t : Trail) :
    node (σ.behind front) child' n (front.size + pos) (t.shift front.size) =
      Result.shift front.size (node σ child n pos t) := by
  cases n with
  | literal bytes ignoreCase =>
    rw [node, node, Setting.behind, literal?_append]
    exact moves_leaf _ t
  | charRange lo hi =>
    rw [node, node, Setting.behind, charRange?_append]
    exact moves_leaf _ t
  | sequence ns =>
    rw [node, node, Trail.mark_shift]
    exact moves_sequence h t.mark ns pos t
  | choice ns =>
    have hadmits : ∀ n, admits (σ.behind front) (front.size + pos) n = admits σ pos n := by
      intro n
      rw [admits, admits, Setting.behind, getElem?_append_size_add]
    rw [node, node, Trail.mark_shift]
    exact moves_choice h hadmits t.mark none ns pos t
  | repetition n min max =>
    rw [node, node, repetition, repetition, Trail.mark_shift, room_behind]
    exact moves_rounds h n _ _ t.mark _ 0 pos t
  | ruleRef r => exact moves_rule h σ rfl (σ.observed r) r pos t
  | fold n => exact h n pos t

/-- Evaluations of an input with and without bytes in front of it go the same way. --/
theorem moves_evaluate : ∀ fuel, Moves front.size (evaluate σ fuel) (evaluate (σ.behind front) fuel)
  | 0, _, _, _ => rfl
  | fuel + 1, i, pos, t => by
    rw [evaluate, evaluate, Setting.behind]
    cases σ.grammar.nodes[i]? with
    | none => rfl
    | some n => exact moves_node front σ (moves_evaluate fuel) n pos t

end

/-- A match depends only on the input from its start on. With other bytes in front of the input, a run that begins as much
    further on comes to the same: an error, no match, or a match with its end and all places in its trail moved by
    the number of these bytes. --/
theorem run_behind (g : Grammar) (observed : RuleId → Bool) (r : RuleId) (front input : ByteArray) (start : Nat) :
    run ⟨g, front ++ input, observed⟩ r (front.size + start) =
      (run ⟨g, input, observed⟩ r start).map (Run.shift front.size) := by
  have hfuel : fuelFor g (front ++ input) (front.size + start) = fuelFor g input start := by
    rw [fuelFor, fuelFor, ByteArray.size_append, Nat.add_sub_add_left]
  have hrule : rule ⟨g, front ++ input, observed⟩ _ true r (front.size + start) (Trail.empty.shift front.size) = _ :=
    moves_rule (moves_evaluate front ⟨g, input, observed⟩ (fuelFor g input start)) ⟨g, input, observed⟩ rfl true r start
      Trail.empty
  rw [Trail.shift_empty, Setting.behind] at hrule
  rw [run, run, runWith, runWith, hfuel, hrule]
  match rule ⟨g, input, observed⟩ (evaluate ⟨g, input, observed⟩ (fuelFor g input start)) true r start Trail.empty with
  | some (.matched stop, t) | some (.noMatch, t) | some (.undefined q, t) | none => rfl

end Match
end Abnf
