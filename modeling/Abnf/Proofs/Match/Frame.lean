import Abnf.Proofs.Match.Answer

/-! What a match does to a log that holds entries already. Nodes come back to their own marks in the log, each kind in its
    own way, but what they leave is the same behind every log (`frames_evaluate`): a match adds one segment, which does
    not depend on what stands in front of it, and a failure takes back everything that it logged and nothing else. -/

namespace Abnf
namespace Match

/-- An evaluation that does the same behind every log. --/
inductive Frames (eval : Trail → Result) : Prop where
  | endless (h : ∀ t, eval t = none)
  /-- It matches up to one position, and puts one segment behind the log. --/
  | matched (stop : Nat) (segment : Log)
      (h : ∀ t, ∃ u, eval t = some (.matched stop, u) ∧ u.log = t.log ++ segment)
  /-- It does not match, and leaves the log as it found it. --/
  | noMatch (h : ∀ t, ∃ u, eval t = some (.noMatch, u) ∧ u.log = t.log)
  | undefined (r : RuleId) (h : ∀ t, ∃ u, eval t = some (.undefined r, u))

section
variable {log l : Log} {x : Result} {stop : Nat} {r : RuleId}

theorem Shows.eq_none (h : Shows log none x) : x = none := by
  cases h
  rfl

theorem Shows.exists_matched (h : Shows log (some (.matched stop l)) x) :
    ∃ u, x = some (.matched stop, u) ∧ u.log = log ++ l := by
  cases h with
  | @matched _ _ u hu => exact ⟨u, rfl, hu⟩

theorem Shows.exists_noMatch (h : Shows log (some .noMatch) x) : ∃ u, x = some (.noMatch, u) ∧ u.log = log := by
  cases h with
  | @noMatch u hu => exact ⟨u, rfl, hu⟩

theorem Shows.exists_undefined (h : Shows log (some (.undefined r)) x) : ∃ u, x = some (.undefined r, u) := by
  cases h with
  | @undefined _ u => exact ⟨u, rfl⟩

end

/-- An evaluation that shows one answer on every log does the same behind all of them. --/
theorem Frames.of_shows {eval : Trail → Result} {a : Option Answer} (h : ∀ t, Shows t.log a (eval t)) : Frames eval :=
  match a with
  | none => .endless fun t => (h t).eq_none
  | some (.matched stop segment) => .matched stop segment fun t => (h t).exists_matched
  | some .noMatch => .noMatch fun t => (h t).exists_noMatch
  | some (.undefined r) => .undefined r fun t => (h t).exists_undefined

/-- Whatever has been logged before, a node or a rule comes to the same at a position. If it matches, the log is the old one
    with a segment behind it that is the same for every old log, and if it does not, the log is the old one. --/
theorem frames_evaluate (σ : Setting) (fuel pos : Nat) : (∀ i, Frames (evaluate σ fuel i pos)) ∧
    ∀ r wanted, Frames (rule σ (evaluate σ fuel) wanted r pos) :=
  ⟨fun i => .of_shows (shows_evaluate σ fuel i pos),
    fun r wanted => .of_shows (shows_rule (shows_evaluate σ fuel) σ wanted r pos)⟩

/-- Two alternatives that begin with the same rule: `r = a "x" / a "y"` and `a = "a"`. --/
def twice : Grammar :=
  ⟨"twice", #[.ruleRef 1, .literal [0x78] true, .sequence [0, 1], .ruleRef 1, .literal [0x79] true, .sequence [3, 4],
    .choice [2, 5], .literal [0x61] true], #[⟨"r", some 6⟩, ⟨"a", some 7⟩], none⟩

/-- What the first alternative logged is taken back, and the entry that was there before stays. --/
example : (evaluate ⟨twice, ⟨#[0x61, 0x79]⟩, fun _ => true⟩ 5 6 0 ⟨#[.exit 9], #[]⟩).map (fun x => (x.1, x.2.log)) =
    some (.matched 2, #[.exit 9, .enter 1 0, .exit 1]) := by
  decide +kernel

end Match
end Abnf
