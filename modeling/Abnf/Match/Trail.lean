import Abnf.Grammar.Node

/-! The trail of a match: a log of the rules it went through, from which it can be told what matched
    where, and a trace of every rule that was tried. The log holds only what counts: when an attempt is
    given up, all that was logged since it began is taken back. The trace keeps everything. -/

namespace Abnf

/-- An entry of the log. --/
inductive Effect where
  | enter (rule : RuleId) (start : Nat)
  /-- The innermost rule still open matched up to `stop`. --/
  | exit (stop : Nat)
  deriving DecidableEq, Repr, Inhabited

abbrev Log := Array Effect

/-- An entry of the trace. --/
inductive Event where
  | enter (rule : RuleId) (start : Nat)
  | exit (rule : RuleId) (start stop : Nat)
  | fail (rule : RuleId) (start : Nat)
  deriving DecidableEq, Repr, Inhabited

structure Trail where
  log : Log
  trace : Array Event
  deriving DecidableEq, Repr, Inhabited

namespace Trail

def empty : Trail := ⟨#[], #[]⟩

/-- The length of the log, to come back to. --/
def mark (t : Trail) : Nat := t.log.size

def record (e : Effect) (t : Trail) : Trail := { t with log := t.log.push e }

/-- Record an effect only if it is wanted. --/
def recordIf (wanted : Bool) (e : Effect) (t : Trail) : Trail := if wanted then t.record e else t

def note (e : Event) (t : Trail) : Trail := { t with trace := t.trace.push e }

/-- Take back all that was logged since a mark. --/
def backTo (mark : Nat) (t : Trail) : Trail := { t with log := t.log.shrink mark }

/-- All that was logged since a mark. --/
def since (mark : Nat) (t : Trail) : Log := t.log.extract mark t.log.size

/-- Log effects that were taken back before. --/
def restore (effects : Log) (t : Trail) : Trail := { t with log := t.log ++ effects }

end Trail
end Abnf
