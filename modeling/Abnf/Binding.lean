import Abnf.Match.Occurrence
import Abnf.Match.Run
import Abnf.Text.LeadingInt

/-! Binding: turning a match into values of a type of the caller's. A rule with a handler makes a value when
    it is left, and then takes up what has been delivered to it. Every rule that is left delivers itself to
    the nearest rule with a handler around it: with its value if it has a handler, and without one
    together with all that was delivered to it if it has none. -/

namespace Abnf

/-- What a handler does with the matches of a rule that are delivered to it. --/
inductive Collector (α : Type) where
  /-- Take the text. --/
  | text (take : α → String → α)
  /-- Take the integer at the front of the text. --/
  | int (take : α → Int → α)
  /-- Take the value, if there is one. --/
  | child (take : α → α → α)

structure Handler (α : Type) where
  /-- Makes a value from the name of the rule and the text it matched. --/
  create : String → String → α
  /-- The collectors by the rule they are for, the last one first. --/
  collectors : List (RuleId × Collector α)
  /-- What to do with values of rules that have no collector. --/
  anyChild : Option (α → α → α)

/-- A grammar and the handlers of its rules. --/
structure Binding (α : Type) where
  grammar : Grammar
  handlers : List (RuleId × Handler α)

/-- What a collector is asked for when it is set up by name. --/
structure CollectorRequest (α : Type) where
  child : String
  collector : Collector α

/-- What a handler is asked for when it is set up by name. --/
structure HandlerRequest (α : Type) where
  rule : String
  create : String → String → α
  collect : List (CollectorRequest α)
  anyChild : Option (α → α → α)

/-- A match, and the value that the rule made of it. --/
structure Bound (α : Type) where
  /-- The value, if the rule has a handler. --/
  value : Option α
  span : Span

/-- A rule on its way to the nearest handler around it. --/
structure Delivery (α : Type) where
  rule : RuleId
  span : Span
  value : Option α

namespace Binding

variable {α : Type}

def empty (g : Grammar) : Binding α := ⟨g, []⟩

def handler? (b : Binding α) (r : RuleId) : Option (Handler α) := b.handlers.lookup r

/-! ### Setting up -/

/-- Give a rule a handler. One that it has already keeps its collectors and takes over the new way to
    make values. --/
def install (b : Binding α) (r : RuleId) (create : String → String → α) : Binding α :=
  let handler : Handler α := match b.handler? r with
    | some h => { h with create }
    | none => ⟨create, [], none⟩
  { b with handlers := (r, handler) :: b.handlers.filter fun p => p.1 != r }

/-- Change the handler of a rule. --/
def modify (b : Binding α) (r : RuleId) (f : Handler α → Handler α) : Binding α :=
  { b with handlers := b.handlers.map fun p => if p.1 == r then (r, f p.2) else p }

/-- Add a collector to the handler of a rule, in place of one for the same child. --/
def collect (b : Binding α) (r child : RuleId) (c : Collector α) : Binding α :=
  b.modify r fun h => { h with collectors := (child, c) :: h.collectors }

/-- Set up one handler as asked for. --/
def request (b : Binding α) (q : HandlerRequest α) : Except MatchError (Binding α) := do
  let r ← Match.resolve b.grammar q.rule
  let b ← q.collect.foldlM (fun b c => do return b.collect r (← Match.resolve b.grammar c.child) c.collector)
    (b.install r q.create)
  match q.anyChild with
  | some take => return b.modify r fun h => { h with anyChild := some take }
  | none => return b

/-- The binding with all handlers asked for, one after the other. --/
def ofRequests (g : Grammar) (qs : List (HandlerRequest α)) : Except MatchError (Binding α) :=
  qs.foldlM request (empty g)

/-- Whether a rule's matches matter: it has a handler, or a handler collects it. --/
def observes (b : Binding α) (r : RuleId) : Bool :=
  b.handlers.any fun p => p.1 == r || p.2.collectors.any fun c => c.1 == r

/-! ### Making values -/

def text (input : ByteArray) (s : Span) : Except MatchError String :=
  match s.text? input with
  | some text => .ok text
  | none => .error .beyondEnd

/-- Take up one delivery. --/
def take (h : Handler α) (input : ByteArray) (value : α) (d : Delivery α) : Except MatchError α :=
  match h.collectors.lookup d.rule with
  | some (.text take) => do return take value (← text input d.span)
  | some (.int take) => do return take value (leadingInt (← text input d.span))
  | some (.child take) => .ok ((d.value.map (take value)).getD value)
  | none =>
    match d.value, h.anyChild with
    | some child, some take => .ok (take value child)
    | _, _ => .ok value

/-- Make a value and take up the deliveries in order. --/
def build (h : Handler α) (input : ByteArray) (name text : String) (ds : List (Delivery α)) : Except MatchError α :=
  ds.foldlM (take h input) (h.create name text)

mutual

/-- What an occurrence delivers: itself, and what it passes on. --/
def deliver (b : Binding α) (input : ByteArray) : Occurrence → Except MatchError (List (Delivery α))
  | .of r span inner => do
    let pending ← deliverAll b input inner
    match b.handler? r with
    | some h =>
      let value ← build h input (b.grammar.ruleName r) (← text input span) pending
      return [⟨r, span, some value⟩]
    | none => return ⟨r, span, none⟩ :: pending

/-- What neighbouring occurrences deliver, in order. --/
def deliverAll (b : Binding α) (input : ByteArray) : List Occurrence → Except MatchError (List (Delivery α))
  | [] => .ok []
  | o :: os => do return (← deliver b input o) ++ (← deliverAll b input os)

end

/-- The value that the root of a match delivers, if its rule has a handler. --/
def valueOf (b : Binding α) (input : ByteArray) (log : List Effect) : Except MatchError (Option α) :=
  match Occurrence.root? log with
  | some root => do return (← deliver b input root).head?.bind Delivery.value
  | none => .ok none

/-- Match a rule from a position on and make a value of the match. --/
def parse (b : Binding α) (rule : String) (input : ByteArray) (start : Nat) :
    Except MatchError (Option (Bound α) × Run) := do
  let r ← Match.resolve b.grammar rule
  let run ← Match.run ⟨b.grammar, input, b.observes⟩ r start
  match run.stop with
  | none => return (none, run)
  | some stop =>
    let value ← b.valueOf input run.trail.log.toList
    return (some ⟨value, ⟨start, stop⟩⟩, run)

end Binding
end Abnf
