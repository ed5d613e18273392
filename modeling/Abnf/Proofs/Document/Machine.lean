import Abnf.Document.Parser
import Abnf.Proofs.Document.Builder

/-! Reading a document token by token, with every step checked. There is one place in the list of all tokens; trivia
    that is passed waits in a buffer until the next node begins or the next token is taken; and trees come from a
    builder. Tokens are looked up by their place, none may be taken at the end, a loop may not go round more often than
    there are tokens, and calls may not nest deeper than brackets may. -/

namespace Abnf.Parser.Machine

open Checked

variable {β μ : Type}

/-- A document: its tokens, the offset at which it ends, and how deep brackets may nest. --/
structure Input where
  tokens : List (Token × Span)
  stop : Nat
  limit : Nat

structure State (β : Type) where
  position : Nat
  /-- Trivia that was passed and not handed over yet. --/
  buffer : List Token
  builder : β
  /-- How many brackets are open. --/
  depth : Nat
  tooDeep : Bool
  reported : Option Nat
  diagnostics : List Diagnostic

/-! ### Looking ahead -/

section
variable (doc : Input)

def atEnd (m : State β) : Bool := decide (doc.tokens.length ≤ m.position)

/-- Whether the token at the place itself, trivia or not, is in a class. --/
def here (p : TokenKind → Bool) (m : State β) : Bool := doc.tokens[m.position]?.any fun t => p t.1.kind

def skip (m : State β) : State β :=
  let blanks := ((doc.tokens.drop m.position).map Prod.fst).takeWhile (·.kind.isTrivia)
  { m with buffer := m.buffer ++ blanks, position := m.position + blanks.length }

/-- Whether the next token that matters is in the first column. --/
def opensRule (m : State β) : Checked Empty (Bool × State β) :=
  let m := skip doc m
  if atEnd doc m then return (false, m)
  else if m.position = 0 then return (true, m)
  else do
    let (before, _) ← present doc.tokens[m.position - 1]?
    return (before.kind == .newline, m)

/-- Whether the next token that matters is in a class and still belongs to the rule. --/
def continues (p : TokenKind → Bool) (m : State β) : Checked Empty (Bool × State β) :=
  let m := skip doc m
  if here doc p m then do
    let (opens, m) ← opensRule doc m
    return (!opens, m)
  else return (false, m)

/-- The span of the next token that matters, or the end of the document. --/
def currentSpan (m : State β) : Span × State β :=
  let m := skip doc m
  ((doc.tokens[m.position]?.map Prod.snd).getD (.empty doc.stop), m)

/-- The end of the last token that matters. --/
def afterLast (m : State β) : Checked Empty Nat := do
  ensure .outOfBounds (m.position ≤ doc.tokens.length)
  return (((doc.tokens.take m.position).reverse.find? fun t => !t.1.kind.isTrivia).map fun t => t.2.stop).getD 0

end

/-! ### Telling of faults -/

def report (offset : Nat) (d : Diagnostic) (m : State β) : State β :=
  if m.reported = some offset then m
  else { m with reported := some offset, diagnostics := m.diagnostics ++ [d] }

def tell (d : Diagnostic) (m : State β) : State β := report d.span.start d m

/-- Tell of a fault at the next token that matters. --/
def error (doc : Input) (kind : Diagnostic.Kind) (m : State β) : State β :=
  let (span, m) := currentSpan doc m
  tell (.of kind span) m

/-! ### Moving on -/

section
variable (B : Builder β μ) (doc : Input)

/-- Hand over the trivia in the buffer. --/
def drain (m : State β) : State β :=
  { m with builder := m.buffer.foldl (fun b t => B.leaf t b) m.builder, buffer := [] }

def enter (kind : NodeKind) (m : State β) : State β :=
  let m := drain B m
  { m with builder := B.enter kind m.builder }

def enterAt (mark : μ) (kind : NodeKind) (m : State β) : Checked Empty (State β) := do
  return { m with builder := ← B.enterAt mark kind m.builder }

def leave (m : State β) : Checked Empty (State β) := do
  return { m with builder := ← B.leave m.builder }

/-- Take the token at the place. --/
def bump (m : State β) : Checked Empty (State β) := do
  ensure .assertion (!atEnd doc m)
  let m := drain B m
  let (t, _) ← present doc.tokens[m.position]?
  return { m with builder := B.leaf t m.builder, position := m.position + 1 }

def bumpAs (kind : NodeKind) (m : State β) : Checked Empty (State β) := do
  leave B (← bump B doc (enter B kind m))

/-- Take all tokens up to the next rule, at most `fuel` less one. --/
def bumpRest : (fuel : Nat) → State β → Checked Empty (State β)
  | 0, _ => fault .endless
  | fuel + 1, m => do
    let (opens, m) ← opensRule doc m
    if opens || atEnd doc m then return m else bumpRest fuel (← bump B doc m)

def errorAndBump (kind : Diagnostic.Kind) (m : State β) : Checked Empty (State β) :=
  let m := error doc kind m
  if atEnd doc m then return m else bumpAs B doc .error m

/-- The rounds that a loop may take. --/
def rounds : Nat := doc.tokens.length + 1

def errorUntilRule (kind : Diagnostic.Kind) (m : State β) : Checked Empty (State β) :=
  let m := skip doc m
  if atEnd doc m then return m
  else do
    let m ← bump B doc (enter B .error (error doc kind m))
    leave B (← bumpRest B doc (rounds doc) m)

/-! ### Repeats and lists -/

/-- Take a number that touches the last token, if there is one. --/
def number (m : State β) : Checked Empty (State β) :=
  if here doc (· == .number) m then bump B doc m else return m

/-- Take a sign that touches the last token, and a number after it, if there are any. --/
def sign (m : State β) : Checked Empty (State β) :=
  if here doc (fun k => k == .star || k == .hash) m then do number B doc (← bump B doc m) else return m

def bounds (m : State β) : Checked Empty (State β) := do
  let m ← number B doc (enter B .bounds m)
  leave B (← sign B doc m)

section
variable (element : State β → Checked Empty (State β))

/-- The element after a repeat. --/
def repeated (m : State β) : Checked Empty (State β) :=
  if here doc TokenKind.startsElement m then element m
  else do
    let missing := Diagnostic.of .expectedElement (.empty (← afterLast doc m))
    return tell (missing.detailed "no element directly after the repeat") m

def repetition (m : State β) : Checked Empty (State β) :=
  let m := skip doc m
  if here doc TokenKind.startsRepeat m then do
    let m ← bounds B doc (enter B .repetition m)
    leave B (← repeated doc element m)
  else element m

def repetitions : (fuel : Nat) → State β → Checked Empty (State β)
  | 0, _ => fault .endless
  | fuel + 1, m => do
    let (more, m) ← continues doc TokenKind.startsRepetition m
    if more then repetitions fuel (← repetition B doc element m) else return m

def concatenation (m : State β) : Checked Empty (State β) := do
  let (begins, m) ← continues doc TokenKind.startsRepetition m
  if begins then
    let m := drain B m
    let mark := B.mark m.builder
    let m ← repetition B doc element m
    let (more, m) ← continues doc TokenKind.startsRepetition m
    if more then
      let m ← enterAt B mark .concatenation m
      leave B (← repetitions B doc element (rounds doc) m)
    else return m
  else
    let stop ← afterLast doc m
    return if m.tooDeep then m else tell (.of .expectedElement (.empty stop)) m

def branches : (fuel : Nat) → State β → Checked Empty (State β)
  | 0, _ => fault .endless
  | fuel + 1, m => do
    let (more, m) ← continues doc (· == .slash) m
    if more then branches fuel (← concatenation B doc element (← bump B doc m)) else return m

def alternation (m : State β) : Checked Empty (State β) := do
  let m := drain B m
  let mark := B.mark m.builder
  let m ← concatenation B doc element m
  let (more, m) ← continues doc (· == .slash) m
  if more then
    let m ← enterAt B mark .alternation m
    leave B (← branches B doc element (rounds doc) m)
  else return m

end

/-! ### Elements -/

/-- Tell of brackets that are not closed, at the token that should have closed them. --/
def unclosed (b : Bracket) (opening : Span) (m : State β) : Checked Empty (State β) := do
  let (noticed, m) := currentSpan doc m
  let stop := max (← afterLast doc m) opening.stop
  ensure .assertion (opening.start ≤ stop)
  return report noticed.start ((Diagnostic.of b.unclosed ⟨opening.start, stop⟩).relatedTo b.openedHere opening) m

/-- The end of brackets, which were opened at a span. --/
def close (b : Bracket) (opening : Span) (m : State β) : Checked Empty (State β) := do
  let (closes, m) ← continues doc (· == b.closing) m
  if closes then bump B doc m else if m.tooDeep then return m else unclosed doc b opening m

/-- Brackets nested too deep: take the rest of the rule. --/
def giveUp (opening : Span) (m : State β) : Checked Empty (State β) := do
  let fault := (Diagnostic.of .nestingTooDeep opening).detailed s!"more than {doc.limit} levels"
  leave B (← bumpRest B doc (rounds doc) (enter B .error { tell fault m with tooDeep := true }))

def bracketed (body : State β → Checked Empty (State β)) (b : Bracket) (m : State β) : Checked Empty (State β) := do
  let (opening, m) := currentSpan doc m
  let m ← bump B doc (enter B b.node m)
  if doc.limit ≤ m.depth then leave B (← giveUp B doc opening m)
  else
    let m ← body { m with depth := m.depth + 1 }
    leave B (← close B doc b opening { m with depth := m.depth - 1 })

def elementWith (body : State β → Checked Empty (State β)) (m : State β) : Checked Empty (State β) :=
  let m := skip doc m
  match (doc.tokens[m.position]?.map fun t => t.1.kind : Option TokenKind) with
  | some .ruleName => bumpAs B doc .ref m
  | some .charVal => bumpAs B doc .str m
  | some .numVal => bumpAs B doc .num m
  | some .proseVal => bumpAs B doc .prose m
  | some .parenOpen => bracketed B doc body .group m
  | some .bracketOpen => bracketed B doc body .optional m
  | some .unterminatedStr => errorAndBump B doc .unterminatedString m
  | _ => errorAndBump B doc .unexpectedToken m

/-- An element, with room for so many calls inside one another. --/
def element : (room : Nat) → State β → Checked Empty (State β)
  | 0, m => elementWith B doc (fun _ => fault .stack) m
  | room + 1, m => elementWith B doc (alternation B doc (element room)) m

/-! ### Rules and documents -/

def skipRest (tells : Bool) (m : State β) : Checked Empty (State β) := do
  let (opens, m) ← opensRule doc m
  if opens || atEnd doc m then return m
  else
    let m := if tells && !m.tooDeep then error doc .unexpectedToken m else m
    leave B (← bumpRest B doc (rounds doc) (enter B .error m))

def rule (m : State β) : Checked Empty (State β) := do
  let m ← bump B doc (enter B .rule { m with tooDeep := false })
  let (defined, m) ← continues doc TokenKind.isDefinedAs m
  if defined then
    let m ← alternation B doc (element B doc doc.limit) (← bump B doc m)
    leave B (← skipRest B doc true m)
  else
    let missing := Diagnostic.of .expectedDefinedAs (.empty (← afterLast doc m))
    leave B (← skipRest B doc false (tell missing m))

def rules : (fuel : Nat) → State β → Checked Empty (State β)
  | 0, _ => fault .endless
  | fuel + 1, m =>
    let m := skip doc m
    if atEnd doc m then return m
    else if here doc (· == .ruleName) m then do rules fuel (← rule B doc m)
    else do rules fuel (← errorUntilRule B doc .expectedRuleName m)

end

/-- Read a document in which brackets may nest `limit` deep, with a builder. --/
def parse (B : Builder β μ) (source : String) (limit : Nat) : Checked Empty Parse := do
  let doc : Input := ⟨Token.spans 0 (tokenize source), source.utf8ByteSize, limit⟩
  let start : State β :=
    { position := 0, buffer := [], builder := B.empty, depth := 0, tooDeep := false, reported := none, diagnostics := [] }
  let m ← rules B doc (rounds doc) (enter B .root start)
  let m ← leave B (drain B m)
  return ⟨← B.finish (drain B m).builder, m.diagnostics⟩

end Abnf.Parser.Machine
