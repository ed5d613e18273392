import Abnf.CommandLine.Action
import Abnf.CommandLine.Command
import Abnf.Grammar.Render
import Abnf.Match.Json
import Abnf.Match.Trace

/-! What the commands do. A command that fails ends with one line that says why. -/

namespace Abnf.CommandLine

namespace Action

/-! ### Commands -/

def compile (r : CompileRequest) : Action Unit := do
  let c ← compileFile r.document r.compiling
  let content ← ofResult (.unwritable r.out) (Binary.encode c.grammar)
  ExceptT.mk (Session.writeFile r.out content fun w => pure (w.mapError fun e => .unwritable r.out (.io e)))

def check (r : CheckRequest) : Action Unit := do
  let c ← compileFile r.document r.compiling
  if r.strict && Diagnostic.hasWarnings c.warnings then throw (.warnings (Diagnostic.warningCount c.warnings))

/-- The lines that tell of a saved grammar before its rules. --/
def headerLines (g : Grammar) (h : Binary.Header) : String :=
  s!"; grammar `{g.name}`\n; version {h.version.toNat}\n" ++
    s!"; size {h.totalSize.toNat} bytes, checksum {FormatError.hexWord h.checksum}\n" ++
    s!"; {h.ruleCount.toNat} rules, {h.nodeCount.toNat} nodes, {h.stringCount.toNat} strings\n\n"

def dump (r : DumpRequest) : Action Unit := do
  let loaded ← loadGrammar r.grammar r.color
  let g := loaded.grammar
  print ((loaded.header.elim "" (headerLines g)) ++ g.render)
  if !g.isComplete then print ("\n; undefined: " ++ ", ".intercalate g.undefinedNames ++ "\n")

def readSource : InputSource → Action String
  | .text t => return t
  | .file p => readText p
  | .standardInput => readInput

/-- All the rules that a request names have to be defined. --/
def demandRules (g : Grammar) : List String → Action Unit
  | [] => return ()
  | name :: names => if g.defines name then demandRules g names else throw (.undefinedRule name g.name)

def parse (r : ParseRequest) : Action Unit := do
  let g := (← loadGrammar r.grammar r.color).grammar
  demandRules g (r.rule :: r.observe)
  let text ← readSource r.input
  let observed ← ofResult .matching
    (if r.observe.isEmpty then .ok fun _ => true else Match.observing g r.observe)
  let (found, run) ← ofResult .matching (Element.parse g observed r.rule text.toByteArray 0)
  if r.trace then
    print (String.join ((Trace.lines g.ruleName run.trail.trace.toList).map (· ++ "\n")) ++ "\n")
  match found with
  | none => throw (.noMatch r.rule)
  | some m =>
    if r.full && m.span.length != text.utf8ByteSize then
      throw (.partialMatch r.rule m.span.length text.utf8ByteSize)
    print (if r.json then Json.ofElement 0 m.element ++ "\n" else m.element.outline 0)

def ofRequest : Request → Action Unit
  | .compile r => compile r
  | .check r => check r
  | .dump r => dump r
  | .parse r => parse r

end Action

/-! ### Programs -/

/-- Exit codes. --/
abbrev ExitCode := Nat

/-- The exit code of words that cannot be read. --/
def usageCode : ExitCode := 2

/-- Play an action to its exit code; a failure is reported. --/
def Action.toExitCode (failureCode : ExitCode) (a : Action Unit) : Session ExitCode := do
  match ← a.run with
  | .ok () => return 0
  | .error e => .report ["error: " ++ e.message] (pure failureCode)

/-- What is said instead of running a command. --/
def refuse (usage : String) : UsageError → Session ExitCode
  | .helpRequested => .print usage (pure 0)
  | e => .report ["error: " ++ e.message, usage] (pure usageCode)

/-- The program with all commands. --/
def program (words : List String) : Session ExitCode :=
  match Invocation.ofWords words with
  | .ok i => (Action.ofRequest i.request).toExitCode 1
  | .error e => refuse programUsage e

/-- The program that only compiles. --/
def compilerProgram (words : List String) : Session ExitCode :=
  match CompileRequest.ofWords words with
  | .ok r => (Action.compile r).toExitCode 255
  | .error e => refuse compilerUsage e

end Abnf.CommandLine
