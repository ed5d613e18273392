import Abnf.Binary.Decode
import Abnf.CommandLine.Request
import Abnf.CommandLine.Session
import Abnf.Diagnostic.Report
import Abnf.Grammar.Core
import Abnf.Library.Document
import Abnf.Match.Run

/-! Actions: sessions that can fail, and what several commands have in common: reading a file or the input as
    text, and getting hold of a grammar. Diagnostics are reported against the text of the document. -/

namespace Abnf.CommandLine

/-- Why a command fails. --/
inductive CommandError where
  | unreadable (path : Path) (cause : IoError)
  | unreadableInput (cause : IoError)
  | notCompiled (path : Path) (errors : Nat)
  | unwritable (path : Path) (cause : BinaryError)
  | invalidGrammar (path : Path) (cause : BinaryError)
  | notGrammarNorText (path : Path)
  | undefinedRule (rule grammar : String)
  | noMatch (rule : String)
  | partialMatch (rule : String) (matched size : Nat)
  | warnings (count : Nat)
  | matching (cause : MatchError)

namespace CommandError

def message : CommandError → String
  | unreadable path cause => s!"cannot read '{path}': {cause.message}"
  | unreadableInput cause => s!"cannot read stdin: {cause.message}"
  | notCompiled path errors => s!"could not compile '{path}' ({errors} errors)"
  | unwritable path cause => s!"cannot write '{path}': {cause.message}"
  | invalidGrammar path cause => s!"invalid grammar file '{path}': {cause.message}"
  | notGrammarNorText path => s!"'{path}' is neither a grammar file nor UTF-8 text"
  | undefinedRule rule grammar => s!"rule `{rule}` is not defined in `{grammar}`"
  | noMatch rule => s!"`{rule}` does not match the input"
  | partialMatch rule matched size => s!"`{rule}` matched only {matched} of {size} bytes"
  | warnings count => s!"{count} warnings treated as errors"
  | matching cause => cause.message

end CommandError

/-- A session that can fail. --/
abbrev Action := ExceptT CommandError Session

namespace Action

def ofResult {ε α : Type} (error : ε → CommandError) (r : Except ε α) : Action α :=
  ExceptT.mk (pure (r.mapError error))

def readFile (p : Path) : Action (List UInt8) :=
  ExceptT.mk (Session.readFile p fun r => pure (r.mapError (.unreadable p)))

def readText (p : Path) : Action String := do
  match Utf8.text? (← readFile p) with
  | some text => return text
  | none => throw (.unreadable p .notText)

def readInput : Action String := do
  match Utf8.text? (← ExceptT.lift (Session.readInput pure)) with
  | some text => return text
  | none => throw (.unreadableInput .notText)

def print (text : String) : Action Unit := ExceptT.lift (.print text (pure ()))

/-- Write the lines to the standard error. --/
def report (lines : List String) : Action Unit := ExceptT.lift (.report lines (pure ()))

/-! ### Grammars -/

/-- Compile the text of a document over the core rules and report what is to be said of it. --/
def compileText (p : Path) (source : String) (o : Compiling) : Action Compilation := do
  let options : CompileOptions :=
    { name := Library.grammarName p, base := some coreRules, rejectBaseOverrides := o.rejectOverrides,
      allowIncomplete := o.allowIncomplete }
  match compile source options with
  | .ok c => do
    report (Diagnostic.reports source (some p) c.warnings)
    return c
  | .error ds => do
    report (Diagnostic.reports source (some p) ds)
    throw (.notCompiled p (Diagnostic.errorCount ds))

def compileFile (p : Path) (o : Compiling) : Action Compilation := do
  compileText p (← readText p) o

/-- A grammar, and the header it was read with if it was saved. --/
structure LoadedGrammar where
  grammar : Grammar
  header : Option Binary.Header

/-- The grammar of a file, saved or to be compiled. --/
def loadGrammar (p : Path) (color : ColorChoice) : Action LoadedGrammar := do
  let content ← readFile p
  if Binary.hasMagic content then
    let image ← ofResult (.invalidGrammar p) (Binary.Image.ofBytes content)
    let grammar ← ofResult (.invalidGrammar p) image.decode
    return ⟨grammar, some image.header⟩
  else
    match Utf8.text? content with
    | some source => do
      let c ← compileText p source { color }
      return ⟨c.grammar, none⟩
    | none => throw (.notGrammarNorText p)

end Action
end Abnf.CommandLine
