import Abnf.Compile.Assembly
import Abnf.Document.Parser
import Abnf.Grammar.Optimize

/-! Compiling a grammar document: reading it, putting its grammar together, and preparing that for matching. -/

namespace Abnf

/-- A grammar and the warnings that came up on the way to it. --/
structure Compilation where
  grammar : Grammar
  warnings : List Diagnostic

/-- Compile a document. A document that cannot be read is taken no further. --/
def compile (source : String) (o : CompileOptions) : Except (List Diagnostic) Compilation :=
  let p := parse source o.nestingLimit
  if Diagnostic.hasErrors p.diagnostics then .error p.diagnostics
  else
    let (grammar, diagnostics) := Assembly.document o p.tree.definitions
    if Diagnostic.hasErrors diagnostics then .error diagnostics else .ok ⟨grammar.optimize, diagnostics⟩

/-- The text that sums up why a document could not be compiled. --/
def Diagnostic.summary (ds : List Diagnostic) : String :=
  s!"ABNF compilation failed with {Diagnostic.errorCount ds} errors"

end Abnf
