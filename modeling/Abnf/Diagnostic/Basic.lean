import Abnf.Span
import Abnf.Diagnostic.Kind

/-! Diagnostics: a fault, the place it points at, and what helps to mend it. -/

namespace Abnf

namespace Diagnostic

/-- A replacement that would mend the fault. --/
structure Fix where
  description : String
  replacement : String
  deriving DecidableEq, Repr

/-- Another place that explains the fault. --/
structure Related where
  message : String
  span : Span
  deriving DecidableEq, Repr

end Diagnostic

structure Diagnostic where
  kind : Diagnostic.Kind
  severity : Diagnostic.Severity
  span : Span
  message : String
  fix : Option Diagnostic.Fix
  related : List Diagnostic.Related
  hints : List String
  deriving DecidableEq, Repr

namespace Diagnostic

/-- The diagnostic of a kind at a span, worded and advised as every one of its kind. --/
def of (kind : Kind) (span : Span) : Diagnostic :=
  { kind, severity := kind.severity, span, message := kind.plain, fix := none, related := [],
    hints := kind.hint?.toList }

/-- The same fault, worded with a detail. --/
def detailed (d : Diagnostic) (detail : String) : Diagnostic := { d with message := d.kind.detailed detail }

def withSeverity (d : Diagnostic) (severity : Severity) : Diagnostic := { d with severity }

def relatedTo (d : Diagnostic) (message : String) (span : Span) : Diagnostic :=
  { d with related := d.related ++ [⟨message, span⟩] }

def withFix (d : Diagnostic) (description replacement : String) : Diagnostic :=
  { d with fix := some ⟨description, replacement⟩ }

def withHint (d : Diagnostic) (hint : String) : Diagnostic := { d with hints := d.hints ++ [hint] }

def isError (d : Diagnostic) : Bool := d.severity == .error

def isWarning (d : Diagnostic) : Bool := d.severity == .warning

/-! ### Lists of diagnostics -/

def errorCount (ds : List Diagnostic) : Nat := ds.countP isError

def warningCount (ds : List Diagnostic) : Nat := ds.countP isWarning

def hasErrors (ds : List Diagnostic) : Bool := ds.any isError

def hasWarnings (ds : List Diagnostic) : Bool := ds.any isWarning

/-! ### One line for each -/

/-- A diagnostic on one line: severity, span and message, then fix, related places and hints. --/
def line (d : Diagnostic) : String :=
  let head := s!"{d.severity.name} at {d.span.start}..{d.span.stop}: {d.message}"
  let fix := d.fix.toList.map fun f => s!" (fix: {f.description})"
  let related := d.related.map fun r => s!" (related: {r.message} at {r.span.start}..{r.span.stop})"
  let hints := d.hints.map fun h => s!" (hint: {h})"
  String.join (head :: fix ++ related ++ hints)

/-- The lines of a list in the order in which the faults were found. --/
def listing (ds : List Diagnostic) : String := "\n".intercalate (ds.map line)

end Diagnostic
end Abnf
