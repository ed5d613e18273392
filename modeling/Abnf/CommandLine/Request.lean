import Abnf.Files.Path

/-! What can be asked on the command line: a command with its operands and options, and how much is to be
    logged. -/

namespace Abnf.CommandLine

inductive ColorChoice where
  | auto | always | never
  deriving DecidableEq, Repr

namespace ColorChoice

def ofName? (s : String) : Option ColorChoice :=
  if s == "auto" then some auto else if s == "always" then some always else if s == "never" then some never else none

end ColorChoice

/-- How a document is to be compiled, as far as the command line says. --/
structure Compiling where
  allowIncomplete : Bool := false
  rejectOverrides : Bool := false
  color : ColorChoice := .auto
  deriving DecidableEq, Repr

structure CompileRequest where
  document : Path
  out : Path
  compiling : Compiling
  deriving DecidableEq, Repr

structure CheckRequest where
  document : Path
  /-- Whether warnings count as errors. --/
  strict : Bool
  compiling : Compiling
  deriving DecidableEq, Repr

structure DumpRequest where
  grammar : Path
  color : ColorChoice
  deriving DecidableEq, Repr

/-- Where the input of a match comes from. --/
inductive InputSource where
  | file (path : Path)
  | text (text : String)
  | standardInput
  deriving DecidableEq, Repr

structure ParseRequest where
  grammar : Path
  rule : String
  input : InputSource
  json : Bool
  observe : List String
  trace : Bool
  /-- Whether the rule has to match all of the input. --/
  full : Bool
  color : ColorChoice
  deriving DecidableEq, Repr

inductive Request where
  | compile (r : CompileRequest)
  | check (r : CheckRequest)
  | dump (r : DumpRequest)
  | parse (r : ParseRequest)
  deriving DecidableEq, Repr

structure Invocation where
  request : Request
  /-- How often more logging was asked for. --/
  verbosity : Nat
  deriving DecidableEq, Repr

end Abnf.CommandLine
